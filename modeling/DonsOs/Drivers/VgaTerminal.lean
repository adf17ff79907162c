import DonsOs.Drivers.Vga
import DonsOs.Lib.Terminal

/-! The screen shows the end of what was written.
Everything printed since `vga_clear` is kept by a terminal without a last row; the words at
`VGA_MEM` are the last 25 of its rows, filled up with blanks, and the cursor stands behind its
last character. -/
namespace DonsOs
namespace Drivers

open Log Run Terminal

/-- What the terminal does with a byte. -/
def typed (t : Output (BitVec 8) 80) (c : BitVec 8) : Output (BitVec 8) 80 :=
  if c = 0x0A then t.newline
  else if c = 0x08 then t.erase
  else if 0x20 ≤ c.toNat ∧ c.toNat ≤ 0x7E then t.append c
  else t

/-- The ways to print. -/
inductive Printing where
  | putc (c : BitVec 8)
  | write (data : List (BitVec 8))
  | print (str : List (BitVec 8))

def Printing.run (s : Vga) : Printing → Vga
  | .putc c => vgaPutc s c
  | .write data => vgaWrite s data
  | .print str => vgaPrint s str

/-- The bytes that are printed; a string ends at its NUL. -/
def Printing.text : Printing → List (BitVec 8)
  | .putc c => [c]
  | .write data => data
  | .print str => str.takeWhile (· ≠ 0)

/-! What the screen shows of a list of rows. -/

structure Shows (attr : BitVec 8) (rows : List (List (BitVec 8))) (s : Vga) : Prop where
  cells : ∀ r c : ℕ, r < 25 → c < 80 → s.cells ((r : ℤ)*80+c) = glyph attr (cell 25 space rows r c)
  row : s.row = cursorRow 25 rows
  attr : s.attr = attr

variable {s : Vga} {attr : BitVec 8} {rows xs : List (List (BitVec 8))} {l : List (BitVec 8)}

theorem Shows.congr {s' : Vga} (h : Shows attr rows s) (hcells : s'.cells = s.cells)
    (hrow : s'.row = s.row) (hattr : s'.attr = s.attr) : Shows attr rows s' :=
  ⟨hcells ▸ h.cells,hrow.trans h.row,hattr.trans h.attr⟩

theorem Shows.nextRow (h : Shows attr rows s) (hne : rows ≠ []) :
    Shows attr (rows++[[]]) (nextRow s) := by
  have hpos : 0 < rows.length := List.length_pos_iff.mpr hne
  have hrow := h.row
  have hafter := (nextRow_cursor s).1
  have hcells := nextRow_cells s
  rw [cursorRow_eq] at hrow
  have hcursor : (Drivers.nextRow s).row = cursorRow 25 (rows++[[]]) := by
    rw [hafter,cursorRow_eq]
    simp only [List.length_append,List.length_singleton]
    split_ifs <;> omega
  refine ⟨fun r c hr hc => ?_,hcursor,(nextRow_attr s).trans h.attr⟩
  rcases Nat.lt_or_ge rows.length 25 with hroom | hfull
  · rw [hcells,if_neg (by omega),cell_newline hroom]
    exact h.cells r c hr hc
  · rw [hcells,if_pos (by omega),cell_scroll hfull hr,scrolled,h.attr]
    split_ifs with h1 h2 h2
    · have hnext := h.cells (r+1) c h2 hc
      rwa [show (((r+1 : ℕ) : ℤ)*80+c) = (r : ℤ)*80+c+80 by push_cast; ring] at hnext
    · omega
    · omega
    · rfl
    · omega
    · omega

theorem Shows.store (h : Shows attr (xs++[l]) s) {l' : List (BitVec 8)} {col : ℕ} (w : BitVec 8)
    (hcol : col < 80)
    (hcell : ∀ r c, r < 25 → cell 25 space (xs++[l']) r c =
      if r = cursorRow 25 (xs++[l]) ∧ c = col then w else cell 25 space (xs++[l]) r c) :
    Shows attr (xs++[l']) (s.store (s.row*80+col) (glyph s.attr w)) := by
  refine ⟨fun r c hr hc => ?_,h.row.trans (by rw [cursorRow_line]),h.attr⟩
  rw [hcell r c hr,h.row,Vga.store,h.attr]
  dsimp only
  split_ifs with hat
  · rw [hat.1,hat.2,Function.update_self]
  · rw [Function.update_of_ne (by omega)]
    exact h.cells r c hr hc

/-! The connection. -/

structure Mirrors (attr : BitVec 8) (t : Output (BitVec 8) 80) (s : Vga) : Prop where
  shows : Shows attr t.rows s
  col : s.col = t.line.length
  crtc : s.crtc = BitVec.ofInt 16 (s.row*80+s.col)

variable {t : Output (BitVec 8) 80}

theorem Mirrors.ready (h : Mirrors attr t s) : s.Ready := by
  have hrow := h.shows.row
  have hcol := h.col
  have hshort := t.short
  rw [cursorRow_eq] at hrow
  exact ⟨by omega,by omega⟩

theorem Mirrors.update (h : Shows attr t.rows s) (hcol : s.col = t.line.length) :
    Mirrors attr t (vgaUpdateHardwareCursor s) :=
  ⟨h.congr rfl rfl rfl,hcol,rfl⟩

theorem Mirrors.newline (h : Mirrors attr t s) :
    Mirrors attr t.newline (vgaUpdateHardwareCursor (nextRow s)) := by
  apply Mirrors.update (h.shows.nextRow (by simp [Output.rows]))
  rw [(nextRow_cursor s).2]
  rfl

theorem Mirrors.append (h : Mirrors attr t s) (c : BitVec 8) : Mirrors attr (t.append c)
    (wrapCursor ((s.store (s.row*80+s.col) (glyph s.attr c)).setCol (s.col+1))) := by
  have hshort := t.short
  have hcol := h.col
  have hstored := h.shows.store c hshort fun r c' hr => cell_append (by decide) hr c
  rw [← hcol] at hstored
  have hshows : Shows attr (t.done++[t.line++[c]])
      ((s.store (s.row*80+s.col) (glyph s.attr c)).setCol (s.col+1)) := hstored.congr rfl rfl rfl
  have hlen : (t.line++[c]).length = t.line.length+1 := by simp
  rw [wrapCursor,Output.append,setCol_col]
  -- the row is complete with its 80th character
  split_ifs with hroom hfull hfull
  · omega
  · apply Mirrors.update hshows
    rw [setCol_col,hlen,hcol]
    rfl
  · apply Mirrors.update (hshows.nextRow (by simp))
    rw [(nextRow_cursor _).2]
    rfl
  · omega

theorem Mirrors.erase (h : Mirrors attr t s) : Mirrors attr t.erase
    (vgaUpdateHardwareCursor (if 0 < s.col then
      (s.setCol (s.col-1)).store (s.row*80+(s.col-1)) (glyph s.attr space) else s)) := by
  have hshort := t.short
  have hcol := h.col
  have hlen : t.erase.line.length = t.line.length-1 := List.length_dropLast
  split_ifs with hpos
  · have hidx : (t.line.length-1 : ℕ) = s.col-1 := by omega
    have hstored : Shows attr (t.done++[t.line.dropLast]) _ :=
      h.shows.store space (show t.line.length-1 < 80 by omega) fun r c hr => by
        rw [cell_erase (by decide) hr]
        congr 2
        rw [eq_iff_iff]
        omega
    rw [hidx] at hstored
    have hshows : Shows attr t.erase.rows
        ((s.setCol (s.col-1)).store (s.row*80+(s.col-1)) (glyph s.attr space)) :=
      hstored.congr rfl rfl rfl
    apply Mirrors.update hshows
    rw [hlen,hidx]
    rfl
  · have hnil : t.line = [] := List.length_eq_zero_iff.mp (by omega)
    have hsame : t.erase.rows = t.rows := by simp [Output.rows,Output.erase,hnil]
    apply Mirrors.update (hsame ▸ h.shows)
    rw [hlen]
    omega

theorem printable_iff (c : BitVec 8) : Printable c ↔ 0x20 ≤ c.toNat ∧ c.toNat ≤ 0x7E := by
  have hlt := c.isLt
  rw [Printable,BitVec.toInt_eq_toNat_cond]
  split_ifs <;> omega

theorem Mirrors.putc (h : Mirrors attr t s) (c : BitVec 8) :
    Mirrors attr (typed t c) (vgaPutcUnlocked s c) := by
  simp only [typed,← printable_iff]
  split_ifs with hnl hbs hc
  · rw [hnl,putc_newline h.ready]
    exact h.newline
  · rw [hbs,putc_backspace h.ready]
    exact h.erase
  · rw [putc_printable h.ready hc]
    exact h.append c
  · rw [putc_other h.ready hnl hbs hc]
    exact h

theorem Mirrors.write (h : Mirrors attr t s) (data : List (BitVec 8)) :
    Mirrors attr (data.foldl typed t) (vgaWrite s data) := by
  induction data generalizing s t with
  | nil => exact h
  | cons c data ih => exact ih (h.putc c)

theorem Mirrors.run (h : Mirrors attr t s) (w : Printing) :
    Mirrors attr (w.text.foldl typed t) (w.run s) := by
  cases w with
  | putc c => exact h.putc c
  | write data => exact h.write data
  | print str =>
    rw [Printing.run,print_eq_write]
    exact h.write _

theorem Mirrors.runs (h : Mirrors attr t s) (ws : List Printing) :
    Mirrors attr ((ws.flatMap Printing.text).foldl typed t) (ws.foldl Printing.run s) := by
  induction ws generalizing s t with
  | nil => exact h
  | cons w ws ih =>
    rw [List.flatMap_cons,List.foldl_append]
    exact ih (h.run w)

/-! Only the screen is written. -/

theorem wrapCursor_onScreen (s : Vga) : OnScreen s.writes (wrapCursor s).writes := by
  unfold wrapCursor
  split_ifs
  · exact nextRow_onScreen s
  · exact Adds.refl _ _

theorem storeChecked_onScreen (s : Vga) (i : ℤ) (w : BitVec 16) :
    OnScreen s.writes (s.storeChecked i w).writes := by
  unfold Vga.storeChecked
  split_ifs with hi
  · exact Adds.cons (Adds.refl _ _) hi
  · exact Adds.refl _ _

theorem putc_onScreen (s : Vga) (c : BitVec 8) : OnScreen s.writes (vgaPutcUnlocked s c).writes := by
  unfold vgaPutcUnlocked
  dsimp only
  split_ifs
  · exact nextRow_onScreen s.clampCursor
  · exact storeChecked_onScreen (s.clampCursor.setCol (s.clampCursor.col-1)) _ _
  · exact Adds.refl _ _
  · exact (storeChecked_onScreen s.clampCursor.clampCursor _ _).trans (wrapCursor_onScreen _)
  · exact Adds.refl _ _

theorem write_onScreen (s : Vga) (data : List (BitVec 8)) :
    OnScreen s.writes (vgaWrite s data).writes := by
  induction data generalizing s with
  | nil => exact Adds.refl _ _
  | cons c data ih => exact (putc_onScreen s c).trans (ih _)

theorem run_onScreen (s : Vga) (w : Printing) : OnScreen s.writes (w.run s).writes := by
  cases w with
  | putc c => exact putc_onScreen s c
  | write data => exact write_onScreen s data
  | print str =>
    rw [Printing.run,print_eq_write]
    exact write_onScreen s _

theorem runs_onScreen (s : Vga) (ws : List Printing) :
    OnScreen s.writes (ws.foldl Printing.run s).writes := by
  induction ws generalizing s with
  | nil => exact Adds.refl _ _
  | cons w ws ih => exact (run_onScreen s w).trans (ih _)

/-! Clearing. -/

/-- The first `n` words have been blanked. -/
structure Cleared (s : Vga) (n : ℕ) (s' : Vga) : Prop where
  cells : ∀ i : ℤ, 0 ≤ i → i < n → s'.cells i = glyph s.attr space
  attr : s'.attr = s.attr
  screen : OnScreen s.writes s'.writes

theorem cleared_screen (s : Vga) : Cleared s 2000 (clearCells s) := by
  have hstart : Cleared s 0 s := ⟨fun i _ _ => by omega,rfl,Adds.refl _ _⟩
  rw [clearCells]
  apply foldl_range_rule (P:=fun n s' => Cleared s n s') hstart
  intro n s' hn h
  refine ⟨fun i hi hlt => ?_,h.attr,h.screen.cons (by omega)⟩
  rw [clearCell,store_cells]
  by_cases hin : i = n
  · rw [hin,Function.update_self,h.attr]
  · rw [Function.update_of_ne hin]
    exact h.cells i hi (by push_cast at hlt; omega)

theorem clear_mirrors (s : Vga) : Mirrors s.attr (Output.empty (by decide)) (vgaClear s) := by
  have h := cleared_screen s
  have hshows : Shows s.attr [[]] (((clearCells s).setRow 0).setCol 0) := by
    refine ⟨fun r c hr hc => ?_,rfl,?_⟩
    · rw [cell_empty,setCol_cells,setRow_cells]
      exact h.cells _ (by omega) (by push_cast; omega)
    · rw [setCol_attr,setRow_attr,h.attr]
  exact Mirrors.update hshows rfl

theorem clear_onScreen (s : Vga) : OnScreen s.writes (vgaClear s).writes := by
  rw [vgaClear,update_writes,setCol_writes,setRow_writes]
  exact (cleared_screen s).screen

/-- After `vga_clear` the screen and the cursor are those of the terminal, whatever is printed. -/
theorem console_terminal (s : Vga) (ws : List Printing) :
    let t := (ws.flatMap Printing.text).foldl typed (Output.empty (by decide))
    let s' := ws.foldl Printing.run (vgaClear s)
    (∀ r c : ℕ, r < 25 → c < 80 →
      s'.cells ((r : ℤ)*80+c) = glyph s.attr (cell 25 space t.rows r c)) ∧
    s'.row = cursorRow 25 t.rows ∧ s'.col = t.line.length ∧
    s'.crtc = BitVec.ofInt 16 (s'.row*80+s'.col) ∧ OnScreen s.writes s'.writes := by
  intro t s'
  have hmirrors := (clear_mirrors s).runs ws
  exact ⟨hmirrors.shows.cells,hmirrors.shows.row,hmirrors.col,hmirrors.crtc,
    (clear_onScreen s).trans (runs_onScreen _ ws)⟩

end Drivers
end DonsOs
