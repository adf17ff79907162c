import DonsOs.Lib.Log
import DonsOs.Lib.Run
import Mathlib.Tactic

/-! Text mode: `vga.c`.
The words at `VGA_MEM` are indexed from there; a screen of 25 rows (`VGA_HEIGHT`) of 80
columns (`VGA_WIDTH`) is the words 0 to 1999, and no row is reserved.  The cursor is kept in
two `int`s and told to the CRT controller after each change.  All output runs under the print
lock, so nothing comes in between. -/
namespace DonsOs
namespace Drivers

open Log Run

/-- The statics of `vga.c`, the memory and the cursor position the controller was told last.
`writes` is a history variable: the indices of all words written, newest first. -/
structure Vga where
  cells : ℤ → BitVec 16
  row : ℤ
  col : ℤ
  attr : BitVec 8
  crtc : BitVec 16
  writes : List ℤ

def clamp (value min max : ℤ) : ℤ :=
  if value < min then min else if max < value then max else value

/-- `((uint16_t)attr << 8) | c`. -/
def glyph (attr c : BitVec 8) : BitVec 16 := attr.setWidth 16 <<< 8 ||| c.setWidth 16

/-- `' '`. -/
def space : BitVec 8 := 0x20

def Vga.store (s : Vga) (i : ℤ) (w : BitVec 16) : Vga :=
  { s with cells := Function.update s.cells i w, writes := i::s.writes }

/-- A store that is made only if the index is on the screen. -/
def Vga.storeChecked (s : Vga) (i : ℤ) (w : BitVec 16) : Vga :=
  if 0 ≤ i ∧ i < 2000 then s.store i w else s

def Vga.setRow (s : Vga) (row : ℤ) : Vga := { s with row := row }
def Vga.setCol (s : Vga) (col : ℤ) : Vga := { s with col := col }

def Vga.clampCursor (s : Vga) : Vga := (s.setRow (clamp s.row 0 24)).setCol (clamp s.col 0 79)

def vgaUpdateHardwareCursor (s : Vga) : Vga := { s with crtc := BitVec.ofInt 16 (s.row*80+s.col) }

/-- One turn of the two loops that move the rows up. -/
def copyCell (row : ℕ) (s : Vga) (col : ℕ) : Vga :=
  let src : ℤ := (row+1)*80+col
  let dst : ℤ := row*80+col
  if (0 ≤ src ∧ src < 2000) ∧ 0 ≤ dst ∧ dst < 2000 then s.store dst (s.cells src) else s

def copyRow (s : Vga) (row : ℕ) : Vga := (List.range 80).foldl (copyCell row) s

def copyRows (s : Vga) : Vga := (List.range 24).foldl copyRow s

def blankCell (s : Vga) (col : ℕ) : Vga := s.storeChecked (24*80+col) (glyph s.attr space)

def blankLastRow (s : Vga) : Vga := (List.range 80).foldl blankCell s

def vgaScroll (s : Vga) : Vga :=
  vgaUpdateHardwareCursor (((blankLastRow (copyRows s.clampCursor)).setRow 24).setCol 0)

/-- The cursor goes to the start of the next row. -/
def nextRow (s : Vga) : Vga :=
  let s := (s.setRow (s.row+1)).setCol 0
  if 25 ≤ s.row then (vgaScroll s).setRow 24 else s

/-- What follows after characters have been stored and `cursor_col` was moved past them. -/
def wrapCursor (s : Vga) : Vga := vgaUpdateHardwareCursor (if 80 ≤ s.col then nextRow s else s)

/-- `char` is signed, so bytes from 0x80 on are below the blank. -/
def Printable (c : BitVec 8) : Prop := 0x20 ≤ c.toInt ∧ c.toInt ≤ 0x7E

instance (c : BitVec 8) : Decidable (Printable c) := inferInstanceAs (Decidable (_ ∧ _))

def vgaPutcUnlocked (s : Vga) (c : BitVec 8) : Vga :=
  let s := s.clampCursor
  if c = 0x0A then vgaUpdateHardwareCursor (nextRow s)
  else if c = 0x08 then
    vgaUpdateHardwareCursor (if 0 < s.col then
      (s.setCol (s.col-1)).storeChecked (s.row*80+(s.col-1)) (glyph s.attr space)
    else s)
  else if Printable c then
    let s := s.clampCursor
    let s := s.storeChecked (s.row*80+s.col) (glyph s.attr c)
    wrapCursor (s.setCol (s.col+1))
  else s

def vgaPutc (s : Vga) (c : BitVec 8) : Vga := vgaPutcUnlocked s c

/-- `vga_write(data, count)`, where `data` are the bytes to be written. -/
def vgaWrite (s : Vga) (data : List (BitVec 8)) : Vga := data.foldl vgaPutcUnlocked s

/-- `vga_print`; the string ends at the first NUL. -/
def vgaPrint (s : Vga) : List (BitVec 8) → Vga
  | [] => s
  | c::cs => if c = 0 then s else vgaPrint (vgaPutcUnlocked s c) cs

def clearCell (s : Vga) (i : ℕ) : Vga := s.store i (glyph s.attr space)

def clearCells (s : Vga) : Vga := (List.range 2000).foldl clearCell s

def vgaClear (s : Vga) : Vga := vgaUpdateHardwareCursor (((clearCells s).setRow 0).setCol 0)

def hex : List (BitVec 8) :=
  [0x30,0x31,0x32,0x33,0x34,0x35,0x36,0x37,0x38,0x39,0x41,0x42,0x43,0x44,0x45,0x46]

/-- `buf`, filled from the right. -/
def hexBuf (val : BitVec 64) : ℕ → BitVec 8 :=
  (List.range 16).foldl
    (fun buf i => Function.update buf (15-i) (hex.getD ((val >>> (i*4)) &&& 0xF).toNat 0))
    fun _ => 0

/-- One digit of `vga_print_hex_cur`, which looks only whether the screen ends before it. -/
def hexCell (buf : ℕ → BitVec 8) (pos : ℤ) (s : Vga) (i : ℕ) : Vga :=
  if pos+i < 80*25 then s.store (pos+i) (glyph s.attr (buf i)) else s

def hexCells (s : Vga) (buf : ℕ → BitVec 8) : Vga :=
  (List.range 16).foldl (hexCell buf (s.row*80+s.col)) s

def vgaPrintHexCur (s : Vga) (val : BitVec 64) : Vga :=
  let s := hexCells s (hexBuf val)
  wrapCursor (s.setCol (s.col+16))

section

variable (s : Vga)

@[simp] theorem setRow_cells (r : ℤ) : (s.setRow r).cells = s.cells := rfl
@[simp] theorem setRow_row (r : ℤ) : (s.setRow r).row = r := rfl
@[simp] theorem setRow_col (r : ℤ) : (s.setRow r).col = s.col := rfl
@[simp] theorem setRow_attr (r : ℤ) : (s.setRow r).attr = s.attr := rfl
@[simp] theorem setRow_writes (r : ℤ) : (s.setRow r).writes = s.writes := rfl
@[simp] theorem setCol_cells (c : ℤ) : (s.setCol c).cells = s.cells := rfl
@[simp] theorem setCol_row (c : ℤ) : (s.setCol c).row = s.row := rfl
@[simp] theorem setCol_col (c : ℤ) : (s.setCol c).col = c := rfl
@[simp] theorem setCol_attr (c : ℤ) : (s.setCol c).attr = s.attr := rfl
@[simp] theorem setCol_writes (c : ℤ) : (s.setCol c).writes = s.writes := rfl
section

variable (i : ℤ) (w : BitVec 16)

@[simp] theorem store_row : (s.store i w).row = s.row := rfl
@[simp] theorem store_col : (s.store i w).col = s.col := rfl
@[simp] theorem store_attr : (s.store i w).attr = s.attr := rfl
@[simp] theorem store_cells : (s.store i w).cells = Function.update s.cells i w := rfl
@[simp] theorem store_writes : (s.store i w).writes = i::s.writes := rfl

end

@[simp] theorem update_cells : (vgaUpdateHardwareCursor s).cells = s.cells := rfl
@[simp] theorem update_row : (vgaUpdateHardwareCursor s).row = s.row := rfl
@[simp] theorem update_col : (vgaUpdateHardwareCursor s).col = s.col := rfl
@[simp] theorem update_attr : (vgaUpdateHardwareCursor s).attr = s.attr := rfl
@[simp] theorem update_writes : (vgaUpdateHardwareCursor s).writes = s.writes := rfl

end

/-! What was written is on the screen. -/

/-- The words that were written between two states, going by their logs, are on the screen. -/
def OnScreen : List ℤ → List ℤ → Prop := Adds fun i => 0 ≤ i ∧ i < 2000

variable {s s' : Vga}

/-! The cursor. -/

structure Vga.Ready (s : Vga) : Prop where
  row : 0 ≤ s.row ∧ s.row < 25
  col : 0 ≤ s.col ∧ s.col < 80

theorem clamp_bounds {v a b : ℤ} (h : a ≤ b) : a ≤ clamp v a b ∧ clamp v a b ≤ b := by
  unfold clamp
  split_ifs <;> omega

theorem clamp_of_mem {v a b : ℤ} (ha : a ≤ v) (hb : v ≤ b) : clamp v a b = v := by
  unfold clamp
  split_ifs <;> omega

theorem clampCursor_ready (s : Vga) : s.clampCursor.Ready := by
  have hrow := clamp_bounds (v:=s.row) (show (0 : ℤ) ≤ 24 by decide)
  have hcol := clamp_bounds (v:=s.col) (show (0 : ℤ) ≤ 79 by decide)
  exact ⟨⟨hrow.1,Int.lt_of_le_sub_one hrow.2⟩,⟨hcol.1,Int.lt_of_le_sub_one hcol.2⟩⟩

theorem Vga.Ready.clampCursor (h : s.Ready) : s.clampCursor = s := by
  obtain ⟨hr,hc⟩ := h
  rw [Vga.clampCursor,clamp_of_mem hr.1 (show s.row ≤ 24 by omega),
    clamp_of_mem hc.1 (show s.col ≤ 79 by omega)]
  rfl

theorem putc_clamp (s : Vga) (c : BitVec 8) : vgaPutcUnlocked s.clampCursor c = vgaPutcUnlocked s c := by
  simp only [vgaPutcUnlocked,(clampCursor_ready s).clampCursor]

theorem Vga.Ready.pos (h : s.Ready) : 0 ≤ s.row*80+s.col ∧ s.row*80+s.col < 2000 := by
  obtain ⟨hr,hc⟩ := h
  omega

/-! Scrolling. -/

/-- The words of the screen after it has moved up by a row. -/
def scrolled (attr : BitVec 8) (cells : ℤ → BitVec 16) (i : ℤ) : BitVec 16 :=
  if 0 ≤ i ∧ i < 1920 then cells (i+80)
  else if 1920 ≤ i ∧ i < 2000 then glyph attr space
  else cells i

/-- Up to word `n` the screen has been moved up. -/
structure MovedUp (s : Vga) (n : ℕ) (s' : Vga) : Prop where
  cells : ∀ i, s'.cells i = if 0 ≤ i ∧ i < n then s.cells (i+80) else s.cells i
  attr : s'.attr = s.attr
  screen : OnScreen s.writes s'.writes

theorem copyCell_eq {row col : ℕ} (s : Vga) (hr : row < 24) (hc : col < 80) :
    copyCell row s col = s.store (row*80+col) (s.cells ((row+1)*80+col)) := by
  unfold copyCell
  exact if_pos (by omega)

theorem MovedUp.copyCell {row col : ℕ} (h : MovedUp s (row*80+col) s') (hr : row < 24) (hc : col < 80) :
    MovedUp s (row*80+(col+1)) (copyCell row s' col) := by
  rw [copyCell_eq s' hr hc]
  refine ⟨fun i => ?_,h.attr,h.screen.cons (by omega)⟩
  simp only [Vga.store]
  -- the source has not been overwritten yet
  by_cases hi : i = (row : ℤ)*80+col
  · subst hi
    have hsrc : ((row : ℤ)+1)*80+col = row*80+col+80 := by ring
    rw [Function.update_self,hsrc,h.cells,if_neg (by push_cast; omega),if_pos (by push_cast; omega)]
  · rw [Function.update_of_ne hi,h.cells]
    by_cases hlt : 0 ≤ i ∧ i < ((row*80+col : ℕ) : ℤ)
    · rw [if_pos hlt,if_pos (by push_cast at hlt ⊢; omega)]
    · rw [if_neg hlt,if_neg (by push_cast at hlt ⊢; omega)]

theorem MovedUp.copyRow {row : ℕ} (h : MovedUp s (row*80) s') (hr : row < 24) :
    MovedUp s ((row+1)*80) (copyRow s' row) := by
  have hloop := foldl_range_rule (P:=fun col s' => MovedUp s (row*80+col) s') (n:=80) h
    fun col s' hcol hs' => hs'.copyCell hr hcol
  rwa [show row*80+80 = (row+1)*80 by ring] at hloop

theorem movedUp_rows (s : Vga) : MovedUp s 1920 (copyRows s) := by
  have hstart : MovedUp s (0*80) s := ⟨fun i => by rw [if_neg (by omega)],rfl,Adds.refl _ _⟩
  exact foldl_range_rule (P:=fun row s' => MovedUp s (row*80) s') (n:=24) hstart
    fun row s' hrow hs' => hs'.copyRow hrow

/-- Of the last row, the first `n` words have been blanked. -/
structure Blanked (s : Vga) (n : ℕ) (s' : Vga) : Prop where
  cells : ∀ i, s'.cells i = if 1920 ≤ i ∧ i < 1920+n then glyph s.attr space else s.cells i
  attr : s'.attr = s.attr
  screen : OnScreen s.writes s'.writes

theorem blanked_row (s : Vga) : Blanked s 80 (blankLastRow s) := by
  have hstart : Blanked s 0 s := ⟨fun i => by rw [if_neg (by omega)],rfl,Adds.refl _ _⟩
  apply foldl_range_rule (P:=fun n s' => Blanked s n s') (n:=80) hstart
  intro col s' hcol h
  have hguard : 0 ≤ (24 : ℤ)*80+col ∧ (24 : ℤ)*80+col < 2000 := by omega
  rw [blankCell,Vga.storeChecked,if_pos hguard]
  refine ⟨fun i => ?_,h.attr,h.screen.cons hguard⟩
  simp only [Vga.store,h.attr]
  by_cases hi : i = (24 : ℤ)*80+col
  · rw [hi,Function.update_self,if_pos (by push_cast; omega)]
  · rw [Function.update_of_ne hi,h.cells]
    by_cases hlt : 1920 ≤ i ∧ i < 1920+(col : ℤ)
    · rw [if_pos hlt,if_pos (by push_cast; omega)]
    · rw [if_neg hlt,if_neg (by push_cast; omega)]

theorem scroll_cells (s : Vga) : (vgaScroll s).cells = scrolled s.attr s.cells := by
  have hmoved := movedUp_rows s.clampCursor
  have hblank := blanked_row (copyRows s.clampCursor)
  funext i
  simp only [vgaScroll,update_cells,setCol_cells,setRow_cells,scrolled]
  rw [hblank.cells,hmoved.attr,hmoved.cells]
  simp only [Vga.clampCursor,setCol_cells,setRow_cells,setCol_attr,setRow_attr]
  split_ifs <;> first | rfl | omega

@[simp] theorem scroll_attr (s : Vga) : (vgaScroll s).attr = s.attr := by
  simp only [vgaScroll,update_attr,setCol_attr,setRow_attr,(blanked_row _).attr,(movedUp_rows _).attr,
    Vga.clampCursor]

theorem scroll_onScreen (s : Vga) : OnScreen s.writes (vgaScroll s).writes := by
  have hmoved := (movedUp_rows s.clampCursor).screen
  have hblank := (blanked_row (copyRows s.clampCursor)).screen
  simp only [vgaScroll,update_writes,setCol_writes,setRow_writes]
  exact hmoved.trans hblank

theorem nextRow_eq (s : Vga) : nextRow s =
    if 25 ≤ s.row+1 then (vgaScroll ((s.setRow (s.row+1)).setCol 0)).setRow 24
    else (s.setRow (s.row+1)).setCol 0 :=
  rfl

theorem nextRow_cursor (s : Vga) :
    (nextRow s).row = (if 25 ≤ s.row+1 then 24 else s.row+1) ∧ (nextRow s).col = 0 := by
  rw [nextRow_eq]
  split_ifs <;> exact ⟨rfl,rfl⟩

theorem nextRow_cells (s : Vga) :
    (nextRow s).cells = if 25 ≤ s.row+1 then scrolled s.attr s.cells else s.cells := by
  rw [nextRow_eq]
  split_ifs
  · simp only [setRow_cells,scroll_cells,setCol_attr,setRow_attr,setCol_cells]
  · rfl

@[simp] theorem nextRow_attr (s : Vga) : (nextRow s).attr = s.attr := by
  rw [nextRow_eq]
  split_ifs
  · rw [setRow_attr,scroll_attr,setCol_attr,setRow_attr]
  · rfl

theorem nextRow_onScreen (s : Vga) : OnScreen s.writes (nextRow s).writes := by
  rw [nextRow_eq]
  split_ifs
  · rw [setRow_writes]
    exact scroll_onScreen ((s.setRow (s.row+1)).setCol 0)
  · exact Adds.refl _ _

/-! One character. -/

theorem putc_newline (h : s.Ready) : vgaPutcUnlocked s 0x0A = vgaUpdateHardwareCursor (nextRow s) := by
  simp only [vgaPutcUnlocked,h.clampCursor,if_true]

theorem putc_backspace (h : s.Ready) : vgaPutcUnlocked s 0x08 =
    vgaUpdateHardwareCursor (if 0 < s.col then
      (s.setCol (s.col-1)).store (s.row*80+(s.col-1)) (glyph s.attr space) else s) := by
  obtain ⟨hr,hc⟩ := h
  have hne : (0x08 : BitVec 8) ≠ 0x0A := by decide
  simp only [vgaPutcUnlocked,Vga.Ready.clampCursor ⟨hr,hc⟩,hne,if_false,if_true]
  congr 1
  split_ifs with hpos
  · rw [Vga.storeChecked,if_pos (by omega)]
  · rfl

theorem putc_printable (h : s.Ready) {c : BitVec 8} (hc : Printable c) : vgaPutcUnlocked s c =
    wrapCursor ((s.store (s.row*80+s.col) (glyph s.attr c)).setCol (s.col+1)) := by
  have hnl : c ≠ 0x0A := by
    rintro rfl
    exact absurd hc (by decide)
  have hbs : c ≠ 0x08 := by
    rintro rfl
    exact absurd hc (by decide)
  simp only [vgaPutcUnlocked,h.clampCursor,hnl,hbs,hc,if_false,if_true,Vga.storeChecked,h.pos,
    and_self]
  rfl

theorem putc_other (h : s.Ready) {c : BitVec 8} (hnl : c ≠ 0x0A) (hbs : c ≠ 0x08) (hc : ¬Printable c) :
    vgaPutcUnlocked s c = s := by
  simp only [vgaPutcUnlocked,h.clampCursor,hnl,hbs,hc,if_false]

theorem print_eq_write (s : Vga) (cs : List (BitVec 8)) :
    vgaPrint s cs = vgaWrite s (cs.takeWhile (· ≠ 0)) := by
  induction cs generalizing s with
  | nil => rfl
  | cons c cs ih =>
    by_cases hc : c = 0
    · simp [vgaPrint,vgaWrite,hc]
    · simp only [vgaPrint,hc,if_false,ih,vgaWrite]
      rw [List.takeWhile_cons_of_pos (by simpa using hc),List.foldl_cons]

end Drivers
end DonsOs
