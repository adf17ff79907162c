import DonsOs.Drivers.Vga
import Mathlib.Data.List.TakeWhile

/-! `vga_print_hex_cur` against `vga_print`.
The digits go to the screen at once and the cursor moves by sixteen columns at once.  That is
what printing them one by one does as long as they fit into the row. -/
namespace DonsOs
namespace Drivers

open Run

/-- An upper-case hexadecimal digit. -/
def hexDigit (d : ℕ) : BitVec 8 := if d < 10 then BitVec.ofNat 8 (0x30+d) else BitVec.ofNat 8 (0x41+(d-10))

/-- The sixteen hexadecimal digits of a number, the highest first. -/
def hexText (val : BitVec 64) : List (BitVec 8) :=
  (List.range 16).map fun i => hexDigit (val.toNat/16^(15-i)%16)

/-- The screen and the cursor are the same, the one of the controller included. -/
structure SameScreen (s s' : Vga) : Prop where
  cells : ∀ i, 0 ≤ i → i < 2000 → s.cells i = s'.cells i
  row : s.row = s'.row
  col : s.col = s'.col
  crtc : s.crtc = s'.crtc

/-! The digits. -/

theorem hex_digit {d : ℕ} (hd : d < 16) : hex.getD d 0 = hexDigit d := by
  interval_cases d <;> rfl

theorem hexDigit_printable {d : ℕ} (hd : d < 16) : Printable (hexDigit d) := by
  interval_cases d <;> decide

theorem shift_digit (val : BitVec 64) (i : ℕ) :
    ((val >>> (i*4)) &&& 0xF).toNat = val.toNat/16^i%16 := by
  rw [BitVec.toNat_and,BitVec.toNat_ushiftRight,Nat.shiftRight_eq_div_pow,Nat.mul_comm i 4,Nat.pow_mul]
  exact Nat.and_two_pow_sub_one_eq_mod _ 4

theorem hexBuf_eq (val : BitVec 64) {i : ℕ} (hi : i < 16) :
    hexBuf val i = hexDigit (val.toNat/16^(15-i)%16) := by
  have hloop := @foldl_range_rule (ℕ → BitVec 8)
    (fun n buf => ∀ j < 16, 16 ≤ j+n → buf j = hexDigit (val.toNat/16^(15-j)%16))
    (fun buf i => Function.update buf (15-i) (hex.getD ((val >>> (i*4)) &&& 0xF).toNat 0))
    16 (fun _ => 0) (fun j hj hle => by omega) fun n buf hn hbuf j hj hle => by
      by_cases hjn : j = 15-n
      · rw [hjn,Function.update_self,shift_digit,hex_digit (Nat.mod_lt _ (by decide)),
          show 15-(15-n) = n by omega]
      · rw [Function.update_of_ne hjn]
        exact hbuf j hj (by omega)
  exact hloop i hi (by omega)

theorem hexText_length (val : BitVec 64) : (hexText val).length = 16 := by simp [hexText]

theorem hexText_printable (val : BitVec 64) : ∀ c ∈ hexText val, Printable c := by
  intro c hc
  obtain ⟨i,-,rfl⟩ := List.mem_map.mp hc
  exact hexDigit_printable (Nat.mod_lt _ (by decide))

/-! Printing one by one. -/

theorem print_printable (s : Vga) {cs : List (BitVec 8)} (hcs : ∀ c ∈ cs, Printable c) :
    vgaPrint s cs = vgaWrite s cs := by
  rw [print_eq_write,List.takeWhile_eq_self_iff.mpr]
  intro c hc
  have hp := hcs c hc
  simp only [ne_eq,decide_not,Bool.not_eq_eq_eq_not,Bool.not_true,decide_eq_false_iff_not]
  rintro rfl
  exact absurd hp (by decide)

variable {s : Vga} {cs : List (BitVec 8)} {c : BitVec 8}

theorem putc_cursor (h : s.Ready) (hc : Printable c) :
    (vgaPutcUnlocked s c).col = (s.col+1)%80 ∧
      (vgaPutcUnlocked s c).row = min (s.row+(s.col+1)/80) 24 ∧ (vgaPutcUnlocked s c).Ready := by
  obtain ⟨hr,hcol⟩ := h
  rw [putc_printable ⟨hr,hcol⟩ hc,wrapCursor,setCol_col]
  split_ifs with hwrap
  · have hcursor := nextRow_cursor ((s.store (s.row*80+s.col) (glyph s.attr c)).setCol (s.col+1))
    simp only [setCol_row,store_row] at hcursor
    have hrow : (nextRow ((s.store (s.row*80+s.col) (glyph s.attr c)).setCol (s.col+1))).row =
        min (s.row+(s.col+1)/80) 24 := by
      rw [hcursor.1]
      split_ifs <;> omega
    refine ⟨by rw [update_col,hcursor.2]; omega,hrow,⟨?_,?_⟩⟩
    · rw [update_row,hrow]
      omega
    · rw [update_col,hcursor.2]
      omega
  · refine ⟨?_,?_,⟨?_,?_⟩⟩
    all_goals simp only [update_col,update_row,setCol_col,setCol_row,store_row]
    all_goals omega

theorem write_cursor (h : s.Ready) (hcs : ∀ c ∈ cs, Printable c) :
    (vgaWrite s cs).col = (s.col+cs.length)%80 ∧
      (vgaWrite s cs).row = min (s.row+(s.col+cs.length)/80) 24 := by
  induction cs generalizing s with
  | nil =>
    obtain ⟨hr,hc⟩ := h
    simp only [vgaWrite,List.foldl_nil,List.length_nil,Nat.cast_zero]
    omega
  | cons c cs ih =>
    obtain ⟨hcol,hrow,hready⟩ := putc_cursor h (hcs c (by simp))
    obtain ⟨hcol',hrow'⟩ := ih hready fun d hd => hcs d (by simp [hd])
    rw [hcol] at hcol' hrow'
    rw [hrow] at hrow'
    simp only [vgaWrite,List.foldl_cons,List.length_cons,Nat.cast_add,Nat.cast_one] at *
    rw [hcol',hrow']
    obtain ⟨hr,hc⟩ := h
    omega

theorem putc_crtc (s : Vga) (hc : Printable c) : (vgaPutcUnlocked s c).crtc =
    BitVec.ofInt 16 ((vgaPutcUnlocked s c).row*80+(vgaPutcUnlocked s c).col) := by
  rw [← putc_clamp,putc_printable (clampCursor_ready s) hc]
  rfl

/-! The cursor of the fast path. -/

theorem hexCells_frame (s : Vga) (buf : ℕ → BitVec 8) :
    (hexCells s buf).row = s.row ∧ (hexCells s buf).col = s.col ∧ (hexCells s buf).attr = s.attr := by
  apply foldl_range_rule (P:=fun _ (s' : Vga) => s'.row = s.row ∧ s'.col = s.col ∧ s'.attr = s.attr)
    ⟨rfl,rfl,rfl⟩
  intro i s' _ hs'
  rw [hexCell]
  split_ifs
  · exact hs'
  · exact hs'

theorem hexCur_cursor (s : Vga) (val : BitVec 64) :
    (vgaPrintHexCur s val).col = (if 80 ≤ s.col+16 then 0 else s.col+16) ∧
      (vgaPrintHexCur s val).row =
        if 80 ≤ s.col+16 then (if 25 ≤ s.row+1 then 24 else s.row+1) else s.row := by
  obtain ⟨hrow,hcol,-⟩ := hexCells_frame s (hexBuf val)
  simp only [vgaPrintHexCur,wrapCursor,setCol_col,hcol]
  split_ifs with hwrap hlast
  · obtain ⟨hr,hc⟩ := nextRow_cursor ((hexCells s (hexBuf val)).setCol (s.col+16))
    rw [setCol_row,hrow,if_pos hlast] at hr
    exact ⟨hc,hr⟩
  · obtain ⟨hr,hc⟩ := nextRow_cursor ((hexCells s (hexBuf val)).setCol (s.col+16))
    rw [setCol_row,hrow,if_neg hlast] at hr
    exact ⟨hc,hr⟩
  · exact ⟨rfl,hrow⟩

theorem hexText_clamp (s : Vga) (val : BitVec 64) :
    vgaPrint s (hexText val) = vgaWrite s.clampCursor (hexText val) := by
  rw [print_printable s (hexText_printable val)]
  cases hcs : hexText val with
  | nil => simp [← List.length_eq_zero_iff,hexText_length] at hcs
  | cons c cs => simp only [vgaWrite,List.foldl_cons,putc_clamp]

theorem clamp_cases (v a b : ℤ) (h : a ≤ b) :
    (v < a ∧ clamp v a b = a) ∨ (b < v ∧ clamp v a b = b) ∨ (a ≤ v ∧ v ≤ b ∧ clamp v a b = v) := by
  unfold clamp
  split_ifs <;> omega

/-- The cursors agree if the digits fit into the row, and in one case with a cursor below the
screen. -/
theorem cursor_agrees (s : Vga) (val : BitVec 64) :
    ((vgaPrintHexCur s val).row = (vgaPrint s (hexText val)).row ∧
      (vgaPrintHexCur s val).col = (vgaPrint s (hexText val)).col) ↔
    (0 ≤ s.row ∧ s.row < 25 ∧ 0 ≤ s.col ∧ s.col ≤ 64) ∨ (25 ≤ s.row ∧ s.col = 64) := by
  obtain ⟨hcol,hrow⟩ := write_cursor (clampCursor_ready s) (hexText_printable val)
  obtain ⟨hcol',hrow'⟩ := hexCur_cursor s val
  have hr := clamp_cases s.row 0 24 (by decide)
  have hc := clamp_cases s.col 0 79 (by decide)
  rw [hexText_clamp,hcol,hrow,hcol',hrow',hexText_length]
  simp only [Vga.clampCursor,setCol_row,setRow_row,setCol_col]
  generalize clamp s.row 0 24 = r at hr
  generalize clamp s.col 0 79 = c at hc
  split_ifs <;> omega

/-! The words of the screen. -/

/-- From `pos` on, `n` characters have been written. -/
def inked (attr : BitVec 8) (d : ℕ → BitVec 8) (pos : ℤ) (n : ℕ) (cells : ℤ → BitVec 16) (i : ℤ) :
    BitVec 16 :=
  if pos ≤ i ∧ i < pos+n then glyph attr (d (i-pos).toNat) else cells i

theorem inked_zero (attr : BitVec 8) (d : ℕ → BitVec 8) (pos : ℤ) (cells : ℤ → BitVec 16) :
    inked attr d pos 0 cells = cells := by
  funext i
  rw [inked,if_neg (by omega)]

theorem inked_succ (attr : BitVec 8) (d : ℕ → BitVec 8) (pos : ℤ) (n : ℕ) (cells : ℤ → BitVec 16) :
    Function.update (inked attr d pos n cells) (pos+n) (glyph attr (d n)) =
      inked attr d pos (n+1) cells := by
  funext i
  by_cases hi : i = pos+n
  · have hn : (i-pos).toNat = n := by omega
    rw [hi,Function.update_self,inked,if_pos (by push_cast; omega),← hi,hn]
  · rw [Function.update_of_ne hi,inked,inked]
    split_ifs with h1 h2 h2
    · rfl
    · push_cast at h2
      omega
    · push_cast at h2
      omega
    · rfl

/-- `n` characters have been written into the row. -/
structure Inked (s : Vga) (d : ℕ → BitVec 8) (n : ℕ) (s' : Vga) : Prop where
  row : s'.row = s.row
  col : s'.col = s.col+n
  attr : s'.attr = s.attr
  cells : s'.cells = inked s.attr d (s.row*80+s.col) n s.cells

variable {d : ℕ → BitVec 8} {n : ℕ} {s' : Vga}

theorem Inked.succ (h : Inked s d n s') :
    Inked s d (n+1) ((s'.store (s'.row*80+s'.col) (glyph s'.attr (d n))).setCol (s'.col+1)) := by
  refine ⟨h.row,?_,h.attr,?_⟩
  · rw [setCol_col,h.col]
    push_cast
    ring
  · rw [setCol_cells,store_cells,h.cells,h.row,h.col,h.attr,← add_assoc,inked_succ]

theorem Inked.ready (h : Inked s d n s') (hs : s.Ready) (hfit : s.col+n < 80) : s'.Ready := by
  obtain ⟨hr,hc⟩ := hs
  exact ⟨by rw [h.row]; omega,by rw [h.col]; omega⟩

theorem write_succ (s : Vga) (d : ℕ → BitVec 8) (n : ℕ) :
    vgaWrite s ((List.range (n+1)).map d) =
      vgaPutcUnlocked (vgaWrite s ((List.range n).map d)) (d n) := by
  simp only [List.range_succ,List.map_append,vgaWrite,List.foldl_append,List.map_cons,List.map_nil,
    List.foldl_cons,List.foldl_nil]

theorem write_inked (h : s.Ready) (hd : ∀ i, Printable (d i)) (hfit : s.col+n < 80) :
    Inked s d n (vgaWrite s ((List.range n).map d)) := by
  induction n with
  | zero => exact ⟨rfl,by simp [vgaWrite],rfl,(inked_zero _ _ _ _).symm⟩
  | succ n ih =>
    push_cast at hfit
    have hs := ih (by omega)
    have hnext := hs.succ
    have hroom : ¬80 ≤ ((vgaWrite s ((List.range n).map d)).col+1) := by
      rw [hs.col]
      omega
    rw [write_succ,putc_printable (hs.ready h (by omega)) (hd n),wrapCursor,setCol_col,if_neg hroom]
    exact ⟨hnext.row,hnext.col,hnext.attr,hnext.cells⟩

/-- Characters that fit into the row, up to its last column. -/
theorem write_row (h : s.Ready) (hd : ∀ i, Printable (d i)) (hfit : s.col+(n+1) ≤ 80) :
    ∃ s', Inked s d (n+1) s' ∧ vgaWrite s ((List.range (n+1)).map d) = wrapCursor s' := by
  have hs := write_inked (n:=n) h hd (by omega)
  refine ⟨_,hs.succ,?_⟩
  rw [write_succ,putc_printable (hs.ready h (by omega)) (hd n)]

theorem hexCells_inked (h : s.Ready) (hfit : s.col ≤ 64) {buf : ℕ → BitVec 8}
    (hbuf : ∀ i < 16, buf i = d i) :
    Inked s d 16 ((hexCells s buf).setCol ((hexCells s buf).col+16)) := by
  obtain ⟨hr,hc⟩ := h
  obtain ⟨hrow,hcol,hattr⟩ := hexCells_frame s buf
  have hloop := @foldl_range_rule Vga
    (fun n s' => s'.attr = s.attr ∧ s'.cells = inked s.attr d (s.row*80+s.col) n s.cells)
    (hexCell buf (s.row*80+s.col)) 16 s ⟨rfl,(inked_zero _ _ _ _).symm⟩
    fun i s' hi hs' => by
      rw [hexCell,if_pos (by omega)]
      refine ⟨hs'.1,?_⟩
      rw [store_cells,hs'.1,hs'.2,hbuf i hi,inked_succ]
  exact ⟨hrow,by rw [setCol_col,hcol]; rfl,hattr,hloop.2⟩

theorem hexCells_below (h : 80*25 ≤ s.row*80+s.col) (buf : ℕ → BitVec 8) : hexCells s buf = s := by
  apply foldl_range_rule (P:=fun _ s' => s' = s) rfl
  intro i s' _ hs'
  rw [hexCell,if_neg (by omega),hs']

theorem wrapCursor_cells (s : Vga) : (wrapCursor s).cells =
    if 80 ≤ s.col then (if 25 ≤ s.row+1 then scrolled s.attr s.cells else s.cells) else s.cells := by
  rw [wrapCursor,update_cells]
  split_ifs with hwrap hlast
  · rw [nextRow_cells,if_pos hlast]
  · rw [nextRow_cells,if_neg hlast]
  · rfl

theorem hexCur_crtc (s : Vga) (val : BitVec 64) : (vgaPrintHexCur s val).crtc =
    BitVec.ofInt 16 ((vgaPrintHexCur s val).row*80+(vgaPrintHexCur s val).col) :=
  rfl

theorem hexPrint_crtc (s : Vga) (val : BitVec 64) : (vgaPrint s (hexText val)).crtc =
    BitVec.ofInt 16 ((vgaPrint s (hexText val)).row*80+(vgaPrint s (hexText val)).col) := by
  rw [hexText_clamp,hexText,write_succ]
  exact putc_crtc _ (hexDigit_printable (Nat.mod_lt _ (by decide)))

theorem Inked.wrap_cells {s₁ s₂ : Vga} (h₁ : Inked s d n s₁) (h₂ : Inked s d n s₂) :
    (wrapCursor s₁).cells = (wrapCursor s₂).cells := by
  rw [wrapCursor_cells,wrapCursor_cells,h₁.row,h₁.col,h₁.attr,h₁.cells,h₂.row,h₂.col,h₂.attr,h₂.cells]

theorem hexText_row (h : s.Ready) (hfit : s.col ≤ 64) (val : BitVec 64) :
    ∃ s', Inked s (fun i => hexDigit (val.toNat/16^(15-i)%16)) 16 s' ∧
      vgaWrite s (hexText val) = wrapCursor s' :=
  write_row (n:=15) h (fun i => hexDigit_printable (Nat.mod_lt _ (by decide))) (by push_cast; omega)

/-- With the cursor on the screen and room for the digits nothing tells the two apart. -/
theorem hexCur_fits (h : s.Ready) (hfit : s.col ≤ 64) (val : BitVec 64) :
    (vgaPrintHexCur s val).cells = (vgaPrint s (hexText val)).cells := by
  obtain ⟨s',hs',hprint⟩ := hexText_row h hfit val
  rw [hexText_clamp,h.clampCursor,hprint]
  exact (hexCells_inked h hfit fun i hi => hexBuf_eq val hi).wrap_cells hs'

/-- Below the screen the fast path writes nothing, and printing writes into the last row. -/
theorem hexCur_below (hrow : 25 ≤ s.row) (hcol : s.col = 64) (val : BitVec 64) :
    (vgaPrintHexCur s val).cells = scrolled s.attr s.cells ∧
      (vgaPrint s (hexText val)).cells =
        scrolled s.attr (inked s.attr (fun i => hexDigit (val.toNat/16^(15-i)%16)) 1984 16 s.cells) := by
  have hclamp : s.clampCursor = (s.setRow 24).setCol 64 := by
    have hlast : clamp s.row 0 24 = 24 := by
      unfold clamp
      split_ifs <;> omega
    rw [Vga.clampCursor,hcol,hlast]
    rfl
  obtain ⟨s',hs',hprint⟩ := hexText_row (clampCursor_ready s) (by rw [hclamp,setCol_col]) val
  constructor
  · have hwrap : 80 ≤ (s.setCol (s.col+16)).col := by
      rw [setCol_col]
      omega
    have hlast : 25 ≤ (s.setCol (s.col+16)).row+1 := by
      rw [setCol_row]
      omega
    rw [vgaPrintHexCur,hexCells_below (by omega),wrapCursor_cells,if_pos hwrap,if_pos hlast]
    rfl
  · rw [hexText_clamp,hprint,wrapCursor_cells,hs'.row,hs'.col,hs'.attr,hs'.cells,hclamp]
    rfl

theorem scrolled_inked (attr : BitVec 8) (d : ℕ → BitVec 8) (cells : ℤ → BitVec 16) :
    (∀ i, 0 ≤ i → i < 2000 → scrolled attr cells i = scrolled attr (inked attr d 1984 16 cells) i) ↔
      ∀ j < 16, cells (1984+(j : ℕ)) = glyph attr (d j) := by
  constructor
  · intro h j hj
    have hcell := h (1904+j) (by omega) (by omega)
    rw [scrolled,scrolled,if_pos (by omega),if_pos (by omega),inked,if_pos (by omega)] at hcell
    rw [show (1984 : ℤ)+j = 1904+j+80 by ring,hcell]
    congr 2
    omega
  · intro h i hi hlt
    rw [scrolled,scrolled]
    split_ifs with h1 h2
    · rw [inked]
      split_ifs with hin
      · have hcell := h (i+80-1984).toNat (by omega)
        rwa [show (1984 : ℤ)+(i+80-1984).toNat = i+80 by omega] at hcell
      · rfl
    · rfl
    · omega

/-- The fast path agrees with printing digit by digit exactly when the digits fit into the row of a
cursor on the screen, or when they stand already where printing would put them. -/
theorem hexCur_agrees (s : Vga) (val : BitVec 64) :
    SameScreen (vgaPrintHexCur s val) (vgaPrint s (hexText val)) ↔
      (0 ≤ s.row ∧ s.row < 25 ∧ 0 ≤ s.col ∧ s.col ≤ 64) ∨
      (25 ≤ s.row ∧ s.col = 64 ∧
        ∀ j < 16, s.cells (1984+(j : ℕ)) = glyph s.attr (hexDigit (val.toNat/16^(15-j)%16))) := by
  have hcursor := cursor_agrees s val
  constructor
  · intro h
    rcases hcursor.mp ⟨h.row,h.col⟩ with hfits | ⟨hrow,hcol⟩
    · exact Or.inl hfits
    · obtain ⟨hfast,hslow⟩ := hexCur_below hrow hcol val
      have hcells := h.cells
      rw [hfast,hslow] at hcells
      exact Or.inr ⟨hrow,hcol,(scrolled_inked _ _ _).mp hcells⟩
  · intro h
    have hsame : (vgaPrintHexCur s val).row = (vgaPrint s (hexText val)).row ∧
        (vgaPrintHexCur s val).col = (vgaPrint s (hexText val)).col :=
      hcursor.mpr (h.imp id fun hbelow => ⟨hbelow.1,hbelow.2.1⟩)
    refine ⟨?_,hsame.1,hsame.2,by rw [hexCur_crtc,hexPrint_crtc,hsame.1,hsame.2]⟩
    rcases h with ⟨hr,hr',hc,hc'⟩ | ⟨hrow,hcol,hcells⟩
    · intro i _ _
      rw [hexCur_fits ⟨⟨hr,hr'⟩,⟨hc,by omega⟩⟩ hc' val]
    · obtain ⟨hfast,hslow⟩ := hexCur_below hrow hcol val
      rw [hfast,hslow]
      exact (scrolled_inked _ _ _).mpr hcells

/-- A blank screen with the cursor in the first row at `col`. -/
def blankScreen (col : ℤ) : Vga := ⟨fun _ => glyph 0x1E space,0,col,0x1E,BitVec.ofInt 16 col,[]⟩

/-- From column 70 on, printing leaves the cursor in column 6 of the next row, the fast path in
column 0. -/
theorem hexCur_loses_column :
    (vgaPrintHexCur (blankScreen 70) 0).col = 0 ∧ (vgaPrint (blankScreen 70) (hexText 0)).col = 6 ∧
      ¬SameScreen (vgaPrintHexCur (blankScreen 70) 0) (vgaPrint (blankScreen 70) (hexText 0)) := by
  have hfast : (vgaPrintHexCur (blankScreen 70) 0).col = 0 := by decide +kernel
  have hslow : (vgaPrint (blankScreen 70) (hexText 0)).col = 6 := by decide +kernel
  refine ⟨hfast,hslow,fun h => ?_⟩
  have hcol := h.col
  rw [hfast,hslow] at hcol
  exact absurd hcol (by decide)

end Drivers
end DonsOs
