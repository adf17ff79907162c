import Mathlib.Data.List.Basic
import Mathlib.Tactic

/-! A terminal that forgets nothing.
Its output is a list of rows of at most `width` characters, of which the last one is being
written.  A screen of `height` rows shows the last rows, filled up with blanks; the cell
lemmas say how what it shows changes when the output grows. -/
namespace DonsOs
namespace Terminal

variable {α : Type} {width height : ℕ}

/-- The rows that are complete, oldest first, and the row being written. -/
structure Output (α : Type) (width : ℕ) where
  done : List (List α)
  line : List α
  short : line.length < width

def Output.rows (t : Output α width) : List (List α) := t.done++[t.line]

def Output.empty (hw : 0 < width) : Output α width := ⟨[],[],hw⟩

def Output.newline (t : Output α width) : Output α width :=
  ⟨t.done++[t.line],[],Nat.lt_of_le_of_lt (Nat.zero_le _) t.short⟩

/-- A character is appended; the last of a row also starts a new one. -/
def Output.append (t : Output α width) (a : α) : Output α width :=
  if h : (t.line++[a]).length < width then ⟨t.done,t.line++[a],h⟩
  else ⟨t.done++[t.line++[a]],[],Nat.lt_of_le_of_lt (Nat.zero_le _) t.short⟩

/-- The last character of the row is taken back. -/
def Output.erase (t : Output α width) : Output α width :=
  ⟨t.done,t.line.dropLast,by
    have := t.short
    rw [List.length_dropLast]
    omega⟩

/-- What a screen of `height` rows shows. -/
def visible (height : ℕ) (rows : List (List α)) : List (List α) := rows.drop (rows.length-height)

/-- Row `r` and column `c` of the screen. -/
def cell (height : ℕ) (blank : α) (rows : List (List α)) (r c : ℕ) : α :=
  (((visible height rows)[r]?).getD [])[c]?.getD blank

/-- The row of the screen that is being written. -/
def cursorRow (height : ℕ) (rows : List (List α)) : ℕ := (visible height rows).length-1

variable {blank : α} {rows xs : List (List α)} {l : List α} {r c : ℕ}

theorem cursorRow_eq : cursorRow height rows = min rows.length height-1 := by
  simp only [cursorRow,visible,List.length_drop]
  omega

theorem visible_get :
    (visible height rows)[r]? = rows[rows.length-height+r]? := by
  rw [visible,List.getElem?_drop]

theorem cell_empty : cell height blank [([] : List α)] r c = blank := by
  rw [cell,visible_get,List.getElem?_singleton]
  split <;> rfl

/-- Only the row being written differs when that row is replaced. -/
theorem cell_line (hh : 0 < height) (hr : r < height) :
    cell height blank (xs++[l]) r c =
      if r = cursorRow height (xs++[l]) then l[c]?.getD blank
      else (xs[xs.length+1-height+r]?.getD [])[c]?.getD blank := by
  rw [cell,visible_get,cursorRow_eq]
  simp only [List.length_append,List.length_singleton]
  split
  · next h =>
    have hidx : xs.length+1-height+r = xs.length := by omega
    rw [hidx,List.getElem?_append_right le_rfl]
    simp
  · next h =>
    congr 2
    by_cases hlt : xs.length+1-height+r < xs.length
    · rw [List.getElem?_append_left hlt]
    · rw [List.getElem?_eq_none (l:=xs) (by omega),List.getElem?_eq_none]
      simp only [List.length_append,List.length_singleton]
      omega

theorem cursorRow_line {l' : List α} : cursorRow height (xs++[l']) = cursorRow height (xs++[l]) := by
  simp [cursorRow_eq]

theorem cell_append (hh : 0 < height) (hr : r < height) (a : α) :
    cell height blank (xs++[l++[a]]) r c =
      if r = cursorRow height (xs++[l]) ∧ c = l.length then a else cell height blank (xs++[l]) r c := by
  rw [cell_line hh hr,cell_line hh hr,cursorRow_line (l:=l)]
  by_cases hrow : r = cursorRow height (xs++[l])
  · simp only [hrow,if_true,true_and]
    split
    · next hc => simp [hc]
    · next hc =>
      rcases Nat.lt_or_ge c l.length with hlt | hge
      · rw [List.getElem?_append_left hlt]
      · rw [List.getElem?_eq_none (by simp; omega),List.getElem?_eq_none hge]
  · simp [hrow]

theorem cell_erase (hh : 0 < height) (hr : r < height) :
    cell height blank (xs++[l.dropLast]) r c =
      if r = cursorRow height (xs++[l]) ∧ c+1 = l.length then blank
      else cell height blank (xs++[l]) r c := by
  rw [cell_line hh hr,cell_line hh hr,cursorRow_line (l:=l)]
  by_cases hrow : r = cursorRow height (xs++[l])
  · simp only [hrow,if_true,true_and,List.getElem?_dropLast]
    split
    · next hlt => rw [if_neg (by omega)]
    · next hge =>
      split
      · rfl
      · rw [List.getElem?_eq_none (l:=l) (by omega)]
  · simp [hrow]

/-- While there is room a new row changes nothing. -/
theorem cell_newline (hroom : rows.length < height) :
    cell height blank (rows++[[]]) r c = cell height blank rows r c := by
  rw [cell,cell,visible_get,visible_get]
  have hstart : (rows++[([] : List α)]).length-height+r = rows.length-height+r := by
    simp only [List.length_append,List.length_singleton]
    omega
  rw [hstart]
  rcases Nat.lt_or_ge (rows.length-height+r) rows.length with hlt | hge
  · rw [List.getElem?_append_left hlt]
  · rw [List.getElem?_append_right hge,List.getElem?_eq_none hge,List.getElem?_singleton]
    split <;> rfl

/-- On a full screen a new row moves the others up. -/
theorem cell_scroll (hfull : height ≤ rows.length) (hr : r < height) :
    cell height blank (rows++[[]]) r c =
      if r+1 < height then cell height blank rows (r+1) c else blank := by
  rw [cell,cell,visible_get,visible_get]
  have hstart : (rows++[([] : List α)]).length-height+r = rows.length-height+(r+1) := by
    simp only [List.length_append,List.length_singleton]
    omega
  rw [hstart]
  split
  · rw [List.getElem?_append_left (by omega)]
  · have hidx : rows.length-height+(r+1) = rows.length := by omega
    rw [hidx,List.getElem?_append_right le_rfl]
    simp

end Terminal
end DonsOs
