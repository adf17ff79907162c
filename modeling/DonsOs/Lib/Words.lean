import Mathlib.Data.List.Basic

/-! The words of a line.
A word is a maximal run of characters none of which is a blank; `words` lists them in their
order.  The lemmas take a line apart from the left, as a scanner does. -/
namespace DonsOs
namespace Words

variable {α : Type} {blank : α → Bool}

def words (blank : α → Bool) (line : List α) : List (List α) :=
  (line.splitOnP blank).filter fun w => !w.isEmpty

theorem words_nil : words blank ([] : List α) = [] := by
  simp [words,List.splitOnP_nil]

theorem words_blank {c : α} (hc : blank c = true) (cs : List α) :
    words blank (c::cs) = words blank cs := by
  have hsplit := List.splitOnP_append_cons (p:=blank) [] cs hc
  simp only [List.nil_append] at hsplit
  simp [words,hsplit,List.splitOnP_nil]

theorem words_dropWhile (cs : List α) : words blank (cs.dropWhile blank) = words blank cs := by
  induction cs with
  | nil => rfl
  | cons c cs ih =>
    cases hc : blank c with
    | true => rw [List.dropWhile_cons_of_pos hc,ih,words_blank hc]
    | false => rw [List.dropWhile_cons_of_neg (by simp [hc])]

theorem words_last {w : List α} (hne : w ≠ []) (hw : ∀ c ∈ w, blank c = false) :
    words blank w = [w] := by
  simp [words,List.splitOnP_eq_singleton hw,hne]

theorem words_first {w : List α} (hne : w ≠ []) (hw : ∀ c ∈ w, blank c = false) {s : α}
    (hs : blank s = true) (cs : List α) : words blank (w++s::cs) = w::words blank cs := by
  simp [words,List.splitOnP_append_cons_of_forall_mem hw s hs cs,hne]

end Words
end DonsOs
