import Mathlib.Data.BitVec
import Mathlib.Data.Nat.Count
import Mathlib.Tactic

/-! Counters of a labelled population.
The members are the numbers below `n`, each with a label.  A table of 64-bit counters is kept
beside the labels: whoever changes the label of a member takes one from the counter of the old
label and adds one to that of the new one.  The counters wrap, so nothing has to be shown about
their order. -/
namespace DonsOs
namespace Census

variable {κ : Type} [DecidableEq κ] {n i : ℕ} {label : ℕ → κ} {counts : κ → BitVec 64} {k : κ}

/-- The number of members with the label `k`. -/
def tally (n : ℕ) (label : ℕ → κ) (k : κ) : ℕ := Nat.count (fun i => label i = k) n

theorem tally_le : tally n label k ≤ n := Nat.count_le _

theorem tally_const_of_ne {l : κ} (h : l ≠ k) : tally n (fun _ => l) k = 0 := by
  simp [tally,h]

theorem tally_congr {label' : ℕ → κ} (h : ∀ i < n, label' i = label i) :
    tally n label' k = tally n label k := by
  induction n with
  | zero => rfl
  | succ n ih =>
    have hrest := ih fun i hi => h i (by omega)
    simp only [tally] at hrest
    simp only [tally,Nat.count_succ,hrest,h n (by omega)]

/-- A member that changes its label leaves one group and enters another. -/
theorem tally_update (hi : i < n) (l : κ) :
    tally n (Function.update label i l) k+(if label i = k then 1 else 0) =
      tally n label k+(if l = k then 1 else 0) := by
  induction n with
  | zero => omega
  | succ n ih =>
    simp only [tally,Nat.count_succ] at ih ⊢
    by_cases hn : i = n
    · subst hn
      have hrest : tally i (Function.update label i l) k = tally i label k :=
        tally_congr fun j hj => Function.update_of_ne (by omega) _ _
      simp only [tally] at hrest
      rw [hrest,Function.update_self]
      omega
    · have hlt := ih (by omega)
      rw [Function.update_of_ne (show n ≠ i by omega)]
      omega

/-! Counters. -/

/-- The counters after one member went from label `old` to label `new`. -/
def recount (counts : κ → BitVec 64) (old new : κ) : κ → BitVec 64 :=
  let counts := Function.update counts old (counts old-1)
  Function.update counts new (counts new+1)

theorem recount_apply (old new : κ) : recount counts old new k =
    counts k-(if old = k then 1 else 0)+(if new = k then 1 else 0) := by
  simp only [recount,Function.update_apply]
  by_cases ho : old = k
  · subst ho
    by_cases hn : new = old
    · simp [hn]
    · simp [hn,Ne.symm hn]
  · by_cases hn : new = k
    · subst hn
      simp [Ne.symm ho,ho]
    · simp [Ne.symm ho,Ne.symm hn,ho,hn]

/-- The counters of the labels that `P` selects are right. -/
def Counts (P : κ → Prop) (n : ℕ) (label : ℕ → κ) (counts : κ → BitVec 64) : Prop :=
  ∀ k, P k → counts k = BitVec.ofNat 64 (tally n label k)

theorem Counts.relabel {P : κ → Prop} (h : Counts P n label counts) (hi : i < n) {l : κ}
    {counts' : κ → BitVec 64} (hc : ∀ k, P k → counts' k = recount counts (label i) l k) :
    Counts P n (Function.update label i l) counts' := by
  intro k hk
  have hmove : tally n (Function.update label i l) k+(if label i = k then 1 else 0) =
      tally n label k+(if l = k then 1 else 0) := tally_update hi l
  have hsum := congrArg (BitVec.ofNat 64) hmove
  have hone : ∀ p : Prop, [Decidable p] → BitVec.ofNat 64 (if p then 1 else 0) = if p then 1 else 0 :=
    fun p _ => apply_ite _ _ _ _
  rw [BitVec.ofNat_add,BitVec.ofNat_add,hone,hone] at hsum
  rw [hc k hk,recount_apply,h k hk,sub_add_eq_add_sub,← hsum,add_sub_cancel_right]

end Census
end DonsOs
