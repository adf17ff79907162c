import Mathlib.Data.List.Basic

/-! Machines that answer.
A machine takes operations one at a time and answers each of them.  One machine refines
another when related states answer alike and stay related; then they answer alike for ever. -/
namespace DonsOs
namespace Refine

variable {σ τ ε β : Type}

/-- The answers to a list of operations, and the state they lead to. -/
def perform (step : σ → ε → β × σ) : σ → List ε → List β × σ
  | s, [] => ([],s)
  | s, e::es => ((step s e).1::(perform step (step s e).2 es).1,(perform step (step s e).2 es).2)

/-- Every operation meets `ok` in the state in which it arrives. -/
def Meets (step : σ → ε → β × σ) (ok : σ → ε → Prop) : σ → List ε → Prop
  | _, [] => True
  | s, e::es => ok s e ∧ Meets step ok (step s e).2 es

/-- `step` answers as `spec` does on the operations that `ok` allows there, and `rel` is kept. -/
def Refines (step : σ → ε → β × σ) (spec : τ → ε → β × τ) (ok : τ → ε → Prop)
    (rel : σ → τ → Prop) : Prop :=
  ∀ s t e, rel s t → ok t e → (step s e).1 = (spec t e).1 ∧ rel (step s e).2 (spec t e).2

variable {step : σ → ε → β × σ} {spec : τ → ε → β × τ} {ok : τ → ε → Prop} {rel : σ → τ → Prop}

theorem meets_of_mem {es : List ε} (h : ∀ e ∈ es, ∀ t, ok t e) {t : τ} : Meets spec ok t es := by
  induction es generalizing t with
  | nil => trivial
  | cons e es ih => exact ⟨h e (by simp) t,ih fun e he => h e (by simp [he])⟩

theorem meets_of_forall (h : ∀ t e, ok t e) (t : τ) (es : List ε) : Meets spec ok t es :=
  meets_of_mem fun e _ t => h t e

theorem Refines.perform (h : Refines step spec ok rel) {s : σ} {t : τ} {es : List ε} (hs : rel s t)
    (hok : Meets spec ok t es) :
    (perform step s es).1 = (perform spec t es).1 ∧
      rel (perform step s es).2 (perform spec t es).2 := by
  induction es generalizing s t with
  | nil => exact ⟨rfl,hs⟩
  | cons e es ih =>
    obtain ⟨hanswer,hrel⟩ := h s t e hs hok.1
    obtain ⟨hanswers,hend⟩ := ih hrel hok.2
    exact ⟨by simp only [Refine.perform,hanswer,hanswers],hend⟩

end Refine
end DonsOs
