import Mathlib.Data.List.Basic

/-! Logs that grow at the front.
A machine may record what it touches, newest first; `Adds P` says that everything recorded
between two moments satisfies `P`. -/
namespace DonsOs
namespace Log

variable {α : Type} {P : α → Prop} {log log' log'' : List α}

def Adds (P : α → Prop) (log log' : List α) : Prop := ∃ new, log' = new++log ∧ ∀ a ∈ new, P a

theorem Adds.refl (P : α → Prop) (log : List α) : Adds P log log := ⟨[],by simp⟩

theorem Adds.trans (h : Adds P log log') (h' : Adds P log' log'') : Adds P log log'' := by
  obtain ⟨new,hnew,hin⟩ := h
  obtain ⟨new',hnew',hin'⟩ := h'
  refine ⟨new'++new,by rw [hnew',hnew,List.append_assoc],fun a ha => ?_⟩
  rcases List.mem_append.mp ha with ha | ha
  · exact hin' a ha
  · exact hin a ha

theorem Adds.cons (h : Adds P log log') {a : α} (ha : P a) : Adds P log (a::log') := by
  obtain ⟨new,hnew,hin⟩ := h
  refine ⟨a::new,by rw [hnew,List.cons_append],fun b hb => ?_⟩
  rcases List.mem_cons.mp hb with rfl | hb
  · exact ha
  · exact hin b hb

theorem Adds.mono {Q : α → Prop} (h : Adds P log log') (hpq : ∀ a, P a → Q a) : Adds Q log log' := by
  obtain ⟨new,hnew,hin⟩ := h
  exact ⟨new,hnew,fun a ha => hpq a (hin a ha)⟩

end Log
end DonsOs
