import DonsOs.Cpu.Transparent

/-! What a process finds when it is resumed.
The frames of `irq0_stub` and `context_switch` bring back the registers.  The segment bases
and the SSE registers are in no frame and nothing else saves them: `wrmsr` in
`sys_arch_set_fs` and the instructions that `kmain` enables for user code write to state
that all processes share. -/
namespace DonsOs
namespace Cpu

open Sched Stack Run

variable {L : Layout} {m m' : Machine}

/-- Process 1 sets its FS base to 1, process 2 sets its own to 2, and process 1 is resumed. -/
def bothSetFs : List Event :=
  let user := initialFrame 0 userStackTop userCodeBase 0 0
  twoUsers++[.tick [],.run user [] [(.fsBase,1)],.tick [],.run user [] [(.fsBase,2)],.tick []]

/-- A process gives a part a value only if every other process that has set the part gave it
the same value. -/
def Agreed (m : Machine) : Event → Prop
  | .run _ _ parts => ∀ c ∈ m.kernel.procCurrent, ∀ s ∈ parts, ∀ p, p ≠ c →
      ∀ u ∈ m.given p s.1, u = s.2
  | _ => True

instance (m : Machine) : (e : Event) → Decidable (Agreed m e)
  | .run _ _ parts => inferInstanceAs (Decidable (∀ c ∈ m.kernel.procCurrent, ∀ s ∈ parts, ∀ p, p ≠ c →
      ∀ u ∈ m.given p s.1, u = s.2))
  | .tick _ | .block _ | .wake _ | .create .. => isTrue trivial

/-- Each part has the value that each process which has set it last gave it. -/
def Kept (m : Machine) : Prop := ∀ p x v, m.given p x = some v → m.parts x = v

theorem setAll_own {x : Part} {v : ℕ} (sets : List (Part × ℕ)) {g : Part → Option ℕ} {f : Part → ℕ}
    (h : ∀ v, g x = some v → f x = v) (hv : setAll some sets g x = some v) :
    setAll id sets f x = v := by
  induction sets generalizing g f with
  | nil => exact h v hv
  | cons s sets ih =>
    refine ih (fun u hu => ?_) hv
    by_cases hx : x = s.1
    · subst hx
      simpa using hu
    · simp only [Function.update_of_ne hx] at hu ⊢
      exact h u hu

theorem setAll_agreed {x : Part} {v : ℕ} {sets : List (Part × ℕ)} {f : Part → ℕ} (h : f x = v)
    (hs : ∀ s ∈ sets, s.1 = x → v = s.2) : setAll id sets f x = v := by
  induction sets generalizing f with
  | nil => exact h
  | cons s sets ih =>
    refine ih ?_ fun t ht => hs t (List.mem_cons_of_mem s ht)
    by_cases hx : x = s.1
    · subst hx
      simpa using (hs s List.mem_cons_self rfl).symm
    · rw [Function.update_of_ne hx]
      exact h

/-! No switch touches the parts. -/

theorem handler_parts (m : Machine) (userMode : Bool) (sp : ℕ) :
    (timerPreemptHandler m userMode sp).1.parts = m.parts ∧
      (timerPreemptHandler m userMode sp).1.given = m.given := by
  unfold timerPreemptHandler
  split
  · exact ⟨rfl,rfl⟩
  · dsimp only
    split
    · exact ⟨rfl,rfl⟩
    · split
      · exact ⟨rfl,rfl⟩
      · split <;> exact ⟨rfl,rfl⟩

theorem block_parts {self : Slot} {target : ℕ} (h : block m self target = some m') :
    m'.parts = m.parts ∧ m'.given = m.given := by
  simp only [block,contextSwitch,saving] at h
  split at h
  · cases h
  · split at h
    · cases h
      exact ⟨rfl,rfl⟩
    · split at h <;> cases h
      exact ⟨rfl,rfl⟩

theorem create_parts (entry rdi rsi cr3 : ℕ) : (create L m entry rdi rsi cr3).parts = m.parts ∧
    ∀ p x v, (create L m entry rdi rsi cr3).given p x = some v → m.given p x = some v := by
  unfold create
  split
  · exact ⟨rfl,fun _ _ _ h => h⟩
  · split
    · exact ⟨rfl,fun _ _ _ h => h⟩
    · rename_i q k _
      refine ⟨rfl,fun p x v h => ?_⟩
      by_cases hp : p = q
      · subst hp
        simp at h
      · simpa [hp] using h

theorem Kept.step (h : Kept m) {e : Event} (hok : Agreed m e) (hs : m.step L e = some m') : Kept m' := by
  simp only [Machine.step,Option.bind_eq_some_iff] at hs
  obtain ⟨c,hc,hs⟩ := hs
  intro p x v hv
  cases e with
  | run regs stores parts =>
    simp only at hs
    split at hs <;> cases hs
    by_cases hp : p = c
    · subst hp
      exact setAll_own parts (h p x) (by simpa using hv)
    · have hgiven : m.given p x = some v := by simpa [hp] using hv
      exact setAll_agreed (h p x v hgiven) fun s hs he => hok c hc s hs p hp v (he ▸ hgiven)
  | tick scratch =>
    simp only at hs
    split at hs <;> cases hs
    obtain ⟨hparts,hgiven⟩ := handler_parts (interrupted m scratch) (m.regs .cs % 4 = 3)
      (interruptTop m-160)
    exact (congrFun hparts x).trans (h p x v ((congrFun₂ hgiven p x).symm.trans hv))
  | block target =>
    simp only at hs
    split at hs
    · obtain ⟨hparts,hgiven⟩ := block_parts hs
      rw [hparts]
      exact h p x v (hgiven ▸ hv)
    · cases hs
  | wake q =>
    simp only at hs
    split at hs <;> cases hs
    exact h p x v hv
  | create entry rdi rsi cr3 =>
    simp only at hs
    split at hs <;> cases hs
    obtain ⟨hparts,hgiven⟩ := create_parts (L := L) (m := m) entry rdi rsi cr3
    rw [hparts]
    exact h p x v (hgiven p x v hv)

/-- Both processes set their FS base to 1. -/
def sameFs : List Event :=
  let user := initialFrame 0 userStackTop userCodeBase 0 0
  twoUsers++[.tick [],.run user [] [(.fsBase,1)],.tick [],.run user [] [(.fsBase,1)]]

end Cpu
end DonsOs
