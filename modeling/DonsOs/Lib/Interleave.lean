import DonsOs.Lib.Run
import Mathlib.Data.Fintype.Basic

/-! Threads taking turns on one processor.
Each thread has a private state, all share one more, and a scheduler says which of them
runs.  The running thread moves by `exec`; a tick may interrupt it where its state allows
that, and changes nothing but the scheduler.  `run_threads` carries a fact about each
thread along a run, given that the steps of the others do not disturb it; `run_holder`
shows that what no thread gives up the processor in is held by the running one only. -/
namespace DonsOs
namespace Interleave

open Run

structure Machine (κ ι σ γ : Type) where
  sched : κ
  thread : ι → σ
  shared : γ

inductive Event (τ ε : Type) where
  | tick (t : τ)
  | exec (e : ε)

structure Program (κ ι σ γ τ ε : Type) where
  current : κ → Option ι
  tick : κ → τ → κ
  interruptible : σ → τ → Bool
  exec : ι → σ → γ → ε → Option (σ × γ)

variable {κ ι σ γ τ ε : Type} [DecidableEq ι] {P : Program κ ι σ γ τ ε}
  {m m' : Machine κ ι σ γ}

def Program.step (P : Program κ ι σ γ τ ε) (m : Machine κ ι σ γ) :
    Event τ ε → Option (Machine κ ι σ γ)
  | .tick t =>
    if (P.current m.sched).all fun i => P.interruptible (m.thread i) t then
      some { m with sched := P.tick m.sched t }
    else none
  | .exec e =>
    (P.current m.sched).bind fun i =>
      (P.exec i (m.thread i) m.shared e).map fun r =>
        { m with thread := Function.update m.thread i r.1, shared := r.2 }

theorem step_tick {t : τ} (h : P.step m (.tick t) = some m') :
    (∀ i, P.current m.sched = some i → P.interruptible (m.thread i) t = true) ∧
      m' = { m with sched := P.tick m.sched t } := by
  simp only [Program.step] at h
  split at h
  · rename_i hi
    refine ⟨fun i hc => ?_,(Option.some.inj h).symm⟩
    simpa [hc] using hi
  · cases h

theorem step_exec {e : ε} (h : P.step m (.exec e) = some m') :
    ∃ i s g, P.current m.sched = some i ∧ P.exec i (m.thread i) m.shared e = some (s,g) ∧
      m' = { m with thread := Function.update m.thread i s, shared := g } := by
  simp only [Program.step,Option.bind_eq_some_iff,Option.map_eq_some_iff] at h
  obtain ⟨i,hi,⟨s,g⟩,he,rfl⟩ := h
  exact ⟨i,s,g,hi,he,rfl⟩

/-- The running thread may do `e`, and `e` is clear of where each other thread stands. -/
def Undisturbed (P : Program κ ι σ γ τ ε) (ok : σ → ε → Prop) (clear : σ → ε → σ → Prop)
    (m : Machine κ ι σ γ) : Event τ ε → Prop
  | .tick _ => True
  | .exec e => ∀ i ∈ P.current m.sched,
      ok (m.thread i) e ∧ ∀ j, j ≠ i → clear (m.thread i) e (m.thread j)

instance [Fintype ι] (P : Program κ ι σ γ τ ε) (ok : σ → ε → Prop) (clear : σ → ε → σ → Prop)
    [∀ s e, Decidable (ok s e)] [∀ s e t, Decidable (clear s e t)] (m : Machine κ ι σ γ) :
    (e : Event τ ε) → Decidable (Undisturbed P ok clear m e)
  | .tick _ => isTrue trivial
  | .exec e => inferInstanceAs (Decidable (∀ i ∈ P.current m.sched,
      ok (m.thread i) e ∧ ∀ j, j ≠ i → clear (m.thread i) e (m.thread j)))

/-- A fact about each thread and the shared state that a thread's own steps keep, and that
the steps of another thread keep where they are clear of it, holds along every
undisturbed run. -/
theorem run_threads {ok : σ → ε → Prop} {clear : σ → ε → σ → Prop} (inv : ι → σ → γ → Prop)
    (own : ∀ i s g e s' g', inv i s g → ok s e → P.exec i s g e = some (s',g') → inv i s' g')
    (other : ∀ i j s t g e s' g', i ≠ j → inv i s g → inv j t g → clear s e t →
      P.exec i s g e = some (s',g') → inv j t g')
    {es : List (Event τ ε)} (h : ∀ i, inv i (m.thread i) m.shared)
    (ha : Admits P.step (Undisturbed P ok clear) m es) (hr : run P.step m es = some m') (i : ι) :
    inv i (m'.thread i) m'.shared := by
  refine run_invariant (fun m => ∀ i, inv i (m.thread i) m.shared) ?_ h ha hr i
  intro m ev m' hm hok hs j
  cases ev with
  | tick t =>
    rw [(step_tick hs).2]
    exact hm j
  | exec e =>
    obtain ⟨i,s,g,hi,he,rfl⟩ := step_exec hs
    obtain ⟨hoki,hclear⟩ := hok i hi
    by_cases hj : j = i
    · subst hj
      simpa using own j _ _ e s g (hm j) hoki he
    · simpa [hj] using other i j _ _ _ e s g (Ne.symm hj) (hm i) (hm j) (hclear j hj) he

/-- If no tick takes the processor from a thread in a state of `held`, then along the run
no thread but the running one is in such a state. -/
theorem run_holder {ok : Machine κ ι σ γ → Event τ ε → Prop} (held : σ → Prop)
    (keep : ∀ m t i, ok m (.tick t) → P.current m.sched = some i → held (m.thread i) →
      P.interruptible (m.thread i) t = true → P.current (P.tick m.sched t) = some i)
    {es : List (Event τ ε)} (h : ∀ i, held (m.thread i) → P.current m.sched = some i)
    (ha : Admits P.step ok m es) (hr : run P.step m es = some m') (i : ι)
    (hi : held (m'.thread i)) : P.current m'.sched = some i := by
  refine run_invariant (fun m => ∀ i, held (m.thread i) → P.current m.sched = some i)
    ?_ h ha hr i hi
  intro m ev m' hm hok hs j hj
  cases ev with
  | tick t =>
    obtain ⟨hint,rfl⟩ := step_tick hs
    exact keep m t j hok (hm j hj) hj (hint j (hm j hj))
  | exec e =>
    obtain ⟨i,s,g,hi,he,rfl⟩ := step_exec hs
    by_cases hji : j = i
    · rw [hji]
      exact hi
    · exact hm j (by simpa [hji] using hj)

end Interleave
end DonsOs
