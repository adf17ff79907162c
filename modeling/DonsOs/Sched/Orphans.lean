import DonsOs.Sched.Effect

/-! Zombies and their parents.
`process_exit` neither hands the children of the exiting process to another parent nor frees
them, so a zombie can be reaped only as long as no process exits before its children. -/
namespace DonsOs
namespace Sched

open Run

variable {k k' : Kernel} {exits : Prop} {p r : Slot}

/-- Every process that names a parent has a live one, and every zombie names one. -/
structure Kin (k : Kernel) : Prop where
  parents : ∀ p, k.state p ≠ .unused → (k.pool p).parentPid ≠ 0 →
    ∃ q, Live (k.state q) ∧ k.pid q = (k.pool p).parentPid
  zombies : ∀ p, k.state p = .zombie → (k.pool p).parentPid ≠ 0

/-- A live process survives every event but its own exit. -/
theorem Effect.survives (h : Effect exits k k' p) (hl : Live (k.state r))
    (hx : exits → k.current ≠ some r) : Follows k k' r := by
  by_cases hr : r = p
  · subst hr
    cases h.fate with
    | follows hf _ => exact hf
    | born hu _ _ _ _ => exact absurd hu hl.used
    | freed hu _ _ => rcases hu with hu | hu <;> simp [Live,hu] at hl
    | exited he hc _ _ _ _ => exact absurd hc (hx he)
    | zombie he hc _ _ _ _ _ _ => exact absurd hc (hx he)
  · exact h.others r hr

/-- The exiting process is nobody's parent. -/
def Childless (k : Kernel) (exits : Prop) : Prop :=
  exits → ∀ c, k.current = some c → ∀ q, k.state q ≠ .unused → (k.pool q).parentPid ≠ k.pid c

theorem Effect.parent (h : Effect exits k k' p) (hk : Kin k) (hx : Childless k exits)
    (hu : k.state r ≠ .unused) (hpar : (k.pool r).parentPid ≠ 0) :
    ∃ q, Live (k'.state q) ∧ k'.pid q = (k.pool r).parentPid := by
  obtain ⟨q,hl,hq⟩ := hk.parents r hu hpar
  have hf := h.survives hl fun he hc => hx he q hc r hu hq.symm
  exact ⟨q,hf.live.mpr hl,hf.pid.trans hq⟩

theorem Effect.kin (h : Effect exits k k' p) (hk : Kin k) (hx : Childless k exits)
    (hcur : ∀ c, k.current = some c → Live (k.state c)) : Kin k' where
  parents q hu hpar := by
    by_cases hq : q = p
    · subst hq
      cases h.fate with
      | follows hf _ =>
        rw [hf.parentPid] at hpar ⊢
        exact h.parent hk hx (hf.used.mp hu) hpar
      | born hfree _ _ hpar' _ =>
        obtain ⟨self,hself,heq⟩ := hpar'.resolve_left hpar
        have hl := hcur self hself
        have hne : self ≠ q := fun e => hl.used (e ▸ hfree)
        exact ⟨self,(h.others self hne).live.mpr hl,(h.others self hne).pid.trans heq.symm⟩
      | freed _ hu' _ => exact absurd hu' hu
      | exited _ _ _ _ hu' _ => exact absurd hu' hu
      | zombie _ _ hl hpar' _ heq _ _ =>
        rw [heq]
        exact h.parent hk hx hl.used hpar'
    · have hf := h.others q hq
      rw [hf.parentPid] at hpar ⊢
      exact h.parent hk hx (hf.used.mp hu) hpar
  zombies q hz := by
    have hdead (hf : Follows k k' q) : (k'.pool q).parentPid ≠ 0 := by
      rw [hf.parentPid]
      refine hk.zombies q ?_
      rcases hf.state with he | ⟨-,hl⟩
      · rw [← he,hz]
      · simp [Live,hz] at hl
    by_cases hq : q = p
    · subst hq
      cases h.fate with
      | follows hf _ => exact hdead hf
      | born _ hl _ _ _ => simp [Live,hz] at hl
      | freed _ hu' _ => simp [hu'] at hz
      | exited _ _ _ _ hu' _ => simp [hu'] at hz
      | zombie _ _ _ hpar _ heq _ _ => rwa [heq]
    · exact hdead (h.others q hq)

/-- The events of runs without orphans: the queue is used in order, and no process exits
while another names it as its parent. -/
def Attended (k : Kernel) (e : Event) : Prop :=
  Orderly k e ∧ ToLive k e ∧ Childless k (e = .exit)

instance (k : Kernel) : (e : Event) → Decidable (Childless k (e = .exit))
  | .exit => decidable_of_iff (∀ c, k.current = some c → ∀ q, k.state q ≠ .unused →
      (k.pool q).parentPid ≠ k.pid c) ⟨fun h _ => h,fun h => h rfl⟩
  | .tick _ | .key | .create _ _ | .exec _ _ | .read | .waitpid _ _ | .yield | .switchTo _ | .block =>
    isTrue fun h => nomatch h

instance (k : Kernel) (e : Event) : Decidable (Attended k e) :=
  inferInstanceAs (Decidable (_ ∧ _))

/-- The parent of the zombie `z` is still there to reap it. -/
def Reapable (k : Kernel) (z : Slot) : Prop :=
  ∃ q, k.pid q = (k.pool z).parentPid ∧ k.state q ≠ .unused ∧ k.state q ≠ .zombie

instance (k : Kernel) (z : Slot) : Decidable (Reapable k z) :=
  inferInstanceAs (Decidable (∃ _, _))

/-- Of two processes the first spawns a child and exits; the child exits while the second
goes on. -/
def parentFirst : List Event :=
  [.create userCodeBase .ok,.create userCodeBase .ok,.tick false,
    .exec .ok (some userCodeBase),.exit,.tick true,.exit]

theorem parent_first_leaves_zombie :
    ∃ k, run Kernel.step (boot none) parentFirst = some k ∧ k.halted = false ∧
      ∃ z, k.state z = .zombie ∧ ¬Reapable k z := by
  have hfacts : (run Kernel.step (boot none) parentFirst).map (fun k =>
      decide (k.halted = false ∧ k.state 3 = .zombie ∧ ¬Reapable k 3)) = some true := by
    decide +kernel
  obtain ⟨k,hk,hf⟩ := Option.map_eq_some_iff.mp hfacts
  obtain ⟨hh,hz,hr⟩ := of_decide_eq_true hf
  exact ⟨k,hk,hh,3,hz,hr⟩

/-- In every run in which no process exits before its children, every zombie is reapable in
the state reached. -/
theorem zombies_reapable (shell : Option Slot) {es : List Event} {k : Kernel}
    (hes : Admits Kernel.step Attended (boot shell) es)
    (hrun : run Kernel.step (boot shell) es = some k) (z : Slot) (hz : k.state z = .zombie) :
    Reapable k z := by
  have hboot : Kin (boot shell) := by
    constructor
    · intro p _ hpar
      by_cases hp : p = 0 <;> simp [boot,hp] at hpar
    · intro p hp
      by_cases h0 : p = 0 <;> simp [boot,h0] at hp
  obtain ⟨xs,-,hkin⟩ := run_invariant (fun k => ∃ xs, Sane MayWait k xs ∧ Kin k)
    (fun k e k' hinv hok hstep => by
      obtain ⟨xs,hs,hk⟩ := hinv
      obtain ⟨p,ys,heff,hs'⟩ := hs.step hok.1 hok.2.1 hstep
      exact ⟨ys,hs',heff.kin hk hok.2.2 hs.current⟩)
    ⟨[],boot_sane MayWait shell,hboot⟩ hes hrun
  obtain ⟨q,hl,hq⟩ := hkin.parents z (by rw [hz]; decide) (hkin.zombies z hz)
  refine ⟨q,hq,hl.used,?_⟩
  rintro he
  simp [Live,he] at hl

/-- The child exits first and waits for its parent. -/
theorem zombies_reapable_child_first :
    ∃ k, run Kernel.step (boot none) [.create userCodeBase .ok,.tick false,
        .exec .ok (some userCodeBase),.tick true,.exit] = some k ∧
      k.state 2 = .zombie ∧ Reapable k 2 := by
  have hes : Admits Kernel.step Attended (boot none) [.create userCodeBase .ok,.tick false,
      .exec .ok (some userCodeBase),.tick true,.exit] := by decide +kernel
  have hz : (run Kernel.step (boot none) [.create userCodeBase .ok,.tick false,
      .exec .ok (some userCodeBase),.tick true,.exit]).map (fun k => k.state 2) = some .zombie := by
    decide +kernel
  obtain ⟨k,hk,hz⟩ := Option.map_eq_some_iff.mp hz
  exact ⟨k,hk,hz,zombies_reapable none hes hk 2 hz⟩

end Sched
end DonsOs
