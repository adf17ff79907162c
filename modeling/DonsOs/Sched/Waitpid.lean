import DonsOs.Sched.Ledger

/-! `sys_waitpid` against preemption.
Between the scan for zombies and the final `process_yield` the call takes four more steps
with interrupts enabled.  `process_wake_parent_if_waiting` acts only on a parent that is
already asleep, so an exit that falls into this window is never noticed. -/
namespace DonsOs
namespace Sched

open LinkedQueue Run

/-- Where a process stands after a scan that found it has to wait. -/
inductive WaitPc where
  | out
  | setBlocked (target : ℕ)
  | setKind (target : ℕ)
  | setTarget (target : ℕ)
  | yield
deriving DecidableEq

structure Waiters where
  kernel : Kernel
  pc : Slot → WaitPc

inductive WaitEvent where
  | tick (userMode : Bool)
  | create (entry : ℕ) (alloc : Alloc)
  | exec (alloc : Alloc) (loaded : Option ℕ)
  | exit
  | scan (pid : ℤ) (nohang : Bool)
  | advance

/-- The code of the current process is not between a scan and its `process_yield`. -/
def Waiters.free (w : Waiters) : Bool := w.kernel.procCurrent.all fun c => w.pc c = .out

/-- The next step of the current process inside the window. -/
def Waiters.advance (w : Waiters) (self : Slot) : Option Waiters :=
  match w.pc self with
  | .out => none
  | .setBlocked target =>
    some ⟨w.kernel.setState self .blocked,Function.update w.pc self (.setKind target)⟩
  | .setKind target =>
    some ⟨w.kernel.modify self fun c => { c with blockKind := .waitpid },
      Function.update w.pc self (.setTarget target)⟩
  | .setTarget target =>
    some ⟨w.kernel.modify self fun c => { c with waitPid := target },
      Function.update w.pc self .yield⟩
  | .yield => some ⟨processYield w.kernel,Function.update w.pc self .out⟩

/-- One step.  The window is kernel code, so a tick inside it comes from kernel mode, and
the process in it does nothing else. -/
def Waiters.step (w : Waiters) (e : WaitEvent) : Option Waiters :=
  if w.kernel.halted then none else
  match e with
  | .tick userMode =>
    if userMode ∧ w.free = false then none
    else some { w with kernel := timerPreemptHandler w.kernel userMode }
  | .create entry alloc =>
    if w.free then some { w with kernel := (processCreate w.kernel entry alloc).2 } else none
  | .exec alloc loaded =>
    if w.free then
      (w.kernel.syscall fun self => sysExec w.kernel self alloc loaded).map fun k =>
        { w with kernel := k }
    else none
  | .exit =>
    if w.free then w.kernel.procCurrent.bind fun self =>
      if w.kernel.pid self = 1 then none else some { w with kernel := processExit w.kernel }
    else none
  | .scan pid nohang =>
    if w.free then w.kernel.procCurrent.bind fun self =>
      if w.kernel.pid self = 1 ∨ w.kernel.kernelShell = some self then none else
      match waitScan w.kernel self pid nohang with
      | .returns k => some { w with kernel := k }
      | .sleeps target => some { w with pc := Function.update w.pc self (.setBlocked target) }
    else none
  | .advance => w.kernel.procCurrent.bind fun self => w.advance self

def Waiters.boot (shell : Option Slot) : Waiters := ⟨Sched.boot shell,fun _ => .out⟩

/-- Nobody sleeps in `waitpid`, off the queue, over a zombie that matches. -/
def NoLostWakeup (w : Waiters) : Prop :=
  ∀ p, w.kernel.state p = .blocked → (w.kernel.pool p).blockKind = .waitpid →
    p ∉ w.kernel.queue.walk 32 → NoZombie w.kernel p (w.kernel.pool p).waitPid

/-- No tick switches away inside the window, and all pids are within the range of the
scan. -/
def Undisturbed (w : Waiters) : WaitEvent → Prop
  | .tick _ => w.free = false → w.kernel.queue.head.all (fun peek => w.kernel.pid peek = 1) = true
  | .create _ _ | .exec _ _ => w.kernel.nextPid < 1000
  | .exit | .scan _ _ | .advance => True

/-- A tick between the scan and the first store lets the child exit unnoticed. -/
def lateExit : List WaitEvent :=
  [.create userCodeBase .ok,.tick false,.exec .ok (some userCodeBase),.scan (-1) false,
    .tick false,.exit,.advance,.advance,.advance,.advance]

variable {k : Kernel} {xs : List Slot} {w w' : Waiters}

/-- The current process may wait: it is neither idle nor the kernel shell. -/
def Waiter (k : Kernel) (c : Slot) : Prop := k.pid c ≠ 1 ∧ k.kernelShell ≠ some c

/-- What is known of the current process at each point of the window. -/
def Stage (k : Kernel) (c : Slot) : WaitPc → Prop
  | .out => True
  | .setBlocked target => Waiter k c ∧ NoZombie k c target
  | .setKind target => Waiter k c ∧ NoZombie k c target ∧ k.state c = .blocked
  | .setTarget target => Waiter k c ∧ NoZombie k c target ∧ k.state c = .blocked ∧
      (k.pool c).blockKind = .waitpid
  | .yield => Waiter k c ∧ k.state c = .blocked

structure WaitInv (w : Waiters) (xs : List Slot) : Prop where
  core : Core w.kernel xs
  away : ∀ p, w.pc p ≠ .out → w.kernel.current = some p
  stage : ∀ c, w.kernel.current = some c → Stage w.kernel c (w.pc c)

theorem WaitInv.all_out (h : WaitInv w xs) (hf : w.free = true) (p : Slot) : w.pc p = .out := by
  by_contra hp
  have hc := h.away p hp
  rw [← h.core.same] at hc
  simp [Waiters.free,hc,hp] at hf

theorem Core.waitInv (h : Core k xs) {pc : Slot → WaitPc} (hpc : ∀ p, pc p = .out) :
    WaitInv ⟨k,pc⟩ xs :=
  ⟨h,fun p hp => absurd (hpc p) hp,fun c _ => by simp only [hpc,Stage]⟩

/-- No tick gets through while the current process is in the window. -/
theorem WaitInv.tick (h : WaitInv w xs) {u : Bool} (hu : ¬(u = true ∧ w.free = false))
    (hok : Undisturbed w (.tick u)) :
    ∃ ys, WaitInv { w with kernel := timerPreemptHandler w.kernel u } ys := by
  by_cases hf : w.free = true
  · obtain ⟨ys,hy⟩ := h.core.tick u
    exact ⟨ys,hy.waitInv (h.all_out hf)⟩
  · rw [Bool.not_eq_true] at hf
    have hu' : u = false := by simpa [hf] using hu
    have he : timerPreemptHandler w.kernel u = w.kernel := by
      simp only [timerPreemptHandler]
      split
      · rfl
      · split
        · rfl
        · rw [if_pos ⟨hu',hok hf⟩]
    exact ⟨xs,by rwa [he]⟩

theorem WaitInv.stay (h : WaitInv w xs) {c : Slot} (hc : w.kernel.current = some c) {next : WaitPc}
    (hcore : Core k xs) (hcur : k.current = w.kernel.current) (hst : Stage k c next) :
    WaitInv ⟨k,Function.update w.pc c next⟩ xs := by
  refine ⟨hcore,fun p hp => ?_,fun q hq => ?_⟩
  · by_cases hpc : p = c
    · simpa only [hcur,hpc] using hc
    · simp only [Function.update_of_ne hpc] at hp
      exact hcur.trans (h.away p hp)
  · obtain rfl : c = q := Option.some.inj (hc.symm.trans (hcur.symm.trans hq))
    simpa only [Function.update_self] using hst

theorem Core.off_queue (h : Core k xs) {c : Slot} (hc : k.current = some c) (hp : k.pid c ≠ 1) :
    c ∉ xs := by
  intro hm
  have hr : k.state c = .ready := h.queued.states c hm
  rcases h.alive c hc with ha | ha | ha
  · exact hp ha.1
  · cases hr.symm.trans ha
  · cases hr.symm.trans ha

theorem Core.setBlocked (h : Core k xs) {c : Slot} (hc : k.current = some c) (hw : Waiter k c) :
    Core (k.setState c .blocked) xs := by
  have hre : Restated k (k.setState c .blocked) := by
    refine ⟨fun q => ?_,fun q hq => ?_,fun q hq => ?_,fun q hq => ?_,rfl,rfl⟩
    · by_cases hqc : q = c <;> simp [hqc]
    · by_cases hqc : q = c
      · have ha := h.alive c hc
        rw [hqc]
        rintro hu
        rw [hu] at ha
        simp at ha
      · simpa [hqc] using hq
    · by_cases hqc : q = c
      · subst hqc
        cases hk : (k.pool q).blockKind with
        | none => exact Or.inr ⟨rfl,hw.2⟩
        | waitpid =>
          have hno := h.ledger.awake q hk
          exact Or.inl (((h.alive q hc).resolve_left fun ha => hno.1 ha.2).resolve_left hno.2)
      · exact Or.inl (by simpa [hqc] using hq)
    · have hqc : q ≠ c := by
        rintro rfl
        simp at hq
      have hwq : k.state q = .ready ∨ k.state q = .running := by simpa [hqc] using hq
      cases hk : (k.pool q).blockKind with
      | none => rfl
      | waitpid => exact absurd hwq (not_or.mpr (h.ledger.awake q hk))
  refine ⟨⟨h.queued.modify fun hm => absurd hm (h.off_queue hc hw.1),fun p hp => ?_,hre.ledger h.ledger,
    hre.asleep h.asleep fun q hq => ?_⟩,h.same,fun q hq => ?_⟩
  · rw [Kernel.pid,hre.frame p]
    exact h.noIdle p hp
  · have hqc : q ≠ c := by
      rintro rfl
      simp at hq
    simpa [hqc] using hq
  · obtain rfl : c = q := Option.some.inj (hc.symm.trans hq)
    simp

/-- The sleeper `c` changes its mark or target, to one that no zombie matches. -/
theorem Core.mark (h : Core k xs) {c : Slot} (hb : k.state c = .blocked) (hw : Waiter k c)
    {target : ℕ} (hz : NoZombie k c target) :
    Core (k.modify c fun d => { d with blockKind := .waitpid, waitPid := target }) xs := by
  set k' := k.modify c fun d => { d with blockKind := .waitpid, waitPid := target } with hk'
  have hst : ∀ q, k'.state q = k.state q := fun q => by by_cases hqc : q = c <;> simp [hk',hqc]
  have hpid : ∀ q, k'.pid q = k.pid q := fun q => by by_cases hqc : q = c <;> simp [hk',hqc]
  have hzombie : ∀ q, k'.state q = .zombie → k'.pool q = k.pool q := fun q hq => by
    have hqc : q ≠ c := by
      rintro rfl
      rw [hst q,hb] at hq
      cases hq
    simp [hk',hqc]
  refine ⟨⟨h.queued.modify fun hm => absurd hm (h.queued.not_mem (by rw [hb]; decide)),
    fun p hp => ?_,
    ⟨fun p q hp hq he => ?_,fun p hp => ?_,h.ledger.range,fun p hp => ?_,fun p hp => ?_,
      fun p hp => ?_,fun p hp => ?_⟩,fun p hbp hm => ?_⟩,h.same,fun q hq => ?_⟩
  · rw [hpid p]
    exact h.noIdle p hp
  · rw [hst p] at hp
    rw [hst q] at hq
    rw [hpid p,hpid q] at he
    exact h.ledger.unique p q hp hq he
  · rw [hst p] at hp
    rw [hpid p]
    exact h.ledger.pids p hp
  · have hpc : p ≠ c := by
      rintro rfl
      simp [hk'] at hp
    simp only [hk',modify_pool,if_neg hpc] at hp ⊢
    exact h.ledger.unmarked p hp
  · rw [hst p]
    by_cases hpc : p = c
    · rw [hpc,hb]; decide
    · simp only [hk',modify_pool,if_neg hpc] at hp
      exact h.ledger.awake p hp
  · rw [hpid p] at hp
    have hpc : p ≠ c := by
      rintro rfl
      exact hw.1 hp
    simp only [hk',modify_pool,if_neg hpc]
    exact h.ledger.idle p hp
  · rw [hst p]
    exact h.ledger.shell p hp
  · by_cases hpc : p = c
    · subst hpc
      simpa [hk'] using hz.mono (hpid p) hzombie
    · rw [hst p] at hbp
      simp only [hk',modify_pool,if_neg hpc] at hm ⊢
      exact (h.asleep p hbp hm).mono (hpid p) hzombie
  · rw [hst q,hpid q]
    exact h.alive q hq

theorem WaitInv.advance (h : WaitInv w xs) {c : Slot} (hc : w.kernel.current = some c)
    (hs : w.advance c = some w') : ∃ ys, WaitInv w' ys := by
  have hst := h.stage c hc
  simp only [Waiters.advance] at hs
  cases hpc : w.pc c with
  | out =>
    rw [hpc] at hs
    cases hs
  | setBlocked target =>
    rw [hpc] at hs hst
    cases hs
    obtain ⟨hw,hz⟩ := hst
    refine ⟨xs,h.stay hc (h.core.setBlocked hc hw) rfl ⟨?_,?_,by simp⟩⟩
    · simpa [Waiter] using hw
    · refine hz.mono (by simp) fun q hq => ?_
      have hqc : q ≠ c := by
        rintro rfl
        simp at hq
      simp [hqc]
  | setKind target =>
    rw [hpc] at hs hst
    cases hs
    obtain ⟨hw,hz,hb⟩ := hst
    have hold : NoZombie w.kernel c (w.kernel.pool c).waitPid := by
      cases hk : (w.kernel.pool c).blockKind with
      | none =>
        rw [h.core.ledger.unmarked c hk]
        exact h.core.ledger.noZombie_zero c
      | waitpid => exact h.core.asleep c hb hk
    refine ⟨xs,h.stay hc (h.core.mark hb hw hold) rfl ⟨?_,?_,?_,by simp⟩⟩
    · simpa [Waiter] using hw
    · refine hz.mono (by simp) fun q hq => ?_
      by_cases hqc : q = c
      · subst hqc
        simp at hq hb
        rw [hb] at hq
        cases hq
      · simp [hqc]
    · simpa using hb
  | setTarget target =>
    rw [hpc] at hs hst
    cases hs
    obtain ⟨hw,hz,hb,hk⟩ := hst
    have he : (w.kernel.modify c fun d => { d with waitPid := target }) =
        w.kernel.modify c fun d => { d with blockKind := .waitpid, waitPid := target } := by
      simp only [Kernel.modify,← hk]
    rw [he]
    exact ⟨xs,h.stay hc (h.core.mark hb hw hz) rfl ⟨by simpa [Waiter] using hw,by simpa using hb⟩⟩
  | yield =>
    rw [hpc] at hs hst
    cases hs
    obtain ⟨ys,hy⟩ := h.core.yield hc hst.1.1 hst.2
    refine ⟨ys,hy.waitInv fun p => ?_⟩
    by_cases hp : p = c
    · simp [hp]
    · rw [Function.update_of_ne hp]
      by_contra hout
      exact hp (Option.some.inj ((h.away p hout).symm.trans hc))

theorem WaitInv.scan (h : WaitInv w xs) (hf : w.free = true) {self : Slot}
    (hself : w.kernel.procCurrent = some self)
    (hw : Waiter w.kernel self) {pid : ℤ} {nohang : Bool}
    (hs : (match waitScan w.kernel self pid nohang with
      | .returns k => some { w with kernel := k }
      | .sleeps target => some { w with pc := Function.update w.pc self (.setBlocked target) }) =
        some w') : ∃ ys, WaitInv w' ys := by
  rcases waitScan_cases w.kernel self pid nohang with he | ⟨z,hz,he⟩ | ⟨⟨live,hl⟩,he⟩ <;>
    simp only [he,Option.some.injEq] at hs <;> subst hs
  · exact ⟨xs,h⟩
  · exact ⟨xs,(h.core.reclaim hz).waitInv (h.all_out hf)⟩
  · exact ⟨xs,h.stay (h.core.same.symm.trans hself) h.core rfl ⟨hw,h.core.ledger.scanned hl⟩⟩

theorem WaitInv.step {e : WaitEvent} (h : WaitInv w xs) (hok : Undisturbed w e)
    (hs : w.step e = some w') : ∃ ys, WaitInv w' ys := by
  simp only [Waiters.step] at hs
  split at hs
  · cases hs
  cases e with
  | tick u =>
    simp only at hs
    split at hs
    · cases hs
    · rename_i hu
      cases hs
      exact h.tick hu hok
  | create entry alloc =>
    simp only at hs
    split at hs
    · rename_i hf
      cases hs
      obtain ⟨ys,hy⟩ := h.core.create hok entry alloc
      exact ⟨ys,hy.waitInv (h.all_out hf)⟩
    · cases hs
  | exec alloc loaded =>
    simp only at hs
    split at hs
    · rename_i hf
      obtain ⟨k',hk,rfl⟩ := Option.map_eq_some_iff.mp hs
      obtain ⟨self,hself,-,rfl⟩ := syscall_some hk
      obtain ⟨ys,hy⟩ := h.core.exec hok hself alloc loaded
      exact ⟨ys,hy.waitInv (h.all_out hf)⟩
    · cases hs
  | exit =>
    simp only at hs
    split at hs
    · rename_i hf
      obtain ⟨self,hself,hs⟩ := Option.bind_eq_some_iff.mp hs
      split at hs
      · cases hs
      · cases hs
        obtain ⟨ys,hy⟩ := h.core.exit (h.core.same.symm.trans hself)
        exact ⟨ys,hy.waitInv (h.all_out hf)⟩
    · cases hs
  | scan pid nohang =>
    simp only at hs
    split at hs
    · rename_i hf
      obtain ⟨self,hself,hs⟩ := Option.bind_eq_some_iff.mp hs
      split at hs
      · cases hs
      · rename_i hw
        exact h.scan hf hself (not_or.mp hw) hs
    · cases hs
  | advance =>
    obtain ⟨self,hself,hs⟩ := Option.bind_eq_some_iff.mp hs
    exact h.advance (h.core.same.symm.trans hself) hs

theorem boot_waitInv (shell : Option Slot) : WaitInv (Waiters.boot shell) [] := by
  have hpool : ∀ p, (boot shell).pool p =
      if p = 0 then ⟨1,.ready,.none,0,0,kernelBase⟩ else ⟨0,.unused,.none,0,0,0⟩ := fun _ => rfl
  have hused : ∀ p, (boot shell).state p ≠ .unused → p = 0 := fun p hp => by
    by_contra hp0
    simp [hpool,hp0] at hp
  have hkind : ∀ p, ((boot shell).pool p).blockKind = .none ∧ ((boot shell).pool p).waitPid = 0 ∧
      (boot shell).state p ≠ .blocked := fun p => by by_cases hp : p = 0 <;> simp [hpool,hp]
  refine Core.waitInv ⟨⟨boot_queued IsReady shell,by simp,
    ⟨fun p q hp hq _ => (hused p hp).trans (hused q hq).symm,fun p hp => ?_,
      ⟨le_rfl,Nat.le_of_ble_eq_true rfl⟩,fun p _ => (hkind p).2.1,fun p hp => ?_,fun p _ => (hkind p).1,fun p _ => (hkind p).2.2⟩,
    fun p hb _ => absurd hb (hkind p).2.2⟩,rfl,fun c hc => ?_⟩ fun _ => rfl
  · rw [hused p hp]
    exact ⟨Nat.one_pos,Nat.lt_succ_self 1⟩
  · cases (hkind p).1.symm.trans hp
  · obtain rfl : 0 = c := Option.some.inj hc
    exact Or.inl ⟨rfl,rfl⟩

instance (w : Waiters) : (e : WaitEvent) → Decidable (Undisturbed w e)
  | .tick _ => inferInstanceAs (Decidable (w.free = false →
      w.kernel.queue.head.all (fun peek => w.kernel.pid peek = 1) = true))
  | .create _ _ | .exec _ _ => inferInstanceAs (Decidable (w.kernel.nextPid < 1000))
  | .exit | .scan _ _ | .advance => isTrue trivial

/-- The same run with the tick after the window. -/
def timelyExit : List WaitEvent :=
  [.create userCodeBase .ok,.tick false,.exec .ok (some userCodeBase),.scan (-1) false,
    .advance,.advance,.advance,.advance,.exit]

end Sched
end DonsOs
