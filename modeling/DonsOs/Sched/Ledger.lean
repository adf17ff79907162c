import DonsOs.Sched.Dispatch

/-! The process table as `sys_waitpid` relies on it.
Pids in use are distinct, so the scan by pid sees every child and the exit of a child
finds the parent that waits for it.  `Core` is kept by every scheduling function the
waiters use; it says that no sleeper overlooks a zombie. -/
namespace DonsOs
namespace Sched

open LinkedQueue Run

/-- No zombie child of `p` matches the target. -/
def NoZombie (k : Kernel) (p : Slot) (target : ℕ) : Prop :=
  ∀ c, k.state c = .zombie → (k.pool c).parentPid = k.pid p →
    target ≠ anyChild ∧ target ≠ k.pid c

/-- Pids in use are distinct and within the range of the scan; only a process that is
asleep or gone is marked as waiting, and the kernel shell is never asleep. -/
structure Ledger (k : Kernel) : Prop where
  unique : ∀ p q, k.state p ≠ .unused → k.state q ≠ .unused → k.pid p = k.pid q → p = q
  pids : ∀ p, k.state p ≠ .unused → 0 < k.pid p ∧ k.pid p < k.nextPid
  range : 2 ≤ k.nextPid ∧ k.nextPid ≤ 1000
  unmarked : ∀ p, (k.pool p).blockKind = .none → (k.pool p).waitPid = 0
  awake : ∀ p, (k.pool p).blockKind = .waitpid → k.state p ≠ .ready ∧ k.state p ≠ .running
  idle : ∀ p, k.pid p = 1 → (k.pool p).blockKind = .none
  shell : ∀ p, k.kernelShell = some p → k.state p ≠ .blocked

def Asleep (k : Kernel) : Prop :=
  ∀ p, k.state p = .blocked → (k.pool p).blockKind = .waitpid → NoZombie k p (k.pool p).waitPid

variable {k k' : Kernel} {xs : List Slot}

variable {p next c : Slot} {ys : List Slot}

theorem NoZombie.mono {target : ℕ} (h : NoZombie k p target) (hpid : k'.pid p = k.pid p)
    (hz : ∀ c, k'.state c = .zombie → k'.pool c = k.pool c) : NoZombie k' p target := by
  intro c hc hpar
  have he := hz c hc
  simp only [Kernel.pid,Kernel.state,he] at hc hpar hpid ⊢
  exact h c hc (hpar.trans hpid)

/-- Target 0 stands for no child. -/
theorem Ledger.noZombie_zero (h : Ledger k) (p : Slot) : NoZombie k p 0 := by
  intro c hc _
  have hpos := (h.pids c (by rw [hc]; decide)).1
  exact ⟨by decide,by omega⟩

theorem Ledger.find (h : Ledger k) (hp : k.state p ≠ .unused) :
    processFindByPid k (k.pid p) = some p :=
  findByPid_of_unique hp fun q hq => h.unique q p hq hp

theorem Ledger.scanned (h : Ledger k) {self : Slot} {target : ℕ} {b : Bool}
    (hs : scanChildren k self target (List.range' 1 999) false = (none,b)) :
    NoZombie k self target := by
  intro c hc hpar
  have hu : k.state c ≠ .unused := by rw [hc]; decide
  have hpid := h.pids c hu
  have hrange := h.range
  by_contra hno
  have ht : target = anyChild ∨ k.pid c = target := by
    by_contra ht
    exact hno ⟨fun e => ht (Or.inl e),fun e => ht (Or.inr e.symm)⟩
  exact (scanChildren_none (fun d hd _ => h.find hd) hs).1 c ⟨hu,hpar,ht⟩
    (List.mem_range'_1.mpr (by omega)) hc

/-- Only states change, and nobody falls asleep marked or wakes up marked. -/
structure Restated (k k' : Kernel) : Prop where
  frame : ∀ q, k'.pool q = { k.pool q with state := k'.state q }
  used : ∀ q, k'.state q ≠ .unused → k.state q ≠ .unused
  slept : ∀ q, k'.state q = .blocked → k.state q = .blocked ∨
    (k.pool q).blockKind = .none ∧ k.kernelShell ≠ some q
  woken : ∀ q, k'.state q = .ready ∨ k'.state q = .running → (k.pool q).blockKind = .none
  nextPid : k'.nextPid = k.nextPid
  kernelShell : k'.kernelShell = k.kernelShell

theorem Restated.ledger (h : Restated k k') (hl : Ledger k) : Ledger k' where
  unique p q hp hq he := by
    simp only [Kernel.pid,h.frame p,h.frame q] at he
    exact hl.unique p q (h.used p hp) (h.used q hq) he
  pids p hp := by
    rw [Kernel.pid,h.frame p,h.nextPid]
    exact hl.pids p (h.used p hp)
  range := by rw [h.nextPid]; exact hl.range
  unmarked p hp := by
    rw [h.frame p] at hp ⊢
    exact hl.unmarked p hp
  awake p hp := by
    rw [h.frame p] at hp
    exact not_or.mp fun hr => by cases (h.woken p hr).symm.trans hp
  idle p hp := by
    rw [Kernel.pid,h.frame p] at hp
    rw [h.frame p]
    exact hl.idle p hp
  shell p hp hb := by
    rw [h.kernelShell] at hp
    rcases h.slept p hb with hs | ⟨-,hs⟩
    · exact hl.shell p hp hs
    · exact hs hp

theorem Restated.asleep (h : Restated k k') (ha : Asleep k)
    (hz : ∀ q, k'.state q = .zombie → k.state q = .zombie) : Asleep k' := by
  intro p hb hm
  have hpid : k'.pid p = k.pid p := by rw [Kernel.pid,h.frame p]
  rw [h.frame p] at hm ⊢
  rcases h.slept p hb with hs | ⟨hs,-⟩
  · refine (ha p hs hm).mono hpid fun c hc => ?_
    rw [h.frame c,hc,← hz c hc]
  · rw [hs] at hm
    cases hm

theorem Switched.restated (h : Switched k k' next ys)
    (hl : Ledger k) (hnext : (k.pool next).blockKind = .none) (hu : k.state next ≠ .unused) :
    Restated k k' where
  frame := h.frame
  used q hq := by
    by_cases hqn : q = next
    · rwa [hqn]
    · rcases h.states q hqn with he | ⟨-,he⟩
      · rwa [← he]
      · rw [he]; decide
  slept q hq := by
    have hqn : q ≠ next := by
      rintro rfl
      rw [h.running] at hq
      cases hq
    rcases h.states q hqn with he | ⟨he,-⟩
    · exact Or.inl (he.symm.trans hq)
    · rw [he] at hq
      cases hq
  woken q hq := by
    by_cases hqn : q = next
    · rwa [hqn]
    · have hw : k.state q = .ready ∨ k.state q = .running := by
        rcases h.states q hqn with he | ⟨-,he⟩
        · rwa [← he]
        · exact Or.inr he
      cases hk : (k.pool q).blockKind with
      | none => rfl
      | waitpid => exact absurd hw (not_or.mpr (hl.awake q hk))
  nextPid := h.nextPid
  kernelShell := h.kernelShell

/-- A slot that is unused before or after, and no zombie, is written. -/
structure Refilled (k k' : Kernel) (p : Slot) : Prop where
  frame : ∀ q, q ≠ p → k'.pool q = k.pool q
  pcb : k'.state p = .unused ∧ k'.pid p = 0 ∨
    k'.state p = .ready ∧ (k'.pool p).blockKind = .none ∧ k'.pid p = k.nextPid ∧
      k.nextPid < k'.nextPid
  unmarked : (k'.pool p).blockKind = .none → (k'.pool p).waitPid = 0
  nextPid : k.nextPid ≤ k'.nextPid ∧ k'.nextPid ≤ 1000
  kernelShell : k'.kernelShell = k.kernelShell

theorem Refilled.pid_lt (h : Refilled k k' p) (hl : Ledger k) {q : Slot} (hq : q ≠ p)
    (hu : k'.state q ≠ .unused) : k'.pid q < k.nextPid := by
  simp only [Kernel.state,Kernel.pid,h.frame q hq] at hu ⊢
  exact (hl.pids q hu).2

theorem Refilled.ledger (h : Refilled k k' p) (hl : Ledger k) : Ledger k' where
  unique q r hq hr he := by
    have hfresh : k'.state p ≠ .unused → k'.pid p = k.nextPid := fun hp => by
      rcases h.pcb with ⟨hu,-⟩ | ⟨-,-,hp,-⟩
      · exact absurd hu hp
      · exact hp
    by_cases hqp : q = p <;> by_cases hrp : r = p
    · rw [hqp,hrp]
    · subst hqp
      have := h.pid_lt hl hrp hr
      have := hfresh hq
      omega
    · subst hrp
      have := h.pid_lt hl hqp hq
      have := hfresh hr
      omega
    · simp only [Kernel.state,Kernel.pid,h.frame q hqp,h.frame r hrp] at hq hr he
      exact hl.unique q r hq hr he
  pids q hq := by
    by_cases hqp : q = p
    · subst hqp
      have hr := hl.range
      rcases h.pcb with ⟨hu,-⟩ | ⟨-,-,hp,hn⟩
      · exact absurd hu hq
      · omega
    · have hn := h.nextPid
      simp only [Kernel.state,Kernel.pid,h.frame q hqp] at hq ⊢
      exact ⟨(hl.pids q hq).1,(hl.pids q hq).2.trans_le hn.1⟩
  range := ⟨hl.range.1.trans h.nextPid.1,h.nextPid.2⟩
  unmarked q hq := by
    by_cases hqp : q = p
    · subst hqp
      exact h.unmarked hq
    · rw [h.frame q hqp] at hq ⊢
      exact hl.unmarked q hq
  awake q hq := by
    by_cases hqp : q = p
    · subst hqp
      rcases h.pcb with ⟨hu,-⟩ | ⟨-,hk,-⟩
      · rw [hu]; decide
      · rw [hk] at hq
        cases hq
    · simp only [Kernel.state,h.frame q hqp] at hq ⊢
      exact hl.awake q hq
  idle q hq := by
    by_cases hqp : q = p
    · subst hqp
      rcases h.pcb with ⟨-,h0⟩ | ⟨-,hk,-⟩
      · omega
      · exact hk
    · simp only [Kernel.pid,h.frame q hqp] at hq ⊢
      exact hl.idle q hq
  shell q hq := by
    rw [h.kernelShell] at hq
    by_cases hqp : q = p
    · subst hqp
      rcases h.pcb with ⟨hu,-⟩ | ⟨hu,-⟩ <;> rw [hu] <;> decide
    · simp only [Kernel.state,h.frame q hqp]
      exact hl.shell q hq

theorem Refilled.state_ne (h : Refilled k k' p) : k'.state p ≠ .blocked ∧ k'.state p ≠ .zombie := by
  rcases h.pcb with ⟨hu,-⟩ | ⟨hu,-⟩ <;> rw [hu] <;> decide

theorem Refilled.asleep (h : Refilled k k' p) (ha : Asleep k) : Asleep k' := by
  intro q hb hm
  have hqp : q ≠ p := fun e => h.state_ne.1 (e ▸ hb)
  have he := h.frame q hqp
  simp only [Kernel.state,he] at hb hm ⊢
  refine (ha q hb hm).mono (by simp only [Kernel.pid,he]) fun c hc => h.frame c ?_
  exact fun e => h.state_ne.2 (e ▸ hc)

/-! The kernel's part of the invariant. -/

/-- What holds between the steps of a call as well. -/
structure Calm (k : Kernel) (xs : List Slot) : Prop where
  queued : Queued IsReady k xs
  noIdle : ∀ p ∈ xs, k.pid p ≠ 1
  ledger : Ledger k
  asleep : Asleep k

structure Core (k : Kernel) (xs : List Slot) : Prop extends Calm k xs where
  same : k.procCurrent = k.current
  alive : ∀ c, k.current = some c → k.pid c = 1 ∧ k.state c = .ready ∨ k.state c = .running ∨
    k.state c = .blocked

theorem Ledger.ready_unmarked (h : Ledger k) (hr : k.state p = .ready) :
    (k.pool p).blockKind = .none ∧ k.state p ≠ .unused := by
  refine ⟨?_,by rw [hr]; decide⟩
  cases hk : (k.pool p).blockKind with
  | none => rfl
  | waitpid => exact absurd hr (h.awake p hk).1

theorem Ledger.idle_unmarked (h : Ledger k) (hp : processFindByPid k 1 = some p) :
    (k.pool p).blockKind = .none ∧ k.state p ≠ .unused :=
  ⟨h.idle p (findByPid_spec hp).1,(findByPid_spec hp).2⟩

theorem Core.pop {x : Slot} (h : Core k (x::xs)) : Core (popped k x xs) xs :=
  ⟨⟨h.queued.next_cons.2.1,fun p hp => h.noIdle p (by simp [hp]),
    ⟨h.ledger.unique,h.ledger.pids,h.ledger.range,h.ledger.unmarked,h.ledger.awake,h.ledger.idle,
      h.ledger.shell⟩,h.asleep⟩,h.same,h.alive⟩

theorem Calm.switched (h : Calm k xs) (hs : Switched k k' next ys)
    (hn : (k.pool next).blockKind = .none ∧ k.state next ≠ .unused) : Core k' ys := by
  have hr := hs.restated h.ledger hn.1 hn.2
  refine ⟨⟨hs.queued,fun p hp => ?_,hr.ledger h.ledger,hr.asleep h.asleep fun q hq => ?_⟩,
    by rw [hs.current,hs.procCurrent],fun c hc => ?_⟩
  · rw [hs.pid p]
    exact hs.noIdle p hp
  · have hqn : q ≠ next := by
      rintro rfl
      rw [hs.running] at hq
      cases hq
    rcases hs.states q hqn with he | ⟨he,-⟩
    · exact he.symm.trans hq
    · rw [he] at hq
      cases hq
  · rw [hs.current,Option.some.injEq] at hc
    exact Or.inr (Or.inl (hc ▸ hs.running))

theorem Calm.handover (h : Calm k xs) (hh : Handover IsReady k k' xs next ys)
    (hn : (k.pool next).blockKind = .none ∧ k.state next ≠ .unused) : Core k' ys :=
  h.switched (hh.switched h.noIdle) hn

section

variable (h : Core k xs)
include h

theorem Core.switchTo (hn : (k.pool next).blockKind = .none ∧ k.state next ≠ .unused) :
    ∃ ys, Core (schedulerSwitchTo k next) ys := by
  rcases switchTo_handover waiting_isReady h.queued fun hp hm => h.noIdle next hm hp with
    he | ⟨ys,hh⟩
  · exact ⟨xs,by rwa [he]⟩
  · exact ⟨ys,h.toCalm.handover hh hn⟩

theorem Core.tick (u : Bool) : ∃ ys, Core (timerPreemptHandler k u) ys := by
  rcases tick_handover waiting_isReady h.queued h.same u with he | ⟨next,ys,hh,hm | hi⟩
  · exact ⟨xs,by rwa [he]⟩
  · exact ⟨ys,h.toCalm.handover hh (h.ledger.ready_unmarked (h.queued.states next hm))⟩
  · exact ⟨ys,h.toCalm.handover hh (h.ledger.idle_unmarked hi)⟩

theorem Core.yield (hc : k.current = some c) (hp : k.pid c ≠ 1)
    (hb : k.state c = .blocked) : ∃ ys, Core (processYield k) ys := by
  simp only [processYield,hc,if_neg hp]
  rw [if_neg (by rw [hb]; decide)]
  cases xs with
  | nil =>
    rw [h.queued.next_nil]
    simp only [hb,reduceCtorEq,if_false]
    cases hi : processFindByPid k 1 with
    | none => exact ⟨[],h⟩
    | some idle => exact h.switchTo (h.ledger.idle_unmarked hi)
  | cons x ys =>
    rw [h.queued.next_cons.1]
    exact h.pop.switchTo (h.ledger.ready_unmarked (h.queued.states x (by simp)))

theorem Core.refilled (hr : Refilled k k' p)
    (hp : k.state p = .unused ∨ k.state p = .zombie) (hq : Queued IsReady k' ys)
    (hys : ∀ q ∈ ys, q ∈ xs ∨ q = p) (hcur : k'.current = k.current)
    (hproc : k'.procCurrent = k.procCurrent) : Core k' ys where
  queued := hq
  noIdle q hm := by
    by_cases hqp : q = p
    · subst hqp
      have hready : k'.state q = .ready := hq.states q hm
      have hrange := h.ledger.range
      rcases hr.pcb with ⟨hu,-⟩ | ⟨-,-,hpid,-⟩
      · rw [hu] at hready
        cases hready
      · omega
    · simp only [Kernel.pid,hr.frame q hqp]
      exact h.noIdle q ((hys q hm).resolve_right hqp)
  ledger := hr.ledger h.ledger
  asleep := hr.asleep h.asleep
  same := by rw [hcur,hproc,h.same]
  alive c hc := by
    rw [hcur] at hc
    have hcp : c ≠ p := by
      rintro rfl
      have ha := h.alive c hc
      rcases hp with hp | hp <;> rw [hp] at ha <;> simp at ha
    simp only [Kernel.state,Kernel.pid,hr.frame c hcp]
    exact h.alive c hc

theorem Core.filled {starved : Prop} {parent : ℕ} (hn : k.nextPid < 1000)
    (hf : Filled IsReady starved k k' xs p parent ys) : Core k' ys := by
  have hnext := hf.nextPid
  refine h.refilled (p:=p) ⟨hf.others,?_,fun _ => hf.marks.2,by omega,hf.kernelShell⟩
    (Or.inl hf.unused) hf.queued hf.mem hf.current hf.procCurrent
  exact hf.fate.imp And.left fun hr => ⟨hr.1.1,hf.marks.1,hr.1.2,by omega⟩

theorem Core.create (hn : k.nextPid < 1000) (entry : ℕ) (alloc : Alloc) :
    ∃ ys, Core (processCreate k entry alloc).2 ys := by
  rcases create_filled waiting_isReady h.queued entry alloc with he | ⟨p,ys,hf⟩
  · exact ⟨xs,by rwa [he]⟩
  · exact ⟨ys,h.filled hn hf⟩

theorem Core.exec (hn : k.nextPid < 1000) {self : Slot}
    (hself : k.procCurrent = some self) (alloc : Alloc) (loaded : Option ℕ) :
    ∃ ys, Core (sysExec k self alloc loaded) ys := by
  have hused : k.state self ≠ .unused := fun hu => by
    have ha := h.alive self (h.same.symm.trans hself)
    rw [hu] at ha
    simp at ha
  rcases exec_filled waiting_isReady h.queued hself hused alloc loaded with he | ⟨p,ys,hf⟩
  · exact ⟨xs,by rwa [he]⟩
  · exact ⟨ys,h.filled hn hf⟩

theorem Core.reclaim {z : Slot} (hz : k.state z = .zombie) : Core (processReclaim k z) xs := by
  have hx : z ∉ xs := h.queued.not_mem (by rw [hz]; exact waiting_isReady.notZombie)
  have hq := h.queued.reclaim hx
  rw [reclaim_eq (by rw [hz]; decide)] at hq ⊢
  exact h.refilled (p:=z) ⟨fun q hq => by simp [hq],Or.inl (by simp),
    by simpa using h.ledger.unmarked z,⟨le_rfl,h.ledger.range.2⟩,rfl⟩ (Or.inr hz) hq
    (fun q => Or.inl) rfl rfl

end

/-! Exits. -/

theorem wake_pool {parent : Slot} (q : Slot) :
    (readyQueueAdd (k.modify parent fun c =>
      { c with state := .ready, blockKind := .none, waitPid := 0 }) parent).pool q =
    if q = parent then { k.pool parent with state := .ready, blockKind := .none, waitPid := 0 }
    else k.pool q := by
  simp

theorem Ledger.wake (hl : Ledger k) {parent : Slot} (hb : k.state parent = .blocked)
    (hn : k'.nextPid = k.nextPid) (hs : k'.kernelShell = k.kernelShell)
    (hpool : ∀ q, k'.pool q =
      if q = parent then { k.pool parent with state := .ready, blockKind := .none, waitPid := 0 }
      else k.pool q) : Ledger k' := by
  have hpid : ∀ q, k'.pid q = k.pid q := fun q => by
    by_cases hq : q = parent <;> simp [hpool,hq]
  have hused : ∀ q, k'.state q ≠ .unused → k.state q ≠ .unused := fun q hu => by
    by_cases hq : q = parent
    · rw [hq,hb]; decide
    · simpa [hpool,hq] using hu
  refine ⟨fun p q hp hq he => ?_,fun p hp => ?_,by rw [hn]; exact hl.range,fun p => ?_,fun p => ?_,
    fun p hp => ?_,fun p hp => ?_⟩
  · rw [hpid p,hpid q] at he
    exact hl.unique p q (hused p hp) (hused q hq) he
  · rw [hpid p,hn]
    exact hl.pids p (hused p hp)
  · by_cases hpp : p = parent
    · simp [hpool,hpp]
    · simpa [hpool,hpp] using hl.unmarked p
  · by_cases hpp : p = parent
    · simp [hpool,hpp]
    · simpa [hpool,hpp] using hl.awake p
  · rw [hpid p] at hp
    by_cases hpp : p = parent
    · simp [hpool,hpp]
    · simpa [hpool,hpp] using hl.idle p hp
  · rw [hs] at hp
    by_cases hpp : p = parent
    · simp [hpool,hpp]
    · simpa [hpool,hpp] using hl.shell p hp

/-- Every sleeper is in order, but for the zombie `child` that has just appeared. -/
def AsleepBut (k : Kernel) (child : Slot) : Prop :=
  ∀ p, k.state p = .blocked → (k.pool p).blockKind = .waitpid → ∀ c, c ≠ child →
    k.state c = .zombie → (k.pool c).parentPid = k.pid p →
    (k.pool p).waitPid ≠ anyChild ∧ (k.pool p).waitPid ≠ k.pid c

/-- A sleeper that the new zombie matches is the one that is woken. -/
theorem AsleepBut.match (hl : Ledger k) {child : Slot} (ha : AsleepBut k child)
    (hpar : (k.pool child).parentPid ≠ 0) (hb : k.state p = .blocked)
    (hm : (k.pool p).blockKind = .waitpid) (hw : waitingParent k child ≠ some p) :
    NoZombie k p (k.pool p).waitPid := by
  intro c hc hcp
  by_cases hcc : c = child
  · subst hcc
    by_contra hno
    have hf := hl.find (p:=p) (by rw [hb]; decide)
    refine hw (waitingParent_of_awaits hf ⟨hpar,hb,hm,hcp.symm,?_⟩)
    by_contra h
    exact hno (not_or.mp h)
  · exact ha p hb hm c hcc hc hcp

theorem AsleepBut.wakeParent {child : Slot} (hq : Queued IsReady k xs)
    (hi : ∀ p ∈ xs, k.pid p ≠ 1) (hl : Ledger k) (ha : AsleepBut k child)
    (hpar : (k.pool child).parentPid ≠ 0) :
    ∃ ys, Calm (processWakeParentIfWaiting k child) ys := by
  simp only [processWakeParentIfWaiting]
  cases hw : waitingParent k child with
  | none =>
    exact ⟨xs,hq,hi,hl,fun p hb hm => ha.match hl hpar hb hm (by simp [hw])⟩
  | some parent =>
    obtain ⟨-,hb,hm,-⟩ := waitingParent_spec hw
    have hx : parent ∉ xs := hq.not_mem (by rw [hb]; decide)
    have hset := hq.modify (p:=parent)
      (f:=fun c => { c with state := .ready, blockKind := .none, waitPid := 0 })
      fun hm => absurd hm hx
    have hpool := @wake_pool k parent
    refine ⟨xs++[parent],hset.add hx rfl (by simp),?_,
      hl.wake hb (by simp) (by simp) hpool,?_⟩
    · intro p hp
      by_cases hpp : p = parent
      · have hno : k.pid parent ≠ 1 := fun e => by cases hm.symm.trans (hl.idle parent e)
        simpa [hpool,hpp] using hno
      · simpa [hpool,hpp] using hi p (by simpa [hpp] using hp)
    · intro p hbp hmp
      have hpp : p ≠ parent := by
        rintro rfl
        simp at hbp
      simp only [Kernel.state,hpool,if_neg hpp] at hbp hmp ⊢
      refine (ha.match hl hpar hbp hmp ?_).mono (by simp [hpp]) fun c hc => ?_
      · rw [hw]
        exact fun e => hpp (Option.some.inj e).symm
      · have hcp : c ≠ parent := by
          rintro rfl
          simp at hc
        simp [hcp]

theorem Core.leave (h : Core k xs) (hc : k.current = some c) : ∃ ys, Calm (leave k c) ys := by
  have hx : c ∉ xs.erase c := fun hm => (h.queued.nodup.mem_erase_iff.mp hm).1 rfl
  have hq := h.queued.retire c
  have hidle : ∀ p ∈ xs.erase c, k.pid p ≠ 1 := fun p hp => h.noIdle p (List.mem_of_mem_erase hp)
  have hused : k.state c ≠ .unused := fun e => by
    have ha := h.alive c hc
    rw [e] at ha
    simp at ha
  simp only [Sched.leave]
  split
  · rename_i hpar
    -- the exiting process is now a zombie; everybody else is as before
    have hz := hq.modify (p:=c) (f:=fun d => { d with state := .zombie }) fun hm => absurd hm hx
    have hpool : ∀ q, ((retire k c).setState c .zombie).pool q =
        if q = c then { k.pool c with state := .zombie } else k.pool q := fun q => by
      by_cases hqc : q = c <;> simp [hqc]
    have hre : Restated k ((retire k c).setState c .zombie) := by
      refine ⟨fun q => ?_,fun q hq => ?_,fun q hq => Or.inl ?_,fun q hq => ?_,by simp,by simp⟩
      · by_cases hqc : q = c <;> simp [hqc]
      · by_cases hqc : q = c
        · rwa [hqc]
        · simpa [hqc] using hq
      · by_cases hqc : q = c
        · simp [hqc] at hq
        · simpa [hqc] using hq
      · have hqc : q ≠ c := by
          rintro rfl
          simp at hq
        have hw : k.state q = .ready ∨ k.state q = .running := by simpa [hqc] using hq
        cases hk : (k.pool q).blockKind with
        | none => rfl
        | waitpid => exact absurd hw (not_or.mpr (h.ledger.awake q hk))
    refine AsleepBut.wakeParent hz ?_ (hre.ledger h.ledger) ?_ (by simpa using hpar)
    · intro p hp
      have hpc : p ≠ c := fun e => hx (e ▸ hp)
      simpa [hpc] using hidle p hp
    · intro p hb hm q hqc hqz hqp
      have hpc : p ≠ c := by
        rintro rfl
        simp at hb
      simp only [Kernel.state,Kernel.pid,hpool,if_neg hpc,if_neg hqc] at hb hm hqz hqp ⊢
      exact h.asleep p hb hm q hqz hqp
  · have hr : (retire k c).state c ≠ .unused := by simp
    rw [reclaim_eq hr]
    have hf : Refilled k ((retire k c).modify c fun d => { d with state := .unused, pid := 0 }) c :=
      ⟨fun q hq => by simp [hq],Or.inl (by simp),by simpa using h.ledger.unmarked c,
        by simpa using h.ledger.range.2,by simp⟩
    refine ⟨_,hq.modify fun hm => absurd hm hx,fun p hp => ?_,hf.ledger h.ledger,hf.asleep h.asleep⟩
    have hpc : p ≠ c := fun e => hx (e ▸ hp)
    simpa [hpc] using hidle p hp

/-- With nothing queued the machine halts: the kernel shell is not asleep. -/
theorem Calm.resume (h : Calm k []) (c : Slot) : Core (resumeKernelShell k c) [] := by
  have hhalt : Core { schedulerReset k with halted := true } [] :=
    ⟨⟨⟨by simp [schedulerReset,h.queued.queue,Links.reset,ofList],by simp,by simp [schedulerReset],
        by simp⟩,by simp,
      ⟨h.ledger.unique,h.ledger.pids,h.ledger.range,h.ledger.unmarked,h.ledger.awake,h.ledger.idle,
        h.ledger.shell⟩,h.asleep⟩,rfl,by simp [schedulerReset]⟩
  simp only [resumeKernelShell]
  split
  · split
    · rename_i shell hs
      have hawake : (schedulerReset k).state shell ≠ .blocked := h.ledger.shell shell hs
      rw [if_neg hawake]
      exact hhalt
    · exact hhalt
  · exact hhalt

theorem Core.exit (h : Core k xs) (hc : k.current = some c) : ∃ ys, Core (processExit k) ys := by
  obtain ⟨ys,hl⟩ := h.leave hc
  simp only [processExit,hc]
  cases ys with
  | nil =>
    rw [hl.queued.next_nil]
    exact ⟨[],hl.resume c⟩
  | cons x ys =>
    rw [hl.queued.next_cons.1]
    exact ⟨ys,hl.switched (popRun_switched hl.queued fun p hp => hl.noIdle p (by simp [hp]))
      (hl.ledger.ready_unmarked (hl.queued.states x (by simp)))⟩

end Sched
end DonsOs
