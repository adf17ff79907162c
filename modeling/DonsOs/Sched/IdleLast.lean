import DonsOs.Sched.Queue

/-! When a tick gives the processor to idle.
`scheduler_switch_to` refuses to switch to idle while the current process is running.
`timer_preempt_handler` has no such check: after a tick in user mode it takes whatever heads the
queue, and idle when the queue is empty. -/
namespace DonsOs
namespace Sched

open Run

/-- `SCHED_QUANTUM`. -/
def schedQuantum : ℕ := 2

/-- The quantum of the interrupted process has expired.  In kernel mode and in user mode the
handler sees to that itself; otherwise it counts, and `ticks` is `timeslice_ticks` before. -/
def expires (cs ticks : ℕ) : Bool := cs%4 = 3 ∨ schedQuantum ≤ (ticks+1)%2^64

/-- `timer_preempt_handler` on the frame of any interrupt, with the segment `cs`. -/
def timerPreemptFrame (k : Kernel) (cs ticks : ℕ) : Kernel :=
  if cs%4 = 0 then timerPreemptHandler k false else
  if expires cs ticks then timerPreemptHandler k true else k

/-- Some other process gives the processor to idle. -/
def IdleTakesOver (k k' : Kernel) : Prop :=
  ∃ idle, k'.procCurrent = some idle ∧ k.procCurrent ≠ some idle ∧ k.pid idle = 1

/-- A process other than idle is running, or the queue holds a process. -/
def Busy (k : Kernel) : Prop :=
  (∃ c, k.procCurrent = some c ∧ k.pid c ≠ 1 ∧ k.state c = .running) ∨ k.queue.head ≠ none

def IdleLast (k : Kernel) (cs ticks : ℕ) : Prop :=
  IdleTakesOver k (timerPreemptFrame k cs ticks) → ¬Busy k

/-- A user process that runs alone. -/
def loneUser : Option Kernel := run Kernel.step (boot none) [.create userCodeBase .ok,.tick false]

/-- A tick takes the processor away from it, in favour of idle. -/
theorem lone_user_yields_to_idle : ∃ k, loneUser = some k ∧ ¬IdleLast k 0x33 0 := by
  have hrun : loneUser.map (fun k =>
      (k.procCurrent,k.pid 1,k.state 1,(timerPreemptFrame k 0x33 0).procCurrent,k.pid 0)) =
      some (some 1,2,.running,some 0,1) := by decide +kernel
  obtain ⟨k,hk,hout⟩ := Option.map_eq_some_iff.mp hrun
  simp only [Prod.mk.injEq] at hout
  obtain ⟨hc,hpid,hstate,hnext,hidle⟩ := hout
  refine ⟨k,hk,fun h => h ⟨0,hnext,by rw [hc]; decide,hidle⟩ (Or.inl ⟨1,hc,?_,hstate⟩)⟩
  rw [hpid]
  decide

variable {k : Kernel} {c : Slot}

theorem readyQueueNext_frame (k : Kernel) : (readyQueueNext k).1 = k.queue.head ∧
    (readyQueueNext k).2.pool = k.pool ∧ (readyQueueNext k).2.procCurrent = k.procCurrent := by
  simp only [readyQueueNext,LinkedQueue.Links.pop]
  cases k.queue.head with
  | none => exact ⟨rfl,rfl,rfl⟩
  | some p => exact ⟨rfl,rfl,rfl⟩

/-- Whom a tick that expires the quantum of `c` picks. -/
def picked (k : Kernel) (c : Slot) : Option Slot :=
  match k.queue.head with
  | some next => some next
  | none => if k.pid c = 1 then none else processFindByPid k 1

theorem handler_procCurrent (hc : k.procCurrent = some c) (ht : k.state c ≠ .terminated) {u : Bool}
    (hu : ¬(u = false ∧ (k.queue.head.all fun peek => k.pid peek = 1) = true)) :
    (timerPreemptHandler k u).procCurrent = some ((picked k c).getD c) := by
  obtain ⟨hhead,hpool,hproc⟩ := readyQueueNext_frame k
  simp only [timerPreemptHandler,hc,if_neg ht,if_neg hu,picked]
  generalize readyQueueNext k = r at hhead hpool hproc ⊢
  obtain ⟨o,k₁⟩ := r
  simp only at hhead hpool hproc
  have hfind : processFindByPid k₁ 1 = processFindByPid k 1 := by
    simp only [processFindByPid,Kernel.pid,Kernel.state,hpool]
  subst hhead
  simp only [Kernel.pid,hpool,hfind]
  cases k.queue.head with
  | some next => rfl
  | none =>
    by_cases hp : (k.pool c).pid = 1
    · simp [hp,hproc,hc]
    · cases processFindByPid k 1 with
      | none => simp [hp,hproc,hc]
      | some idle =>
        simp only [if_neg hp]
        rfl

/-- A tick in kernel mode leaves the current process or switches to one that is not idle. -/
theorem kernel_tick_not_idle (k : Kernel) : ¬IdleTakesOver k (timerPreemptHandler k false) := by
  rintro ⟨idle,hnext,hne,hidle⟩
  cases hc : k.procCurrent with
  | none =>
    simp only [timerPreemptHandler,hc] at hnext
    cases hnext
  | some c =>
    rw [hc] at hne
    by_cases hstay : k.state c = .terminated ∨ (k.queue.head.all fun peek => k.pid peek = 1) = true
    · have hk : timerPreemptHandler k false = k := by
        rcases hstay with ht | hq
        · simp only [timerPreemptHandler,hc,if_pos ht]
        · simp only [timerPreemptHandler,hc,hq,and_self,if_true,ite_self]
      rw [hk,hc] at hnext
      exact hne hnext
    · obtain ⟨ht,hq⟩ := not_or.mp hstay
      rw [handler_procCurrent hc ht fun h => hq h.2] at hnext
      cases hh : k.queue.head with
      | none => simp [hh] at hq
      | some p =>
        simp only [picked,hh,Option.getD_some,Option.some.injEq] at hnext
        simp [hh,hnext,hidle] at hq

theorem user_tick_stays (h : ∀ c, k.procCurrent = some c → k.state c = .terminated) :
    timerPreemptHandler k true = k := by
  cases hc : k.procCurrent with
  | none => simp only [timerPreemptHandler,hc]
  | some c => simp only [timerPreemptHandler,hc,if_pos (h c hc)]

theorem user_tick_iff (k : Kernel) :
    (IdleTakesOver k (timerPreemptHandler k true) → ¬Busy k) ↔
      ∀ c, k.procCurrent = some c → k.state c ≠ .terminated →
        (∀ p, k.queue.head = some p → p ≠ c → k.pid p ≠ 1) ∧
        (k.queue.head = none → k.pid c ≠ 1 → k.state c = .running → processFindByPid k 1 = none) := by
  by_cases hgo : ∃ c, k.procCurrent = some c ∧ k.state c ≠ .terminated
  · obtain ⟨c,hc,ht⟩ := hgo
    have hnext := handler_procCurrent (u:=true) hc ht (by simp)
    have hall : (∀ d, k.procCurrent = some d → k.state d ≠ .terminated →
        (∀ p, k.queue.head = some p → p ≠ d → k.pid p ≠ 1) ∧
        (k.queue.head = none → k.pid d ≠ 1 → k.state d = .running → processFindByPid k 1 = none)) ↔
        (∀ p, k.queue.head = some p → p ≠ c → k.pid p ≠ 1) ∧
        (k.queue.head = none → k.pid c ≠ 1 → k.state c = .running → processFindByPid k 1 = none) := by
      refine ⟨fun h => h c hc ht,fun h d hd _ => ?_⟩
      obtain rfl : c = d := Option.some.inj (hc.symm.trans hd)
      exact h
    rw [hall]
    simp only [IdleTakesOver,hnext,hc,Busy,ne_eq,Option.some.injEq]
    cases hh : k.queue.head with
    | some p =>
      -- whoever heads the queue is taken
      simp only [picked,hh,Option.getD_some,reduceCtorEq,not_false_eq_true,or_true,not_true,imp_false,
        Option.some.injEq,false_imp_iff,and_true]
      constructor
      · rintro h q rfl hne hidle
        exact h ⟨p,rfl,fun e => hne e.symm,hidle⟩
      · rintro h ⟨idle,rfl,hne,hidle⟩
        exact h p rfl (fun e => hne e.symm) hidle
    | none =>
      simp only [picked,hh,reduceCtorEq,false_imp_iff,implies_true,true_and,not_true,or_false,
        forall_const]
      by_cases hp : k.pid c = 1
      · simp [hp]
      · simp only [if_neg hp]
        cases hf : processFindByPid k 1 with
        | none => simp
        | some idle =>
          have hi := (findByPid_spec hf).1
          have hne : ¬c = idle := fun e => hp (e ▸ hi)
          simp [hp,hi,hne]
  · have hstay : ∀ c, k.procCurrent = some c → k.state c = .terminated := by
      intro c hc
      by_contra ht
      exact hgo ⟨c,hc,ht⟩
    rw [user_tick_stays hstay]
    refine iff_of_true (fun ⟨idle,hnext,hne,_⟩ => absurd hnext hne) fun c hc ht => absurd (hstay c hc) ht

/-- Idle takes over while something else could run just in two situations: a tick in user mode
finds idle at the head of the queue, or an empty queue with a running process. -/
theorem idle_last_iff (k : Kernel) (cs ticks : ℕ) :
    IdleLast k cs ticks ↔ cs%4 = 0 ∨ expires cs ticks = false ∨
      ∀ c, k.procCurrent = some c → k.state c ≠ .terminated →
        (∀ p, k.queue.head = some p → p ≠ c → k.pid p ≠ 1) ∧
        (k.queue.head = none → k.pid c ≠ 1 → k.state c = .running → processFindByPid k 1 = none) := by
  by_cases hk : cs%4 = 0
  · have hstay := kernel_tick_not_idle k
    simp [IdleLast,timerPreemptFrame,hk,hstay]
  cases he : expires cs ticks with
  | false =>
    have hstay : ¬IdleTakesOver k k := fun ⟨idle,hnext,hne,_⟩ => hne hnext
    simp [IdleLast,timerPreemptFrame,hk,he,hstay]
  | true =>
    simp only [IdleLast,timerPreemptFrame,hk,he,if_false,if_true,false_or,reduceCtorEq]
    exact user_tick_iff k

end Sched
end DonsOs
