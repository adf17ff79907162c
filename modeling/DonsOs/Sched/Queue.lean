import DonsOs.Sched.Model

/-! The ready queue under scheduling.
`Queued S k xs` says that the links spell out the list `xs` and that all its members are
in states satisfying `S`.  Each scheduling function is described once in these terms. -/
namespace DonsOs
namespace Sched

open LinkedQueue Run

@[simp] theorem modify_pool (k : Kernel) (p q : Slot) (f : Pcb → Pcb) :
    (k.modify p f).pool q = if q = p then f (k.pool p) else k.pool q := by
  simp [Kernel.modify,Function.update_apply]
@[simp] theorem modify_rest (k : Kernel) (p : Slot) (f : Pcb → Pcb) :
    (k.modify p f).queue = k.queue ∧ (k.modify p f).inserted = k.inserted ∧
      (k.modify p f).current = k.current ∧ (k.modify p f).procCurrent = k.procCurrent ∧
      (k.modify p f).nextPid = k.nextPid ∧ (k.modify p f).kernelShell = k.kernelShell ∧
      (k.modify p f).halted = k.halted := ⟨rfl,rfl,rfl,rfl,rfl,rfl,rfl⟩

@[simp] theorem setState_eq (k : Kernel) (p : Slot) (s : ProcState) :
    k.setState p s = k.modify p fun c => { c with state := s } := rfl

attribute [simp] Kernel.state Kernel.pid

@[simp] theorem add_pool (k : Kernel) (p q : Slot) : (readyQueueAdd k p).pool q =
    if q = p ∧ (k.pool p).state = .running then { k.pool p with state := .ready } else k.pool q := by
  by_cases hr : (k.pool p).state = .running <;> simp [readyQueueAdd,hr]
@[simp] theorem add_current (k : Kernel) (p : Slot) : (readyQueueAdd k p).current = k.current := by
  simp only [readyQueueAdd]; split <;> rfl
@[simp] theorem add_rest (k : Kernel) (p : Slot) :
    (readyQueueAdd k p).procCurrent = k.procCurrent ∧ (readyQueueAdd k p).nextPid = k.nextPid ∧
      (readyQueueAdd k p).kernelShell = k.kernelShell ∧ (readyQueueAdd k p).halted = k.halted := by
  simp only [readyQueueAdd]; split <;> exact ⟨rfl,rfl,rfl,rfl⟩
@[simp] theorem remove_rest (k : Kernel) (p : Slot) :
    (readyQueueRemove k p).pool = k.pool ∧ (readyQueueRemove k p).current = k.current ∧
      (readyQueueRemove k p).procCurrent = k.procCurrent ∧
      (readyQueueRemove k p).nextPid = k.nextPid ∧
      (readyQueueRemove k p).kernelShell = k.kernelShell ∧
      (readyQueueRemove k p).halted = k.halted := ⟨rfl,rfl,rfl,rfl,rfl,rfl⟩

variable {S : ProcState → Prop} {k : Kernel} {xs : List Slot}

structure Queued (S : ProcState → Prop) (k : Kernel) (xs : List Slot) : Prop where
  queue : k.queue = ofList xs
  nodup : xs.Nodup
  inserted : ∀ p, k.inserted p = true ↔ p ∈ xs
  states : ∀ p ∈ xs, S (k.state p)

variable {p next c self : Slot} {pids : List ℕ}

theorem Queued.modify (h : Queued S k xs) {f : Pcb → Pcb}
    (hp : p ∈ xs → S (f (k.pool p)).state) : Queued S (k.modify p f) xs := by
  refine ⟨h.queue,h.nodup,h.inserted,fun q hq => ?_⟩
  by_cases hqp : q = p
  · subst hqp
    simpa using hp hq
  · simpa [hqp] using h.states q hq

theorem Queued.add (h : Queued S k xs) (hp : p ∉ xs) (hr : S .ready)
    (hs : k.state p ≠ .running → S (k.state p)) : Queued S (readyQueueAdd k p) (xs++[p]) := by
  have hq : (if k.state p = .running then k.setState p .ready else k).queue = ofList xs := by
    split <;> simp [h.queue]
  have hi : (if k.state p = .running then k.setState p .ready else k).inserted = k.inserted := by
    split <;> simp
  refine ⟨?_,?_,fun q => ?_,fun q hqm => ?_⟩
  · simp only [readyQueueAdd,hq,add_ofList h.nodup hp]
  · exact List.nodup_append.mpr ⟨h.nodup,by simp,fun a ha b hb => by
      rw [List.mem_singleton.mp hb]; exact fun e => hp (e ▸ ha)⟩
  · simp only [readyQueueAdd,hi,Function.update_apply,List.mem_append,List.mem_singleton]
    by_cases hqp : q = p
    · simp [hqp]
    · simp [hqp,h.inserted q]
  · simp only [Kernel.state,add_pool]
    split
    · exact hr
    · rename_i hqp
      rcases List.mem_append.mp hqm with hqm | hqm
      · exact h.states q hqm
      · rw [List.mem_singleton.mp hqm] at hqp ⊢
        exact hs fun hrun => hqp ⟨rfl,hrun⟩

theorem Queued.remove (h : Queued S k xs) (p : Slot) :
    Queued S (readyQueueRemove k p) (xs.erase p) := by
  refine ⟨?_,h.nodup.erase p,fun q => ?_,fun q hq => h.states q (List.mem_of_mem_erase hq)⟩
  · simp only [readyQueueRemove,h.queue,remove_erase h.nodup]
  · simp only [readyQueueRemove,Function.update_apply,h.nodup.mem_erase_iff]
    by_cases hqp : q = p
    · simp [hqp]
    · simp [hqp,h.inserted q]

theorem Queued.next_nil (h : Queued S k []) : readyQueueNext k = (none,k) := by
  simp [readyQueueNext,h.queue,pop_nil]

/-- The state after the head `x` has been popped. -/
def popped (k : Kernel) (x : Slot) (xs : List Slot) : Kernel :=
  { k with queue := ofList xs, inserted := Function.update k.inserted x false }

@[simp] theorem popped_pool (k : Kernel) (x : Slot) (xs : List Slot) :
    (popped k x xs).pool = k.pool := rfl
@[simp] theorem popped_current (k : Kernel) (x : Slot) (xs : List Slot) :
    (popped k x xs).current = k.current := rfl
@[simp] theorem popped_rest (k : Kernel) (x : Slot) (xs : List Slot) :
    (popped k x xs).procCurrent = k.procCurrent ∧ (popped k x xs).nextPid = k.nextPid ∧
      (popped k x xs).kernelShell = k.kernelShell ∧ (popped k x xs).halted = k.halted :=
  ⟨rfl,rfl,rfl,rfl⟩

theorem Queued.next_cons {x : Slot} (h : Queued S k (x::xs)) :
    readyQueueNext k = (some x,popped k x xs) ∧ Queued S (popped k x xs) xs ∧ x ∉ xs := by
  have hx := List.nodup_cons.mp h.nodup
  refine ⟨by simp [readyQueueNext,h.queue,pop_cons h.nodup,popped],⟨rfl,hx.2,fun q => ?_,?_⟩,hx.1⟩
  · simp only [popped,Function.update_apply]
    by_cases hq : q = x
    · simp [hq,hx.1]
    · simp [hq,h.inserted q]
  · exact fun q hq => h.states q (List.mem_cons_of_mem _ hq)

/-- What the queue needs to know about the states of its members. -/
structure Waiting (S : ProcState → Prop) : Prop where
  ready : S .ready
  notRunning : ¬S .running
  notUnused : ¬S .unused
  notZombie : ¬S .zombie

theorem Queued.not_mem (h : Queued S k xs) (hp : ¬S (k.state p)) : p ∉ xs :=
  fun hm => hp (h.states p hm)

@[simp] theorem requeue_pool (k : Kernel) (c q : Slot) : (requeue k c).pool q =
    if q = c ∧ (k.pool c).state = .running then { k.pool c with state := .ready } else k.pool q := by
  by_cases hr : (k.pool c).state = .running
  · by_cases hp : (k.pool c).pid = 1 <;> by_cases hq : q = c <;> simp [requeue,hr,hp,hq]
  · simp [requeue,hr]
@[simp] theorem requeue_rest (k : Kernel) (c : Slot) :
    (requeue k c).current = k.current ∧ (requeue k c).procCurrent = k.procCurrent ∧
      (requeue k c).nextPid = k.nextPid ∧ (requeue k c).kernelShell = k.kernelShell ∧
      (requeue k c).halted = k.halted := by
  simp only [requeue]; split
  · split <;> simp
  · simp

theorem Queued.requeue (w : Waiting S) (h : Queued S k xs) (c : Slot) :
    Queued S (requeue k c)
      (if k.state c = .running ∧ k.pid c ≠ 1 then xs++[c] else xs) := by
  by_cases hr : k.state c = .running
  · have hc : c ∉ xs := h.not_mem (by rw [hr]; exact w.notRunning)
    have hset := h.modify (p:=c) (f:=fun d => { d with state := .ready }) fun hm => absurd hm hc
    by_cases hp : k.pid c = 1
    · simpa [Sched.requeue,hr,hp] using hset
    · have hadd := hset.add hc w.ready (by simp [w.ready])
      simpa [Sched.requeue,hr,hp] using hadd
  · simpa [Sched.requeue,hr] using h

@[simp] theorem takeOver_rest (k : Kernel) (next : Slot) :
    (takeOver k next).pool = k.pool ∧ (takeOver k next).current = some next ∧
      (takeOver k next).procCurrent = some next ∧ (takeOver k next).nextPid = k.nextPid ∧
      (takeOver k next).kernelShell = k.kernelShell ∧ (takeOver k next).halted = k.halted := by
  simp only [takeOver]; split <;> exact ⟨rfl,rfl,rfl,rfl,rfl,rfl⟩

theorem Queued.takeOver (h : Queued S k xs) (hn : k.pid next = 1 → next ∉ xs) :
    Queued S (takeOver k next) (xs.erase next) := by
  have hset : Queued S (schedulerSetCurrent k next) xs := ⟨h.queue,h.nodup,h.inserted,h.states⟩
  simp only [Sched.takeOver]
  by_cases hp : k.pid next = 1
  · rw [if_neg (by simpa [schedulerSetCurrent] using hp),List.erase_of_not_mem (hn hp)]
    exact hset
  · rw [if_pos (by simpa [schedulerSetCurrent] using hp)]
    exact hset.remove next

/-- The PCB that a switch puts back on the queue, if any. -/
def outgoing (k : Kernel) : List Slot :=
  k.current.toList.filter fun c => k.state c = .running ∧ k.pid c ≠ 1

@[simp] theorem dispatch_current (k : Kernel) (next : Slot) :
    (dispatch k next).current = some next := by
  simp only [dispatch]; split <;> simp
@[simp] theorem dispatch_rest (k : Kernel) (next : Slot) :
    (dispatch k next).procCurrent = some next ∧ (dispatch k next).nextPid = k.nextPid ∧
      (dispatch k next).kernelShell = k.kernelShell ∧ (dispatch k next).halted = k.halted := by
  simp only [dispatch]; split <;> simp

theorem dispatch_pool (hc : k.current ≠ some next) (q : Slot) : (dispatch k next).pool q =
      if q = next then { k.pool next with state := .running }
      else if k.current = some q ∧ (k.pool q).state = .running then
        { k.pool q with state := .ready }
      else k.pool q := by
  by_cases hq : q = next
  · subst hq
    cases hcur : k.current with
    | none => simp [dispatch,hcur]
    | some c =>
      have hne : q ≠ c := fun e => hc (by rw [hcur,e])
      simp [dispatch,hcur,hne]
  · cases hcur : k.current with
    | none => simp [dispatch,hcur,hq]
    | some c =>
      by_cases hqc : q = c
      · subst hqc
        simp [dispatch,hcur,hq]
      · simp [dispatch,hcur,hq,hqc,Ne.symm hqc]

/-- The queue after a switch: the incoming PCB leaves it and a running one that is
switched away from joins it. -/
theorem Queued.dispatch (w : Waiting S) (h : Queued S k xs)
    (hn : k.pid next = 1 → next ∉ xs) (hc : k.current ≠ some next) :
    Queued S (dispatch k next) (xs.erase next++outgoing k) := by
  have hout : next ∉ xs.erase next++outgoing k := by
    simp only [outgoing,List.mem_append,h.nodup.mem_erase_iff,List.mem_filter,Option.mem_toList]
    rintro (⟨hne,-⟩ | ⟨hcur,-⟩)
    · exact hne rfl
    · exact hc hcur
  have htake := h.takeOver hn
  simp only [Sched.dispatch]
  refine Queued.modify ?_ fun hm => absurd hm hout
  cases hcur : k.current with
  | none => simpa [outgoing,hcur] using htake
  | some c =>
    have hre := htake.requeue w c
    simp only [outgoing,hcur,Option.toList_some,List.filter_cons,List.filter_nil]
    simpa [apply_ite (fun l => xs.erase next++l)] using hre

theorem switchTo_cases (k : Kernel) (next : Slot) :
    schedulerSwitchTo k next = k ∨
      k.current ≠ some next ∧ schedulerSwitchTo k next = dispatch k next := by
  by_cases hc : k.current = some next
  · exact Or.inl (by simp [schedulerSwitchTo,hc])
  · by_cases hi : k.pid next = 1 ∧ (k.current.any fun c => k.state c = .running)
    · exact Or.inl (by simp only [schedulerSwitchTo,if_neg hc,if_pos hi])
    · exact Or.inr ⟨hc,by simp only [schedulerSwitchTo,if_neg hc,if_neg hi]⟩

theorem Queued.switchTo (w : Waiting S) (h : Queued S k xs)
    (hn : k.pid next = 1 → next ∉ xs) : ∃ ys, Queued S (schedulerSwitchTo k next) ys := by
  rcases switchTo_cases k next with he | ⟨hc,he⟩
  · exact ⟨xs,by rwa [he]⟩
  · exact ⟨_,by rw [he]; exact h.dispatch w hn hc⟩

theorem requeue_of_ne (hp : k.pid c ≠ 1) : requeue k c =
    if k.state c = .running then readyQueueAdd (k.setState c .ready) c else k := by
  simp only [Kernel.pid] at hp
  by_cases hr : (k.pool c).state = .running <;> simp [requeue,hr,hp]

theorem Queued.requeue_current (w : Waiting S) (h : Queued S k xs) (hc : k.current = some c) :
    Queued S (Sched.requeue k c) (xs++outgoing k) := by
  have hre := h.requeue w c
  simp only [outgoing,hc,Option.toList_some,List.filter_cons,List.filter_nil]
  simpa [apply_ite (fun l => xs++l)] using hre

/-- What the handler does once it has picked the task `next`. -/
def preemptTo (k : Kernel) (current next : Slot) : Kernel :=
  schedulerSetCurrent ((if k.pid current ≠ 1 ∧ k.state current = .running then
      readyQueueAdd (k.setState current .ready) current
    else k).setState next .running) next

theorem preemptTo_pool (k : Kernel) (current next q : Slot) :
    (preemptTo k current next).pool q =
      if q = next then { k.pool next with state := .running }
      else if q = current ∧ (k.pool current).pid ≠ 1 ∧ (k.pool current).state = .running then
        { k.pool current with state := .ready }
      else k.pool q := by
  simp only [preemptTo,schedulerSetCurrent]
  by_cases hc : k.pid current ≠ 1 ∧ k.state current = .running
  · rw [if_pos hc]
    simp only [Kernel.pid,Kernel.state] at hc
    by_cases hq : q = next
    · by_cases hn : next = current <;> simp [hq,hn]
    · by_cases hqc : q = current
      · subst hqc
        simp [hq,hc]
      · simp [hq,hqc]
  · rw [if_neg hc]
    simp only [Kernel.pid,Kernel.state] at hc
    simp [hc]
@[simp] theorem preemptTo_rest (k : Kernel) (current next : Slot) :
    (preemptTo k current next).nextPid = k.nextPid ∧
      (preemptTo k current next).kernelShell = k.kernelShell ∧
      (preemptTo k current next).halted = k.halted := by
  simp only [preemptTo,schedulerSetCurrent]; split <;> simp

theorem Queued.preemptTo (w : Waiting S) (h : Queued S k xs) {current : Slot}
    (hn : next ∉ xs) (hne : k.state current = .running → next ≠ current) :
    Queued S (preemptTo k current next)
      (xs++if k.pid current ≠ 1 ∧ k.state current = .running then [current] else []) := by
  by_cases hc : k.pid current ≠ 1 ∧ k.state current = .running
  · have hre := h.requeue w current
    rw [requeue_of_ne hc.1,if_pos hc.2,if_pos ⟨hc.2,hc.1⟩] at hre
    have hnot : next ∉ xs++[current] := by simp [hn,hne hc.2]
    have hset := hre.modify (p:=next) (f:=fun d => { d with state := .running })
      fun hm => absurd hm hnot
    simp only [Sched.preemptTo,if_pos hc]
    exact ⟨hset.queue,hset.nodup,hset.inserted,hset.states⟩
  · have hset := h.modify (p:=next) (f:=fun d => { d with state := .running })
      fun hm => absurd hm hn
    simp only [Sched.preemptTo,if_neg hc,List.append_nil]
    exact ⟨hset.queue,hset.nodup,hset.inserted,hset.states⟩

theorem findByPid_spec {pid : ℕ} (h : processFindByPid k pid = some p) :
    k.pid p = pid ∧ k.state p ≠ .unused := by
  have hp := List.find?_some h
  simpa using hp

theorem findByPid_of_unique (hu : k.state p ≠ .unused)
    (h : ∀ q, k.state q ≠ .unused → k.pid q = k.pid p → q = p) :
    processFindByPid k (k.pid p) = some p := by
  cases hf : processFindByPid k (k.pid p) with
  | none =>
    have hno := List.find?_eq_none.mp hf p (List.mem_finRange p)
    simp only [decide_eq_true_eq,true_and] at hno
    exact absurd hu hno
  | some q =>
    obtain ⟨hq,hq'⟩ := findByPid_spec hf
    rw [h q hq' hq]

/-- A tick leaves everything as it is, or preempts the current process in favour of the
head of the queue, or of idle when the queue is empty. -/
theorem tick_cases (h : Queued S k xs) (u : Bool) :
    timerPreemptHandler k u = k ∨ ∃ current, k.procCurrent = some current ∧
      ((∃ next ys, xs = next::ys ∧
          timerPreemptHandler k u = preemptTo (popped k next ys) current next) ∨
        xs = [] ∧ k.pid current ≠ 1 ∧ ∃ idle, processFindByPid k 1 = some idle ∧
          timerPreemptHandler k u = preemptTo k current idle) := by
  cases hc : k.procCurrent with
  | none => exact Or.inl (by simp [timerPreemptHandler,hc])
  | some current =>
    simp only [timerPreemptHandler,hc]
    split
    · exact Or.inl rfl
    split
    · exact Or.inl rfl
    cases xs with
    | nil =>
      rw [h.next_nil]
      by_cases hp : k.pid current = 1
      · exact Or.inl (by simp only [if_pos hp])
      · simp only [if_neg hp]
        cases hi : processFindByPid k 1 with
        | none => exact Or.inl rfl
        | some idle => exact Or.inr ⟨current,rfl,Or.inr ⟨by simp,hp,idle,rfl,rfl⟩⟩
    | cons x ys =>
      rw [h.next_cons.1]
      exact Or.inr ⟨current,rfl,Or.inl ⟨x,ys,rfl,rfl⟩⟩

theorem Queued.tick (w : Waiting S) (h : Queued S k xs) (u : Bool) :
    ∃ ys, Queued S (timerPreemptHandler k u) ys := by
  rcases tick_cases h u with he | ⟨current,-,⟨next,ys,rfl,he⟩ | ⟨rfl,hp,idle,hi,he⟩⟩
  · exact ⟨xs,by rwa [he]⟩
  · obtain ⟨-,hq,hx⟩ := h.next_cons
    have hne : k.state current = .running → next ≠ current := by
      rintro hr rfl
      exact w.notRunning (hr ▸ h.states next (by simp))
    exact ⟨_,by rw [he]; exact hq.preemptTo w hx hne⟩
  · have hne : idle ≠ current := fun e => hp (e ▸ (findByPid_spec hi).1)
    exact ⟨_,by rw [he]; exact h.preemptTo w (by simp) fun _ => hne⟩

/-! Creation. -/

/-- A fresh PCB in slot `p`, not yet queued. -/
def created (k : Kernel) (p : Slot) (entry : ℕ) : Kernel :=
  { k.modify p (fun _ => ⟨k.nextPid,.ready,.none,0,0,entry⟩) with nextPid := k.nextPid+1 }

@[simp] theorem created_pool (k : Kernel) (p q : Slot) (entry : ℕ) :
    (created k p entry).pool q =
      if q = p then ⟨k.nextPid,.ready,.none,0,0,entry⟩ else k.pool q := by
  simp [created]
@[simp] theorem created_rest (k : Kernel) (p : Slot) (entry : ℕ) :
    (created k p entry).current = k.current ∧ (created k p entry).procCurrent = k.procCurrent ∧
      (created k p entry).nextPid = k.nextPid+1 ∧
      (created k p entry).kernelShell = k.kernelShell ∧ (created k p entry).halted = k.halted :=
  ⟨rfl,rfl,rfl,rfl,rfl⟩

theorem Queued.created (h : Queued S k xs) (hp : p ∉ xs) (entry : ℕ) :
    Queued S (created k p entry) xs := by
  have hm := h.modify (p:=p) (f:=fun _ => ⟨k.nextPid,.ready,.none,0,0,entry⟩) fun hm => absurd hm hp
  exact ⟨hm.queue,hm.nodup,hm.inserted,hm.states⟩

theorem getFreePcb_spec (h : getFreePcb k = some p) : k.state p = .unused := by
  have hp := List.find?_some h
  simpa using hp

/-- A fresh PCB has no links to clear. -/
theorem initialize_created (h : Queued S k xs) (hp : p ∉ xs) (entry : ℕ) :
    ((processInitializePcb k p).modify p fun c =>
      { c with entryPoint := entry, state := .ready }) = Sched.created k p entry := by
  simp [processInitializePcb,Sched.created,Kernel.modify,h.queue,wipe_not_mem hp]

theorem wipe_created (h : Queued S k xs) (hp : p ∉ xs) (entry : ℕ) :
    ({ Sched.created k p entry with queue := (Sched.created k p entry).queue.wipe p } : Kernel) =
      Sched.created k p entry := by
  have hq : (Sched.created k p entry).queue = ofList xs := h.queue
  rw [hq,wipe_not_mem hp,← hq]

/-- `process_create` finds no slot, fails on the way, or queues a fresh PCB. -/
theorem create_cases (w : Waiting S) (h : Queued S k xs) (entry : ℕ) (alloc : Alloc) :
    processCreate k entry alloc = (none,k) ∨ ∃ p, k.state p = .unused ∧ p ∉ xs ∧
      ((entry ≠ 0 ∧ entry < kernelBase ∧ alloc = .noUserStack) ∧
          processCreate k entry alloc = (none,created k p entry) ∨
        processCreate k entry alloc =
          (none,(created k p entry).modify p fun c => { c with state := .unused, pid := 0 }) ∨
        processCreate k entry alloc = (some p,readyQueueAdd (created k p entry) p)) := by
  cases hf : getFreePcb k with
  | none => exact Or.inl (by simp [processCreate,hf])
  | some p =>
    have hu := getFreePcb_spec hf
    have hp : p ∉ xs := h.not_mem (by rw [hu]; exact w.notUnused)
    refine Or.inr ⟨p,hu,hp,?_⟩
    simp only [processCreate,hf,initialize_created h hp,wipe_created h hp]
    split
    · rename_i hno
      exact Or.inl ⟨hno,rfl⟩
    · split
      · exact Or.inr (Or.inl rfl)
      · exact Or.inr (Or.inr rfl)

/-- `sys_exec` up to the point where the image is loaded: the child exists and is off
the queue again. -/
def loading (k : Kernel) (p : Slot) : Kernel :=
  readyQueueRemove (readyQueueAdd (created k p userCodeBase) p) p

theorem Queued.loading (w : Waiting S) (h : Queued S k xs) (hp : p ∉ xs) :
    Queued S (loading k p) xs := by
  have hadd := (h.created hp userCodeBase).add hp w.ready (by simp [w.ready])
  have hrem := hadd.remove p
  have hxs : (xs++[p]).erase p = xs := by rw [List.erase_append_right _ hp]; simp
  rwa [hxs] at hrem

@[simp] theorem loading_pool (k : Kernel) (p q : Slot) : (loading k p).pool q =
    if q = p then ⟨k.nextPid,.ready,.none,0,0,userCodeBase⟩ else k.pool q := by
  simp [loading]
@[simp] theorem loading_rest (k : Kernel) (p : Slot) :
    (loading k p).current = k.current ∧ (loading k p).procCurrent = k.procCurrent ∧
      (loading k p).nextPid = k.nextPid+1 ∧ (loading k p).kernelShell = k.kernelShell ∧
      (loading k p).halted = k.halted := by
  simp [loading]

/-- `sys_exec` gets no child, loses it to a refused image, or queues it. -/
theorem exec_cases (w : Waiting S) (h : Queued S k xs) (self : Slot) (alloc : Alloc)
    (loaded : Option ℕ) :
    sysExec k self alloc loaded = k ∨ ∃ p, k.state p = .unused ∧ p ∉ xs ∧
      (alloc = .noUserStack ∧ sysExec k self alloc loaded = created k p userCodeBase ∨
        sysExec k self alloc loaded = (created k p userCodeBase).modify p
          (fun c => { c with state := .unused, pid := 0 }) ∨
        sysExec k self alloc loaded = processDestroy (loading k p) p ∨
        ∃ entry, sysExec k self alloc loaded = readyQueueAdd
          { (loading k p).modify p fun c =>
              { c with entryPoint := entry, parentPid := (loading k p).pid self } with kbd := 0 } p) := by
  rcases create_cases w h userCodeBase alloc with he | ⟨p,hu,hp,⟨hno,he⟩ | he | he⟩
  · exact Or.inl (by simp only [sysExec,he])
  · exact Or.inr ⟨p,hu,hp,Or.inl ⟨hno.2.2,by simp only [sysExec,he]⟩⟩
  · exact Or.inr ⟨p,hu,hp,Or.inr (Or.inl (by simp only [sysExec,he]))⟩
  · refine Or.inr ⟨p,hu,hp,Or.inr (Or.inr ?_)⟩
    cases loaded with
    | none => exact Or.inl (by simp only [sysExec,he]; rfl)
    | some entry => exact Or.inr ⟨entry,by simp only [sysExec,he]; rfl⟩

theorem Queued.destroy (h : Queued S k xs) (hp : p ∉ xs) : Queued S (processDestroy k p) xs := by
  have hm := h.modify (p:=p) (f:=fun c => { c with state := .unused, pid := 0 })
    fun hm => absurd hm hp
  have hd := hm.remove p
  rw [List.erase_of_not_mem hp] at hd
  simp only [processDestroy]
  split
  · exact h
  · split
    · exact ⟨hd.queue,hd.nodup,hd.inserted,hd.states⟩
    · exact hd

theorem destroy_loading (hp : k.procCurrent ≠ some p) :
    processDestroy (loading k p) p = readyQueueRemove
      ((loading k p).modify p fun c => { c with state := .unused, pid := 0 }) p := by
  simp [processDestroy,hp]

theorem Queued.launch (w : Waiting S) (h : Queued S k xs) (hp : p ∉ xs) (self : Slot) (entry : ℕ) :
    Queued S (readyQueueAdd { (Sched.loading k p).modify p fun c =>
      { c with entryPoint := entry, parentPid := (Sched.loading k p).pid self } with kbd := 0 } p)
      (xs++[p]) := by
  have hm := (h.loading w hp).modify (p:=p)
    (f:=fun c => { c with entryPoint := entry, parentPid := (Sched.loading k p).pid self })
    fun hm => absurd hm hp
  have hm' : Queued S { (Sched.loading k p).modify p fun c => { c with entryPoint := entry, parentPid := (Sched.loading k p).pid self } with kbd := 0 } xs :=
    ⟨hm.queue,hm.nodup,hm.inserted,hm.states⟩
  exact hm'.add hp w.ready (by simp [w.ready])

theorem Queued.exec (w : Waiting S) (h : Queued S k xs) (self : Slot) (alloc : Alloc)
    (loaded : Option ℕ) : ∃ ys, Queued S (sysExec k self alloc loaded) ys := by
  rcases exec_cases w h self alloc loaded with
    he | ⟨p,-,hp,⟨-,he⟩ | he | he | ⟨entry,he⟩⟩ <;> rw [he]
  · exact ⟨xs,h⟩
  · exact ⟨xs,h.created hp _⟩
  · exact ⟨xs,(h.created hp _).modify fun hm => absurd hm hp⟩
  · exact ⟨xs,(h.loading w hp).destroy hp⟩
  · exact ⟨_,h.launch w hp self entry⟩

/-! Waking and leaving. -/

/-- `i` would be woken by a key press. -/
def Sleeping (k : Kernel) (i : Slot) : Prop :=
  some i ≠ k.kernelShell ∧ k.state i = .blocked ∧ (k.pool i).blockKind = .none

/-- `parent` waits for the exit of a process with the PCB `child`. -/
def Awaits (k : Kernel) (parent : Slot) (child : Pcb) : Prop :=
  child.parentPid ≠ 0 ∧ k.state parent = .blocked ∧ (k.pool parent).blockKind = .waitpid ∧
    k.pid parent = child.parentPid ∧
    ((k.pool parent).waitPid = anyChild ∨ (k.pool parent).waitPid = child.pid)

theorem waitingParent_spec {child parent : Slot} (h : waitingParent k child = some parent) :
    Awaits k parent (k.pool child) := by
  simp only [waitingParent] at h
  split at h
  · cases h
  · rename_i hpar
    split at h
    · cases h
    · rename_i hf
      split at h
      · cases h
      · split at h
        · cases h
        · split at h
          · cases h
          · simp only [Option.some.injEq] at h
            subst h
            rename_i h1 h2 h3
            refine ⟨hpar,not_not.mp h1,not_not.mp h2,(findByPid_spec hf).1,?_⟩
            by_contra hno
            exact h3 (not_or.mp hno)

/-- The wake routine finds every parent that waits for the exiting process. -/
theorem waitingParent_of_awaits {parent child : Slot}
    (hf : processFindByPid k (k.pid parent) = some parent)
    (ha : Awaits k parent (k.pool child)) : waitingParent k child = some parent := by
  obtain ⟨hpar,hb,hm,hpid,ht⟩ := ha
  rw [hpid] at hf
  have ht' : ¬((k.pool parent).waitPid ≠ anyChild ∧ (k.pool parent).waitPid ≠ k.pid child) :=
    fun hno => ht.elim hno.1 hno.2
  simp only [waitingParent,if_neg hpar,hf,hb,hm,ne_eq,not_true_eq_false,if_false]
  rw [if_neg ht']

theorem reclaim_eq {z : Slot} (hz : k.state z ≠ .unused) :
    processReclaim k z = k.modify z fun c => { c with state := .unused, pid := 0 } := by
  simp only [processReclaim,if_neg hz]

theorem Queued.reclaim (h : Queued S k xs) (hp : p ∉ xs) : Queued S (processReclaim k p) xs := by
  simp only [processReclaim]
  split
  · exact h
  · exact h.modify fun hm => absurd hm hp

@[simp] theorem retire_pool (k : Kernel) (p q : Slot) : (retire k p).pool q =
    if q = p then { k.pool p with state := .terminated } else k.pool q := by
  simp only [retire]; split <;> simp
@[simp] theorem retire_rest (k : Kernel) (p : Slot) :
    (retire k p).current = k.current ∧ (retire k p).nextPid = k.nextPid ∧
      (retire k p).kernelShell = k.kernelShell ∧ (retire k p).halted = k.halted := by
  simp only [retire]; split <;> simp

theorem Queued.retire (h : Queued S k xs) (p : Slot) : Queued S (retire k p) (xs.erase p) := by
  have hx : p ∉ xs.erase p := fun hm => (h.nodup.mem_erase_iff.mp hm).1 rfl
  have hrem : Queued S (readyQueueRemove (k.setState p .terminated) p) (xs.erase p) :=
    (h.remove p).modify (p:=p) (f:=fun c => { c with state := .terminated })
      fun hm => absurd hm hx
  simp only [Sched.retire]
  split
  · exact ⟨hrem.queue,hrem.nodup,hrem.inserted,hrem.states⟩
  · exact hrem

/-- The child `c` is one that `p` waits for. -/
structure Matching (k : Kernel) (p : Slot) (target : ℕ) (c : Slot) : Prop where
  used : k.state c ≠ .unused
  parent : (k.pool c).parentPid = k.pid p
  target : target = anyChild ∨ k.pid c = target

theorem scanChildren_found {target pid : ℕ} {live : Bool}
    (hf : processFindByPid k pid = some c) : scanChildren k self target (pid::pids) live =
      if (k.pool c).parentPid = k.pid self ∧ (target = anyChild ∨ k.pid c = target) then
        if k.state c = .zombie then (some c,live) else scanChildren k self target pids true
      else scanChildren k self target pids live := by
  have hu := (findByPid_spec hf).2
  simp only [scanChildren,hf]
  by_cases hpar : (k.pool c).parentPid = k.pid self
  · by_cases ht : target = anyChild ∨ k.pid c = target
    · have ht' : ¬(target ≠ anyChild ∧ k.pid c ≠ target) := by tauto
      simp [hpar,ht,ht',hu]
    · have ht' : target ≠ anyChild ∧ k.pid c ≠ target := by tauto
      simp [hpar,ht']
  · simp [hpar]

/-- What the scan returns is a zombie among the children waited for. -/
theorem scanChildren_some {target : ℕ} {live b : Bool} {z : Slot}
    (h : scanChildren k self target pids live = (some z,b)) :
    k.state z = .zombie ∧ Matching k self target z ∧ k.pid z ∈ pids := by
  induction pids generalizing live with
  | nil => simp [scanChildren] at h
  | cons pid pids ih =>
    have hrest : ∀ live, scanChildren k self target pids live = (some z,b) →
        k.state z = .zombie ∧ Matching k self target z ∧ k.pid z ∈ pid::pids := fun live h => by
      obtain ⟨hz,hm,hp⟩ := ih h
      exact ⟨hz,hm,List.mem_cons_of_mem pid hp⟩
    cases hf : processFindByPid k pid with
    | none =>
      simp only [scanChildren,hf] at h
      exact hrest live h
    | some c =>
      rw [scanChildren_found hf] at h
      split_ifs at h with hm hz
      · obtain rfl : c = z := Option.some.inj (congrArg Prod.fst h)
        obtain ⟨hpid,hu⟩ := findByPid_spec hf
        exact ⟨hz,⟨hu,hm.1,hm.2⟩,by simp [hpid]⟩
      · exact hrest true h
      · exact hrest live h

/-- When it returns none, no child waited for is a zombie, and the flag says whether there is
any; the pid of a process has to lead to that process. -/
theorem scanChildren_none {target : ℕ} {live b : Bool}
    (hfind : ∀ c, k.state c ≠ .unused → k.pid c ∈ pids → processFindByPid k (k.pid c) = some c)
    (h : scanChildren k self target pids live = (none,b)) :
    (∀ c, Matching k self target c → k.pid c ∈ pids → k.state c ≠ .zombie) ∧
      (b = true ↔ live = true ∨ ∃ c, Matching k self target c ∧ k.pid c ∈ pids) := by
  induction pids generalizing live with
  | nil =>
    obtain rfl : live = b := congrArg Prod.snd h
    simp
  | cons pid pids ih =>
    replace ih := fun {l : Bool} => @ih l fun c hu hp => hfind c hu (List.mem_cons_of_mem pid hp)
    cases hf : processFindByPid k pid with
    | none =>
      have hno : ∀ c, Matching k self target c → k.pid c ≠ pid := by
        rintro c hc rfl
        rw [hfind c hc.used List.mem_cons_self] at hf
        cases hf
      simp only [scanChildren,hf] at h
      obtain ⟨hz,hb⟩ := ih h
      refine ⟨fun c hc hp => hz c hc ((List.mem_cons.mp hp).resolve_left (hno c hc)),?_⟩
      rw [hb]
      refine or_congr_right (exists_congr fun c => and_congr_right fun hc => ?_)
      simp [hno c hc]
    | some d =>
      obtain ⟨hpid,hu⟩ := findByPid_spec hf
      have honly : ∀ c, Matching k self target c → k.pid c = pid → c = d := by
        rintro c hc rfl
        rw [hfind c hc.used List.mem_cons_self] at hf
        exact Option.some.inj hf
      rw [scanChildren_found hf] at h
      split_ifs at h with hm hz
      · cases congrArg Prod.fst h
      · obtain ⟨hz',hb⟩ := ih h
        refine ⟨fun c hc hp => ?_,iff_of_true (hb.mpr (Or.inl rfl)) (Or.inr ⟨d,⟨hu,hm.1,hm.2⟩,by simp [hpid]⟩)⟩
        rcases List.mem_cons.mp hp with he | hp
        · rw [honly c hc he]
          exact hz
        · exact hz' c hc hp
      · have hno : ∀ c, Matching k self target c → k.pid c ≠ pid := fun c hc he =>
          hm (honly c hc he ▸ ⟨hc.parent,hc.target⟩)
        obtain ⟨hz,hb⟩ := ih h
        refine ⟨fun c hc hp => hz c hc ((List.mem_cons.mp hp).resolve_left (hno c hc)),?_⟩
        rw [hb]
        refine or_congr_right (exists_congr fun c => and_congr_right fun hc => ?_)
        simp [hno c hc]

/-- A pass of `sys_waitpid` returns, possibly after reaping a zombie, or goes to sleep. -/
theorem waitScan_cases (k : Kernel) (self : Slot) (pid : ℤ) (nohang : Bool) :
    waitScan k self pid nohang = .returns k ∨
      (∃ z, k.state z = .zombie ∧ waitScan k self pid nohang = .returns (processReclaim k z)) ∨
      (∃ live, scanChildren k self (waitTarget pid) (List.range' 1 999) false = (none,live)) ∧
        waitScan k self pid nohang = .sleeps (waitTarget pid) := by
  cases hs : scanChildren k self (waitTarget pid) (List.range' 1 999) false with
  | mk z live =>
    cases z with
    | some z =>
      exact Or.inr (Or.inl ⟨z,(scanChildren_some hs).1,by simp only [waitScan,hs]⟩)
    | none =>
      by_cases hl : live = false ∨ nohang = true
      · exact Or.inl (by simp only [waitScan,hs,if_pos hl])
      · exact Or.inr (Or.inr ⟨⟨live,rfl⟩,by simp only [waitScan,hs,if_neg hl]⟩)

end Sched
end DonsOs
