import DonsOs.Sched.Queue

/-! Who gets the CPU.
A switch is described once, by what it does to the queue, to the states and to the two
`current_process` variables; every function that dispatches is then a case of it.  An exit is
described in two steps, by the PCB it gives up and by the switch that follows. -/
namespace DonsOs
namespace Sched

open LinkedQueue

@[simp] theorem add_inserted (k : Kernel) (p : Slot) :
    (readyQueueAdd k p).inserted = Function.update k.inserted p true := by
  simp only [readyQueueAdd]; split <;> rfl
@[simp] theorem remove_inserted (k : Kernel) (p : Slot) :
    (readyQueueRemove k p).inserted = Function.update k.inserted p false := rfl
@[simp] theorem created_inserted (k : Kernel) (p : Slot) (entry : ℕ) :
    (created k p entry).inserted = k.inserted := rfl
@[simp] theorem loading_inserted (k : Kernel) (p : Slot) :
    (loading k p).inserted = Function.update k.inserted p false := by
  simp [loading]

variable {S : ProcState → Prop} {k k' : Kernel} {xs ys : List Slot} {c next : Slot}

/-- From `k` with the queue `xs` the CPU has gone to `next`, and the queue is now `ys`. -/
structure Handover (S : ProcState → Prop) (k k' : Kernel) (xs : List Slot) (next : Slot)
    (ys : List Slot) : Prop where
  queued : Queued S k' ys
  current : k'.current = some next
  procCurrent : k'.procCurrent = some next
  frame : ∀ q, k'.pool q = { k.pool q with state := k'.state q }
  running : k'.state next = .running
  others : ∀ q, q ≠ next → k'.state q = k.state q ∨
    k.current = some q ∧ k.state q = .running ∧ k'.state q = .ready
  joined : ∀ q ∈ ys, q ∈ xs ∨ k.current = some q ∧ k.state q = .running ∧ k.pid q ≠ 1
  kept : ∀ q ∈ xs, q ≠ next → q ∈ ys
  requeued : ∀ q, k.current = some q → q ≠ next → k.state q = .running → k.pid q ≠ 1 → q ∈ ys
  nextPid : k'.nextPid = k.nextPid
  kernelShell : k'.kernelShell = k.kernelShell
  halted : k'.halted = k.halted

theorem Handover.pid (h : Handover S k k' xs next ys) (q : Slot) : k'.pid q = k.pid q := by
  simp only [Kernel.pid]
  rw [h.frame q]

theorem dispatch_handover (w : Waiting S) (h : Queued S k xs) (hn : k.pid next = 1 → next ∉ xs)
    (hc : k.current ≠ some next) :
    Handover S k (dispatch k next) xs next (xs.erase next++outgoing k) where
  queued := h.dispatch w hn hc
  current := by simp
  procCurrent := by simp
  frame q := by
    simp only [Kernel.state,dispatch_pool hc]
    split
    · rename_i hq
      simp [hq]
    · split <;> simp
  running := by simp [dispatch_pool hc]
  others q hq := by
    simp only [Kernel.state,dispatch_pool hc,if_neg hq]
    split
    · rename_i hr
      exact Or.inr ⟨hr.1,hr.2,rfl⟩
    · exact Or.inl rfl
  joined q hq := by
    rcases List.mem_append.mp hq with hq | hq
    · exact Or.inl (List.mem_of_mem_erase hq)
    · exact Or.inr (by simpa [outgoing,List.mem_filter,Option.mem_toList] using hq)
  kept q hq hne := List.mem_append_left _ ((List.mem_erase_of_ne hne).mpr hq)
  requeued q hq _ hr hp := List.mem_append_right _
    (by simpa [outgoing,List.mem_filter,Option.mem_toList] using ⟨hq,hr,hp⟩)
  nextPid := by simp
  kernelShell := by simp
  halted := by simp

theorem switchTo_handover (w : Waiting S) (h : Queued S k xs) (hn : k.pid next = 1 → next ∉ xs) :
    schedulerSwitchTo k next = k ∨ ∃ ys, Handover S k (schedulerSwitchTo k next) xs next ys := by
  rcases switchTo_cases k next with he | ⟨hc,he⟩
  · exact Or.inl he
  · exact Or.inr ⟨_,by rw [he]; exact dispatch_handover w h hn hc⟩

theorem preemptTo_handover (w : Waiting S) (h : Queued S k ys) (hc : k.current = some c)
    (hn : next ∉ ys) (hne : k.state c = .running → next ≠ c) :
    Handover S k (preemptTo k c next) ys next
      (ys++if k.pid c ≠ 1 ∧ k.state c = .running then [c] else []) where
  queued := h.preemptTo w hn hne
  current := rfl
  procCurrent := rfl
  frame q := by
    simp only [Kernel.state,preemptTo_pool]
    split
    · rename_i hq
      simp [hq]
    · split
      · rename_i hq
        simp [hq.1]
      · simp
  running := by simp [preemptTo_pool]
  others q hq := by
    simp only [Kernel.state,preemptTo_pool,if_neg hq]
    split
    · rename_i hr
      exact Or.inr ⟨by rw [hc,hr.1],hr.1 ▸ hr.2.2,rfl⟩
    · exact Or.inl rfl
  joined q hq := by
    rcases List.mem_append.mp hq with hq | hq
    · exact Or.inl hq
    · split at hq
      · rename_i hr
        rw [List.mem_singleton.mp hq]
        exact Or.inr ⟨hc,hr.2,hr.1⟩
      · cases hq
  kept q hq _ := List.mem_append_left _ hq
  requeued q hq _ hr hp := by
    obtain rfl : c = q := Option.some.inj (hc.symm.trans hq)
    exact List.mem_append_right _ (by simp only [if_pos (show k.pid c ≠ 1 ∧ k.state c = .running from ⟨hp,hr⟩),List.mem_singleton])
  nextPid := by simp
  kernelShell := by simp
  halted := by simp

/-- Taking `x` off the queue first makes no difference but to the queue. -/
theorem Handover.of_popped {x : Slot} (h : Handover S (popped k x ys) k' ys x xs) :
    Handover S k k' (x::ys) x xs :=
  { h with
    joined := fun q hq => (h.joined q hq).imp (List.mem_cons_of_mem x) id
    kept := fun q hq hne => h.kept q ((List.mem_cons.mp hq).resolve_left hne) hne }

theorem tick_handover (w : Waiting S) (h : Queued S k xs) (hsame : k.procCurrent = k.current)
    (u : Bool) :
    timerPreemptHandler k u = k ∨ ∃ next ys, Handover S k (timerPreemptHandler k u) xs next ys ∧
      (next ∈ xs ∨ processFindByPid k 1 = some next) := by
  rcases tick_cases h u with he | ⟨c,hc,⟨next,ys,rfl,he⟩ | ⟨rfl,hp,idle,hi,he⟩⟩
  · exact Or.inl he
  · rw [hsame] at hc
    obtain ⟨-,hq,hx⟩ := h.next_cons
    have hne : k.state c = .running → next ≠ c := by
      rintro hr rfl
      exact w.notRunning (hr ▸ h.states next (by simp))
    have hpre := preemptTo_handover (k:=popped k next ys) w hq hc hx hne
    exact Or.inr ⟨next,_,by rw [he]; exact hpre.of_popped,Or.inl (by simp)⟩
  · rw [hsame] at hc
    have hne : idle ≠ c := fun e => hp (e ▸ (findByPid_spec hi).1)
    exact Or.inr ⟨idle,_,by rw [he]; exact preemptTo_handover w h hc (by simp) fun _ => hne,
      Or.inr hi⟩

/-- A process that finds nobody ahead of it keeps the CPU, `READY` if it was running. -/
structure Alone (S : ProcState → Prop) (k k' : Kernel) (xs : List Slot) (c : Slot)
    (ys : List Slot) : Prop where
  queued : Queued S k' ys
  ahead : ∀ x, k.queue.head = some x → x = c
  joined : ∀ q ∈ ys, q ∈ xs ∨ q = c
  kept : ∀ q ∈ xs, q ≠ c → q ∈ ys
  current : k'.current = k.current
  procCurrent : k'.procCurrent = k.procCurrent
  others : ∀ q, q ≠ c → k'.pool q = k.pool q
  pool : k'.pool c = { k.pool c with state := k'.state c }
  state : k'.state c = k.state c ∨ k.state c = .running ∧ k'.state c = .ready
  nextPid : k'.nextPid = k.nextPid
  kernelShell : k'.kernelShell = k.kernelShell
  halted : k'.halted = k.halted

theorem Alone.pid (h : Alone S k k' xs c ys) (q : Slot) : k'.pid q = k.pid q := by
  by_cases hq : q = c
  · simp only [Kernel.pid,hq]
    rw [h.pool]
  · simp only [Kernel.pid,h.others q hq]

/-- With the queue empty, a process that cannot go on gives way to idle. -/
theorem yield_idle (w : Waiting S) (h : Queued S k []) (hc : k.current = some c)
    (hp : k.pid c ≠ 1) (hr : k.state c ≠ .running) :
    processYield k = k ∨ Alone S k (processYield k) [] c [c] ∨
      ∃ next ys, Handover S k (processYield k) [] next ys ∧ processFindByPid k 1 = some next := by
  simp only [processYield,hc,if_neg hp,if_neg hr,h.next_nil]
  split
  · rename_i hready
    have hadd := h.add (p:=c) (by simp) w.ready (by simp [hready,w.ready])
    simp only [Kernel.state] at hready
    refine Or.inr (Or.inl ?_)
    have hpool (q : Slot) : (readyQueueAdd k c).pool q = k.pool q := by simp [hready]
    simp only [schedulerSwitchTo,add_current,hc,if_true]
    exact ⟨hadd,by simp [h.queue,ofList],by simp,by simp,by simp,by simp,fun q _ => hpool q,by simp only [Kernel.state,hpool],
      Or.inl (by simp only [Kernel.state,hpool]),by simp,by simp,by simp⟩
  · cases hi : processFindByPid k 1 with
    | none => exact Or.inl rfl
    | some idle =>
      have hsw : schedulerSwitchTo k idle = k ∨
          ∃ ys, Handover S k (schedulerSwitchTo k idle) [] idle ys := switchTo_handover w h (by simp)
      rcases hsw with he | ⟨ys,hy⟩
      · exact Or.inl he
      · exact Or.inr (Or.inr ⟨idle,ys,hy,rfl⟩)

theorem dispatch_requeued (w : Waiting S) (h : Queued S k xs) (hc : k.current = some c)
    {x : Slot} {zs : List Slot} (hz : xs++outgoing k = x::zs) (hx : x ≠ c) :
    Handover S k (dispatch (popped (requeue k c) x zs) x) xs x zs := by
  have hre := h.requeue_current w hc
  rw [hz] at hre
  obtain ⟨-,hq,hxz⟩ := hre.next_cons
  have hcur : (popped (requeue k c) x zs).current = some c := by simp [hc]
  have hst : (popped (requeue k c) x zs).state c ≠ .running := by
    by_cases hr : (k.pool c).state = .running <;> simp [hr]
  have hout : outgoing (popped (requeue k c) x zs) = [] := by
    simp only [outgoing,hcur,Option.toList_some]
    exact List.filter_cons_of_neg (by simp only [hst]; simp)
  have hd : Handover S _ (dispatch (popped (requeue k c) x zs) x) zs x _ :=
    dispatch_handover w hq (fun _ => hxz) (by rw [hcur]; simpa using Ne.symm hx)
  rw [hout,List.append_nil,List.erase_of_not_mem hxz] at hd
  have hmem (q : Slot) : q ∈ x::zs ↔ q ∈ xs ∨ q ∈ outgoing k := by rw [← hz,List.mem_append]
  have hback (q : Slot) : q ∈ outgoing k ↔
      k.current = some q ∧ k.state q = .running ∧ k.pid q ≠ 1 := by
    simp [outgoing,List.mem_filter,Option.mem_toList]
  refine ⟨hd.queued,hd.current,hd.procCurrent,fun q => ?_,hd.running,fun q hqx => ?_,fun q hm => ?_,
    fun q hm hqx => ?_,fun q hq hqx hr hp => ?_,?_,?_,?_⟩
  · have hf := hd.frame q
    simp only [popped_pool,requeue_pool] at hf
    split at hf
    · rename_i hr
      rw [hr.1] at hf ⊢
      exact hf
    · exact hf
  · rcases hd.others q hqx with he | ⟨hq,hr,-⟩
    · rw [he]
      simp only [Kernel.state,popped_pool,requeue_pool]
      split
      · rename_i hr
        exact Or.inr ⟨by rw [hc,hr.1],hr.1 ▸ hr.2,rfl⟩
      · exact Or.inl rfl
    · rw [hcur] at hq
      exact absurd (Option.some.inj hq ▸ hr) hst
  · exact ((hmem q).mp (List.mem_cons_of_mem x hm)).imp_right (hback q).mp
  · exact (List.mem_cons.mp ((hmem q).mpr (Or.inl hm))).resolve_left hqx
  · exact (List.mem_cons.mp ((hmem q).mpr (Or.inr ((hback q).mpr ⟨hq,hr,hp⟩)))).resolve_left hqx
  · simp
  · simp
  · simp

theorem yield_handover (w : Waiting S) (h : Queued S k xs) :
    processYield k = k ∨ ∃ c, k.current = some c ∧ k.pid c ≠ 1 ∧
      ((∃ ys, Alone S k (processYield k) xs c ys) ∨
        ∃ next ys, Handover S k (processYield k) xs next ys ∧
          (next ∈ xs ∨ processFindByPid k 1 = some next)) := by
  cases hc : k.current with
  | none => exact Or.inl (by simp [processYield,hc])
  | some c =>
    by_cases hp : k.pid c = 1
    · exact Or.inl (by simp [processYield,hc,hp])
    cases hz : xs++outgoing k with
    | nil =>
      obtain ⟨rfl,hout⟩ := List.append_eq_nil_iff.mp hz
      have hr : k.state c ≠ .running := by
        intro hr
        simp [outgoing,hc,hr,hp] at hout
      rcases yield_idle w h hc hp hr with he | ha | ⟨next,ys,hh,hi⟩
      · exact Or.inl he
      · exact Or.inr ⟨c,rfl,hp,Or.inl ⟨_,ha⟩⟩
      · exact Or.inr ⟨c,rfl,hp,Or.inr ⟨next,ys,hh,Or.inr hi⟩⟩
    | cons x zs =>
      refine Or.inr ⟨c,rfl,hp,?_⟩
      have hre := h.requeue_current w hc
      rw [hz] at hre
      obtain ⟨hpop,hq,hx⟩ := hre.next_cons
      have hy : processYield k = schedulerSwitchTo (popped (requeue k c) x zs) x := by
        simp only [processYield,hc,if_neg hp,← requeue_of_ne hp,hpop]
      have hcur : (popped (requeue k c) x zs).current = some c := by simp [hc]
      have hst : (popped (requeue k c) x zs).state c ≠ .running := by
        by_cases hr : (k.pool c).state = .running <;> simp [hr]
      by_cases hxc : x = c
      · refine Or.inl ⟨zs,?_⟩
        rw [hy,schedulerSwitchTo,if_pos (by rw [hcur,hxc])]
        refine ⟨hq,fun y hy => ?_,fun q hqm => ?_,fun q hqm hqc => ?_,by simp,by simp,fun q hqc => by simp [hqc],?_,?_,
          by simp,by simp,by simp⟩
        · have hhead : xs.head? = some y := by simpa [h.queue,ofList] using hy
          cases xs with
          | nil => simp at hhead
          | cons z xs =>
            obtain rfl : z = y := by simpa using hhead
            simp only [List.cons_append,List.cons.injEq] at hz
            rw [hz.1,hxc]
        · have hmem : q ∈ xs++outgoing k := by rw [hz]; exact List.mem_cons_of_mem x hqm
          refine (List.mem_append.mp hmem).imp_right fun hm => ?_
          simp only [outgoing,hc,List.mem_filter,Option.toList_some,List.mem_singleton] at hm
          exact hm.1
        · have hmem : q ∈ x::zs := by rw [← hz]; exact List.mem_append_left _ hqm
          exact (List.mem_cons.mp hmem).resolve_left (by rwa [hxc])
        all_goals by_cases hr : (k.pool c).state = .running <;> simp [hr]
      · have hm : x ∈ xs := by
          have hmem : x ∈ xs++outgoing k := by rw [hz]; simp
          rcases List.mem_append.mp hmem with hm | hm
          · exact hm
          · simp [outgoing,hc,List.mem_filter] at hm
            exact absurd hm.1 hxc
        refine Or.inr ⟨x,zs,?_,Or.inl hm⟩
        rw [hy,schedulerSwitchTo,if_neg (by rw [hcur]; simpa using Ne.symm hxc),
          if_neg (by rw [hcur]; simp only [Option.any_some,decide_eq_true_eq]; exact fun h => hst h.2)]
        exact dispatch_requeued w h hc hz hxc

/-! Exits. -/

/-- The exit of `c`: what is left of its PCB, and the parent that is woken and joins the
queue. -/
structure Left (k k' : Kernel) (c : Slot) (xs ys : List Slot) : Prop where
  self : (k.pool c).parentPid ≠ 0 ∧ k'.pool c = { k.pool c with state := .zombie } ∨
    (k.pool c).parentPid = 0 ∧ k'.pool c = { k.pool c with state := .unused, pid := 0 }
  others : ∀ q, q ≠ c → k'.pool q = k.pool q ∨ Awaits k q (k.pool c) ∧ q ∈ ys ∧
    k'.pool q = { k.pool q with state := .ready, blockKind := .none, waitPid := 0 }
  current : k'.current = k.current
  nextPid : k'.nextPid = k.nextPid
  kernelShell : k'.kernelShell = k.kernelShell
  halted : k'.halted = k.halted
  joined : ∀ q ∈ ys, q ∈ xs ∧ q ≠ c ∨ Awaits k q (k.pool c) ∧ q ≠ c
  kept : ∀ q ∈ xs, q ≠ c → q ∈ ys
  woken : ∀ q, (k.pool c).parentPid ≠ 0 →
    waitingParent ((retire k c).setState c .zombie) c = some q → q ∈ ys

theorem leave_orphan_pool {k : Kernel} (h : (k.pool c).parentPid = 0) (q : Slot) :
    (leave k c).pool q =
      if q = c then { k.pool c with state := .unused, pid := 0 } else k.pool q := by
  by_cases hq : q = c <;> simp [leave,processReclaim,h,hq]

theorem leave_left (w : Waiting S) (h : Queued S k xs)
    (hp : ∀ parent, Awaits k parent (k.pool c) → parent ∉ xs) :
    ∃ ys, Queued S (leave k c) ys ∧ Left k (leave k c) c xs ys := by
  have hx : c ∉ xs.erase c := fun hm => (h.nodup.mem_erase_iff.mp hm).1 rfl
  have hmem (q : Slot) : q ∈ xs.erase c ↔ q ≠ c ∧ q ∈ xs := h.nodup.mem_erase_iff
  have hq := h.retire c
  by_cases hpar : (k.pool c).parentPid = 0
  · have he : leave k c = processReclaim (retire k c) c := by simp [leave,hpar]
    refine ⟨xs.erase c,by rw [he]; exact hq.reclaim hx,⟨Or.inr ⟨hpar,?_⟩,fun q hqc => Or.inl ?_,?_,?_,?_,?_,
      fun q hm => Or.inl ⟨((hmem q).mp hm).2,((hmem q).mp hm).1⟩,fun q hm hne => (hmem q).mpr ⟨hne,hm⟩,
      fun q hno => absurd hpar hno⟩⟩
    · rw [leave_orphan_pool hpar,if_pos rfl]
    · rw [leave_orphan_pool hpar,if_neg hqc]
    all_goals simp [he,processReclaim]
  · have he : leave k c = processWakeParentIfWaiting ((retire k c).setState c .zombie) c := by
      simp [leave,hpar]
    have hz : Queued S ((retire k c).setState c .zombie) (xs.erase c) :=
      hq.modify fun hm => absurd hm hx
    cases hw : waitingParent ((retire k c).setState c .zombie) c with
    | none =>
      rw [he,processWakeParentIfWaiting,hw]
      refine ⟨xs.erase c,hz,⟨Or.inl ⟨hpar,by simp⟩,fun q hqc => Or.inl (by simp [hqc]),?_,?_,?_,?_,
        fun q hm => Or.inl ⟨((hmem q).mp hm).2,((hmem q).mp hm).1⟩,fun q hm hne => (hmem q).mpr ⟨hne,hm⟩,
        fun q _ hq => by cases hw.symm.trans hq⟩⟩
      all_goals simp
    | some parent =>
      have ha := waitingParent_spec hw
      have hne : parent ≠ c := by
        rintro rfl
        simp [Awaits] at ha
      have hak : Awaits k parent (k.pool c) := by simpa [Awaits,hne] using ha
      have hoff : parent ∉ xs.erase c := fun hm => hp parent hak ((hmem parent).mp hm).2
      have hset := hz.modify (p:=parent)
        (f:=fun d => { d with state := .ready, blockKind := .none, waitPid := 0 })
        fun hm => absurd hm hoff
      rw [he,processWakeParentIfWaiting,hw]
      refine ⟨xs.erase c++[parent],hset.add hoff w.ready (by simp [w.ready]),
        ⟨Or.inl ⟨hpar,by simp [Ne.symm hne]⟩,fun q hqc => ?_,?_,?_,?_,?_,fun q hm => ?_,
        fun q hm hqc => List.mem_append_left _ ((hmem q).mpr ⟨hqc,hm⟩),
        fun q _ hq => List.mem_append_right _
          (List.mem_singleton.mpr (Option.some.inj (hq.symm.trans hw)))⟩⟩
      · by_cases hqp : q = parent
        · exact Or.inr ⟨hqp ▸ hak,by simp [hqp],by simp [hqp,hne]⟩
        · exact Or.inl (by simp [hqc,hqp])
      any_goals simp
      rcases List.mem_append.mp hm with hm | hm
      · exact Or.inl ⟨((hmem q).mp hm).2,((hmem q).mp hm).1⟩
      · rw [List.mem_singleton.mp hm]
        exact Or.inr ⟨hak,hne⟩

theorem popRun_handover {x : Slot} (h : Queued S k (x::ys))
    (hc : ∀ c, k.current = some c → k.state c ≠ .running) :
    Handover S k ((schedulerSetCurrent (popped k x ys) x).setState x .running) (x::ys) x ys := by
  obtain ⟨-,hq,hx⟩ := h.next_cons
  have hset := hq.modify (p:=x) (f:=fun d => { d with state := .running }) fun hm => absurd hm hx
  refine ⟨⟨hset.queue,hset.nodup,hset.inserted,hset.states⟩,rfl,rfl,fun q => ?_,?_,fun q hqx => ?_,
    fun q hm => Or.inl (List.mem_cons_of_mem x hm),
    fun q hm hqx => (List.mem_cons.mp hm).resolve_left hqx,
    fun q hq _ hr _ => absurd hr (hc q hq),rfl,rfl,rfl⟩
  · by_cases hqx : q = x <;> simp [schedulerSetCurrent,hqx]
  · simp [schedulerSetCurrent]
  · exact Or.inl (by simp [schedulerSetCurrent,hqx])

theorem Queued.reset (h : Queued S k []) : Queued S (schedulerReset k) [] :=
  ⟨by simp [schedulerReset,h.queue,Links.reset,ofList],by simp,by simp [schedulerReset],by simp⟩

/-- With nothing to run the machine halts, unless a suspended kernel shell takes over. -/
theorem resume_handover (w : Waiting S) (h : Queued S k []) (c : Slot) :
    (¬(kernelBase ≤ (k.pool c).entryPoint ∧ ∃ shell, k.kernelShell = some shell ∧
        k.state shell = .blocked) ∧
      resumeKernelShell k c = { schedulerReset k with halted := true }) ∨
      ∃ shell, k.kernelShell = some shell ∧ k.state shell = .blocked ∧
        Handover S (schedulerReset k) (resumeKernelShell k c) [] shell [] := by
  simp only [resumeKernelShell]
  split
  · split
    · rename_i shell hs
      split
      · rename_i hb
        refine Or.inr ⟨shell,hs,hb,?_⟩
        have hset : Queued S ((schedulerReset k).setState shell .running) [] :=
          h.reset.modify (by simp)
        have hd : Handover S _ (dispatch ((schedulerReset k).setState shell .running) shell) []
            shell _ := dispatch_handover w hset (by simp) (by simp [schedulerReset])
        have he : schedulerSwitchTo ((schedulerReset k).setState shell .running) shell =
            dispatch ((schedulerReset k).setState shell .running) shell := by
          simp [schedulerSwitchTo,schedulerReset]
        rw [he]
        refine ⟨hd.queued,hd.current,hd.procCurrent,fun q => ?_,hd.running,fun q hq => ?_,
          by simp,by simp,by simp [schedulerReset],?_,?_,?_⟩
        · have hf := hd.frame q
          by_cases hq : q = shell
          · subst hq
            rw [hf]
            simp [schedulerReset]
          · rw [hf]
            simp [schedulerReset,hq]
        · rcases hd.others q hq with ho | ⟨hno,-⟩
          · exact Or.inl (by rw [ho]; simp [schedulerReset,hq])
          · simp [schedulerReset] at hno
        all_goals simp
      · rename_i hs _ hb
        refine Or.inl ⟨?_,rfl⟩
        rintro ⟨-,shell,hs',hb'⟩
        exact hb (Option.some.inj (hs'.symm.trans hs) ▸ hb')
    · rename_i hs
      refine Or.inl ⟨?_,rfl⟩
      rintro ⟨-,shell,hs',-⟩
      cases hs'.symm.trans hs
  · rename_i hk
    exact Or.inl ⟨fun h => hk h.1,rfl⟩

theorem exit_handover (w : Waiting S) (h : Queued S k xs) (hc : k.current = some c)
    (hp : ∀ parent, Awaits k parent (k.pool c) → parent ∉ xs) :
    ∃ ys, Queued S (leave k c) ys ∧ Left k (leave k c) c xs ys ∧
      ((∃ next zs, ys = next::zs ∧ Handover S (leave k c) (processExit k) ys next zs) ∨
        ys = [] ∧ ((¬(kernelBase ≤ (k.pool c).entryPoint ∧ ∃ shell, k.kernelShell = some shell ∧
              (leave k c).state shell = .blocked) ∧
            processExit k = { schedulerReset (leave k c) with halted := true }) ∨
          ∃ shell, k.kernelShell = some shell ∧ (leave k c).state shell = .blocked ∧
            Handover S (schedulerReset (leave k c)) (processExit k) [] shell [])) := by
  obtain ⟨ys,hy,hl⟩ := leave_left w h hp
  refine ⟨ys,hy,hl,?_⟩
  simp only [processExit,hc]
  cases ys with
  | nil =>
    rw [hy.next_nil]
    have hr := resume_handover w hy c
    have hentry : ((leave k c).pool c).entryPoint = (k.pool c).entryPoint := by
      rcases hl.self with ⟨-,he⟩ | ⟨-,he⟩ <;> rw [he]
    rw [hl.kernelShell,hentry] at hr
    exact Or.inr ⟨rfl,hr⟩
  | cons x ys =>
    rw [hy.next_cons.1]
    refine Or.inl ⟨x,ys,rfl,popRun_handover hy fun d hd => ?_⟩
    rw [hl.current,hc] at hd
    obtain rfl := Option.some.inj hd
    rcases hl.self with ⟨-,he⟩ | ⟨-,he⟩ <;> simp [he]

/-! Keys. -/

/-- What a key press does to the sleepers of `is`. -/
structure Woken (S : ProcState → Prop) (k k' : Kernel) (is xs ys : List Slot) : Prop where
  queued : Queued S k' ys
  pool : ∀ q, k'.pool q = k.pool q ∧ (q ∈ is → ¬Sleeping k q) ∨
    Sleeping k q ∧ q ∈ ys ∧ k'.pool q = { k.pool q with state := .ready }
  joined : ∀ q ∈ ys, q ∈ xs ∨ Sleeping k q
  kept : ∀ q ∈ xs, q ∈ ys
  current : k'.current = k.current
  procCurrent : k'.procCurrent = k.procCurrent
  nextPid : k'.nextPid = k.nextPid
  kernelShell : k'.kernelShell = k.kernelShell
  halted : k'.halted = k.halted

theorem wakeAll_woken (w : Waiting S) {is : List Slot} (hnd : is.Nodup) (h : Queued S k xs)
    (hi : ∀ i ∈ is, Sleeping k i → i ∉ xs) : ∃ ys, Woken S k (is.foldl wakeBlocked k) is xs ys := by
  induction is generalizing k xs with
  | nil =>
    exact ⟨xs,h,fun q => Or.inl ⟨rfl,by simp⟩,fun q hq => Or.inl hq,fun q hq => hq,rfl,rfl,rfl,rfl,rfl⟩
  | cons i is ih =>
    obtain ⟨hni,hnd⟩ := List.nodup_cons.mp hnd
    by_cases hs : Sleeping k i
    · have hx := hi i (by simp) hs
      have hset : Queued S (k.setState i .ready) xs := h.modify fun hm => absurd hm hx
      have hq := hset.add hx w.ready (by simp [w.ready])
      have he : wakeBlocked k i = readyQueueAdd (k.setState i .ready) i := by
        simp only [wakeBlocked,if_neg hs.1,if_pos hs.2]
      have hpool (q : Slot) : (readyQueueAdd (k.setState i .ready) i).pool q =
          if q = i then { k.pool i with state := .ready } else k.pool q := by simp
      have hsl (j : Slot) (hj : j ≠ i) :
          Sleeping (readyQueueAdd (k.setState i .ready) i) j ↔ Sleeping k j := by
        simp [Sleeping,hj]
      obtain ⟨ys,hy⟩ := ih hnd hq fun j hj hsj hm => by
        have hji : j ≠ i := fun e => hni (e ▸ hj)
        rcases List.mem_append.mp hm with hm | hm
        · exact hi j (by simp [hj]) ((hsl j hji).mp hsj) hm
        · exact hji (List.mem_singleton.mp hm)
      rw [List.foldl_cons,he]
      refine ⟨ys,hy.queued,fun q => ?_,fun q hm => ?_,fun q hm => hy.kept q (by simp [hm]),
        by rw [hy.current]; simp,by rw [hy.procCurrent]; simp,by rw [hy.nextPid]; simp,
        by rw [hy.kernelShell]; simp,by rw [hy.halted]; simp⟩
      · by_cases hqi : q = i
        · subst hqi
          refine Or.inr ⟨hs,hy.kept q (by simp),?_⟩
          rcases hy.pool q with ⟨hp,-⟩ | ⟨hb,-⟩
          · rw [hp,hpool,if_pos rfl]
          · simp [Sleeping] at hb
        · rcases hy.pool q with ⟨hp,hno⟩ | ⟨hb,hm,hp⟩
          · rw [hpool,if_neg hqi] at hp
            refine Or.inl ⟨hp,fun hm hb => ?_⟩
            exact hno ((List.mem_cons.mp hm).resolve_left hqi) ((hsl q hqi).mpr hb)
          · rw [hpool,if_neg hqi] at hp
            exact Or.inr ⟨(hsl q hqi).mp hb,hm,hp⟩
      · by_cases hqi : q = i
        · exact Or.inr (hqi ▸ hs)
        · rcases hy.joined q hm with hm | hb
          · exact Or.inl ((List.mem_append.mp hm).resolve_right (by simpa using hqi))
          · exact Or.inr ((hsl q hqi).mp hb)
    · have he : wakeBlocked k i = k := by
        simp only [wakeBlocked]
        split
        · rfl
        · rename_i hsh
          exact if_neg fun hb => hs ⟨hsh,hb⟩
      obtain ⟨ys,hy⟩ := ih hnd h fun j hj => hi j (by simp [hj])
      rw [List.foldl_cons,he]
      refine ⟨ys,{ hy with pool := fun q => ?_ }⟩
      refine (hy.pool q).imp_left fun hp => ⟨hp.1,fun hm => ?_⟩
      rcases List.mem_cons.mp hm with rfl | hm
      · exact hs
      · exact hp.2 hm

theorem key_woken (w : Waiting S) (h : Queued S k xs) (hi : ∀ i, Sleeping k i → i ∉ xs) :
    ∃ ys, Woken S k (irq1Handler k) (List.finRange 32) xs ys := by
  have hbuf : ∃ n, irq1Handler k = (List.finRange 32).foldl wakeBlocked { k with kbd := n } := by
    by_cases hk : k.kbd+1 < kbdBufferSize
    · exact ⟨k.kbd+1,by simp only [irq1Handler,processWakeAllBlocked,if_pos hk]⟩
    · exact ⟨k.kbd,by simp only [irq1Handler,processWakeAllBlocked,if_neg hk]⟩
  obtain ⟨n,he⟩ := hbuf
  have hk : Queued S { k with kbd := n } xs := ⟨h.queue,h.nodup,h.inserted,h.states⟩
  obtain ⟨ys,hy⟩ := wakeAll_woken w (List.nodup_finRange 32) hk fun i _ hs => hi i hs
  rw [he]
  exact ⟨ys,hy.queued,hy.pool,hy.joined,hy.kept,hy.current,hy.procCurrent,hy.nextPid,hy.kernelShell,
    hy.halted⟩

/-! Creation. -/

/-- The free PCB `p` is filled in for a child of `parent`, or of nobody.  It ends up free again or
as a fresh process, which is queued unless it is `starved`. -/
structure Filled (S : ProcState → Prop) (starved : Prop) (k k' : Kernel) (xs : List Slot) (p : Slot)
    (parent : ℕ) (ys : List Slot) : Prop where
  unused : k.state p = .unused
  queued : Queued S k' ys
  others : ∀ q, q ≠ p → k'.pool q = k.pool q
  inserted : ∀ q, q ≠ p → k'.inserted q = k.inserted q
  marks : (k'.pool p).blockKind = .none ∧ (k'.pool p).waitPid = 0
  child : (k'.pool p).parentPid = 0 ∨ (k'.pool p).parentPid = parent
  fate : (k'.state p = .unused ∧ k'.pid p = 0) ∧ ys = xs ∨
    (k'.state p = .ready ∧ k'.pid p = k.nextPid) ∧ (ys = xs++[p] ∨ starved ∧ ys = xs)
  current : k'.current = k.current
  procCurrent : k'.procCurrent = k.procCurrent
  nextPid : k'.nextPid = k.nextPid+1
  kernelShell : k'.kernelShell = k.kernelShell
  halted : k'.halted = k.halted

theorem Filled.mem {starved : Prop} {p : Slot} {parent : ℕ} (h : Filled S starved k k' xs p parent ys)
    (q : Slot) (hm : q ∈ ys) : q ∈ xs ∨ q = p := by
  rcases h.fate with ⟨-,rfl⟩ | ⟨-,rfl | ⟨-,rfl⟩⟩
  · exact Or.inl hm
  · simpa using hm
  · exact Or.inl hm

theorem Filled.kept {starved : Prop} {p : Slot} {parent : ℕ} (h : Filled S starved k k' xs p parent ys)
    (q : Slot) (hm : q ∈ xs) : q ∈ ys := by
  rcases h.fate with ⟨-,rfl⟩ | ⟨-,rfl | ⟨-,rfl⟩⟩ <;> simp [hm]

theorem create_filled (w : Waiting S) (h : Queued S k xs) (entry : ℕ) (alloc : Alloc) :
    (processCreate k entry alloc).2 = k ∨
      ∃ p ys, Filled S (entry ≠ 0 ∧ entry < kernelBase ∧ alloc = .noUserStack) k
        (processCreate k entry alloc).2 xs p 0 ys := by
  rcases create_cases w h entry alloc with he | ⟨p,hu,hp,⟨hno,he⟩ | he | he⟩ <;> rw [he]
  · exact Or.inl rfl
  · exact Or.inr ⟨p,xs,hu,h.created hp entry,fun q hq => by simp [hq],fun _ _ => rfl,by simp,by simp,
      Or.inr ⟨by simp,Or.inr ⟨hno,rfl⟩⟩,rfl,rfl,rfl,rfl,rfl⟩
  · have hq := (h.created hp entry).modify (p:=p)
      (f:=fun c => { c with state := .unused, pid := 0 }) fun hm => absurd hm hp
    exact Or.inr ⟨p,xs,hu,hq,fun q hq => by simp [hq],fun _ _ => rfl,by simp,by simp,
      Or.inl (by simp),rfl,rfl,rfl,rfl,rfl⟩
  · exact Or.inr ⟨p,_,hu,(h.created hp entry).add hp w.ready (by simp [w.ready]),
      fun q hq => by simp [hq],fun q hq => by simp [hq],by simp,by simp,
      Or.inr ⟨by simp,Or.inl rfl⟩,by simp,by simp,by simp,by simp,by simp⟩

theorem exec_filled (w : Waiting S) (h : Queued S k xs) {self : Slot}
    (hself : k.procCurrent = some self) (hused : k.state self ≠ .unused) (alloc : Alloc)
    (loaded : Option ℕ) : sysExec k self alloc loaded = k ∨
      ∃ p ys, Filled S (alloc = .noUserStack) k (sysExec k self alloc loaded) xs p (k.pid self) ys := by
  rcases exec_cases w h self alloc loaded with
    he | ⟨p,hu,hp,⟨hno,he⟩ | he | he | ⟨entry,he⟩⟩ <;> rw [he]
  · exact Or.inl rfl
  all_goals
    have hne : self ≠ p := fun e => hused (e ▸ hu)
    refine Or.inr ⟨p,?_⟩
  · exact ⟨xs,hu,h.created hp _,fun q hq => by simp [hq],fun _ _ => rfl,by simp,by simp,
      Or.inr ⟨by simp,Or.inr ⟨hno,rfl⟩⟩,rfl,rfl,rfl,rfl,rfl⟩
  · exact ⟨xs,hu,(h.created hp _).modify fun hm => absurd hm hp,fun q hq => by simp [hq],
      fun _ _ => rfl,by simp,by simp,Or.inl (by simp),rfl,rfl,rfl,rfl,rfl⟩
  · have hd := (h.loading w hp).destroy hp
    rw [destroy_loading (by simp [hself,hne])] at hd ⊢
    exact ⟨xs,hu,hd,fun q hq => by simp [hq],fun q hq => by simp [hq],by simp,by simp,Or.inl (by simp),
      by simp,by simp,by simp,by simp,by simp⟩
  · exact ⟨_,hu,h.launch w hp self entry,fun q hq => by simp [hq],fun q hq => by simp [hq],by simp,
      by simp [hne],Or.inr ⟨by simp,Or.inl rfl⟩,by simp,by simp,by simp,by simp,by simp⟩
end Sched
end DonsOs
