import DonsOs.Sched.Integrity

/-! No runnable process is lost.
`dispatched` records which processes have been given the CPU and have since neither put
themselves to sleep nor exited.  Every switch hands the outgoing process to the queue,
except a `process_yield` on an empty queue, which leaves its caller `READY` and unqueued. -/
namespace DonsOs
namespace Sched

open LinkedQueue Run

structure Traced where
  kernel : Kernel
  dispatched : Slot → Bool

/-- The current process goes to sleep or exits. -/
def Event.stops : Event → Bool
  | .exit | .block | .read | .waitpid _ _ => true
  | _ => false

def forget (t : Traced) (e : Event) : Slot → Bool :=
  match t.kernel.current with
  | some c => if e.stops then Function.update t.dispatched c false else t.dispatched
  | none => t.dispatched

/-- Record the process that a step makes current. -/
def record (k k' : Kernel) (d : Slot → Bool) : Slot → Bool :=
  match k'.current with
  | some p => if k.current = some p then d else Function.update d p true
  | none => d

def Traced.step (t : Traced) (e : Event) : Option Traced :=
  (t.kernel.step e).map fun k => ⟨k,record t.kernel k (forget t e)⟩

def Traced.boot (shell : Option Slot) : Traced := ⟨Sched.boot shell,fun _ => false⟩

/-- Every dispatched process other than idle is current or on the ready queue. -/
def Kept (t : Traced) : Prop :=
  ∀ p, t.dispatched p = true → t.kernel.pid p ≠ 1 →
    t.kernel.current = some p ∨ p ∈ t.kernel.queue.walk 32

/-- The scheduling events, with no `process_yield` of a running process on an empty
queue. -/
def Steady (t : Traced) : Event → Prop
  | .create _ _ | .switchTo _ | .tick _ | .exit | .block => True
  | .yield => ∀ c, t.kernel.current = some c → t.kernel.pid c ≠ 1 →
      t.kernel.state c = .running → t.kernel.queue.head ≠ none
  | .key | .exec _ _ | .read | .waitpid _ _ => False

abbrev IsReady (s : ProcState) : Prop := s = .ready

theorem waiting_isReady : Waiting IsReady := by constructor <;> simp [IsReady]

structure Inv (k : Kernel) (d : Slot → Bool) (xs : List Slot) : Prop where
  queued : Queued IsReady k xs
  noIdle : ∀ p ∈ xs, k.pid p ≠ 1
  same : k.procCurrent = k.current
  kept : ∀ p, d p = true → k.pid p ≠ 1 → p ∈ xs ∨ k.current = some p ∧ k.state p = .running
  running : ∀ c, k.current = some c → k.pid c ≠ 1 → k.state c ≠ .ready
  used : ∀ c, k.current = some c → k.state c ≠ .unused
  fresh : ∀ p, k.state p = .unused → d p = false
  orphans : ∀ p, (k.pool p).parentPid = 0
  pids : 2 ≤ k.nextPid

variable {c p : Slot}

theorem Inv.current_off {k : Kernel} {d : Slot → Bool} {xs : List Slot} (h : Inv k d xs)
    (hc : k.current = some c) : c ∉ xs := by
  intro hm
  exact h.running c hc (h.noIdle c hm) (h.queued.states c hm)

theorem Inv.keeps {k : Kernel} {d : Slot → Bool} {xs : List Slot} (h : Inv k d xs) :
    Kept ⟨k,d⟩ := by
  intro p hp hi
  have hlen : xs.length ≤ 32 := by simpa using h.queued.nodup.length_le_card
  rcases h.kept p hp hi with hm | ⟨hc,-⟩
  · right
    simpa only [h.queued.queue,walk_ofList h.queued.nodup hlen] using hm
  · exact Or.inl hc

/-- What a switch from `k` to `next` has to provide. -/
structure Switched (k k' : Kernel) (next : Slot) (ys : List Slot) : Prop where
  queued : Queued IsReady k' ys
  noIdle : ∀ p ∈ ys, k.pid p ≠ 1
  current : k'.current = some next
  procCurrent : k'.procCurrent = some next
  running : k'.state next = .running
  frame : ∀ q, k'.pool q = { k.pool q with state := k'.state q }
  states : ∀ q, q ≠ next → k'.state q = k.state q ∨ k'.state q = .ready ∧ k.state q = .running
  nextPid : k'.nextPid = k.nextPid
  kernelShell : k'.kernelShell = k.kernelShell

theorem Switched.pid {k k' : Kernel} {next : Slot} {ys : List Slot} (h : Switched k k' next ys)
    (q : Slot) : k'.pid q = k.pid q := by
  simp only [Kernel.pid]
  rw [h.frame q]

theorem Switched.inv {k k' : Kernel} {next : Slot} {ys : List Slot} (h : Switched k k' next ys)
    {d : Slot → Bool} (hkept : ∀ p, p ≠ next → d p = true → k.pid p ≠ 1 → p ∈ ys)
    (hfresh : ∀ p, p ≠ next → k.state p = .unused → d p = false)
    (horphans : ∀ p, (k.pool p).parentPid = 0) (hpids : 2 ≤ k.nextPid) :
    Inv k' (Function.update d next true) ys where
  queued := h.queued
  noIdle p hp := by rw [h.pid p]; exact h.noIdle p hp
  same := by rw [h.current,h.procCurrent]
  kept p hp hi := by
    by_cases hpn : p = next
    · exact Or.inr ⟨by rw [h.current,hpn],by rw [hpn]; exact h.running⟩
    · rw [Function.update_of_ne hpn] at hp
      exact Or.inl (hkept p hpn hp (by rwa [h.pid p] at hi))
  running c hc _ := by
    rw [h.current,Option.some.injEq] at hc
    rw [← hc,h.running]
    decide
  used c hc := by
    rw [h.current,Option.some.injEq] at hc
    rw [← hc,h.running]
    decide
  fresh p hp := by
    have hpn : p ≠ next := by
      rintro rfl
      rw [h.running] at hp
      cases hp
    rw [Function.update_of_ne hpn]
    rcases h.states p hpn with he | ⟨he,-⟩
    · exact hfresh p hpn (he ▸ hp)
    · rw [he] at hp
      cases hp
  orphans p := by rw [h.frame p]; exact horphans p
  pids := by rw [h.nextPid]; exact hpids

variable {k k' : Kernel} {d : Slot → Bool} {xs ys : List Slot} {next : Slot}

theorem Handover.switched (hh : Handover IsReady k k' xs next ys) (hi : ∀ p ∈ xs, k.pid p ≠ 1) :
    Switched k k' next ys where
  queued := hh.queued
  noIdle p hp := (hh.joined p hp).elim (hi p) fun hr => hr.2.2
  current := hh.current
  procCurrent := hh.procCurrent
  running := hh.running
  frame := hh.frame
  states q hq := (hh.others q hq).imp_right fun hr => ⟨hr.2.2,hr.2.1⟩
  nextPid := hh.nextPid
  kernelShell := hh.kernelShell

theorem dispatch_switched (h : Queued IsReady k xs) (hi : ∀ p ∈ xs, k.pid p ≠ 1)
    (hc : k.current ≠ some next) :
    Switched k (dispatch k next) next (xs.erase next++outgoing k) :=
  (dispatch_handover waiting_isReady h (fun hp hm => hi next hm hp) hc).switched hi

theorem preemptTo_switched (h : Queued IsReady k ys) (hi : ∀ p ∈ ys, k.pid p ≠ 1)
    (hc : k.current = some c) (hn : next ∉ ys) (hne : next ≠ c) :
    Switched k (preemptTo k c next) next
      (ys++if k.pid c ≠ 1 ∧ k.state c = .running then [c] else []) :=
  (preemptTo_handover waiting_isReady h hc hn fun _ => hne).switched hi

theorem record_same {k k' : Kernel} {d : Slot → Bool} (h : k'.current = k.current) :
    record k k' d = d := by
  cases hc : k.current <;> simp [record,h,hc]

/-- Fewer processes are to be kept. -/
theorem Inv.mono {d' : Slot → Bool} (h : Inv k d' xs) (hd : ∀ p, d p = true → d' p = true) :
    Inv k d xs :=
  { h with
    kept := fun p hp => h.kept p (hd p hp)
    fresh := fun p hp => by
      cases hdp : d p with
      | false => rfl
      | true => exact (hd p hdp).symm.trans (h.fresh p hp) }

/-- The CPU goes to `next`; what has to hold of `k` holds also while a process exits. -/
theorem Inv.of_handover {k₀ : Kernel} (hh : Handover IsReady k k' xs next ys)
    (hi : ∀ p ∈ xs, k.pid p ≠ 1)
    (hkept : ∀ p, d p = true → k.pid p ≠ 1 → p ∈ xs ∨ k.current = some p ∧ k.state p = .running)
    (hfresh : ∀ p, k.state p = .unused → d p = false) (horphans : ∀ p, (k.pool p).parentPid = 0)
    (hpids : 2 ≤ k.nextPid) : Inv k' (record k₀ k' d) ys := by
  have hinv : Inv k' (Function.update d next true) ys := by
    refine (hh.switched hi).inv (fun p hpn hp hp1 => ?_) (fun p _ => hfresh p) horphans hpids
    rcases hkept p hp hp1 with hm | ⟨hc,hr⟩
    · exact hh.kept p hm hpn
    · exact hh.requeued p hc hpn hr hp1
  refine hinv.mono fun p hp => ?_
  by_cases hpn : p = next
  · simp [hpn]
  · rw [Function.update_of_ne hpn]
    simp only [record,hh.current] at hp
    split at hp
    · exact hp
    · rwa [Function.update_of_ne hpn] at hp

section

variable (h : Inv k d xs)
include h

theorem Inv.handover (hh : Handover IsReady k k' xs next ys) : Inv k' (record k k' d) ys :=
  .of_handover hh h.noIdle h.kept h.fresh h.orphans h.pids

theorem Inv.switchTo (next : Slot) :
    ∃ ys, Inv (schedulerSwitchTo k next) (record k (schedulerSwitchTo k next) d) ys := by
  rcases switchTo_handover waiting_isReady h.queued fun hp hm => h.noIdle next hm hp with
    he | ⟨ys,hh⟩
  · exact ⟨xs,by rwa [he,record_same rfl]⟩
  · exact ⟨ys,h.handover hh⟩

/-- A process that finds nobody ahead of it and was not running. -/
theorem Inv.alone (hc : k.current = some c) (hp : k.pid c ≠ 1)
    (ha : Alone IsReady k k' xs c ys) (hr : k.state c ≠ .running) : Inv k' d ys := by
  have hpool : k'.pool = k.pool := by
    funext q
    by_cases hq : q = c
    · rw [hq,ha.pool,ha.state.resolve_right fun hs => hr hs.1]
    · exact ha.others q hq
  refine ⟨ha.queued,fun p hm => ?_,?_,fun p hd hi => ?_,?_,?_,?_,?_,?_⟩
  · rw [ha.pid p]
    rcases ha.joined p hm with hx | rfl
    · exact h.noIdle p hx
    · exact hp
  · rw [ha.procCurrent,ha.current,h.same]
  · rw [ha.pid p] at hi
    rw [ha.current,Kernel.state,hpool]
    refine (h.kept p hd hi).imp_left fun hm => ha.kept p hm ?_
    rintro rfl
    exact h.current_off hc hm
  all_goals simp only [ha.current,ha.nextPid,Kernel.state,Kernel.pid,hpool]
  · exact h.running
  · exact h.used
  · exact h.fresh
  · exact h.orphans
  · exact h.pids

theorem Inv.yield (hok : ∀ c, k.current = some c → k.pid c ≠ 1 →
    k.state c = .running → k.queue.head ≠ none) :
    ∃ ys, Inv (processYield k) (record k (processYield k) d) ys := by
  rcases yield_handover waiting_isReady h.queued with he | ⟨c,hc,hp,⟨ys,ha⟩ | ⟨next,ys,hh,-⟩⟩
  · exact ⟨xs,by rwa [he,record_same rfl]⟩
  · refine ⟨ys,?_⟩
    rw [record_same ha.current]
    refine h.alone hc hp ha fun hr => ?_
    -- a running process has somebody queued, and that is not itself
    obtain ⟨x,hx⟩ := Option.ne_none_iff_exists'.mp (hok c hc hp hr)
    obtain rfl := ha.ahead x hx
    rw [h.queued.queue] at hx
    exact h.current_off hc (List.mem_of_mem_head? hx)
  · exact ⟨ys,h.handover hh⟩

theorem Inv.tick (u : Bool) :
    ∃ ys, Inv (timerPreemptHandler k u) (record k (timerPreemptHandler k u) d) ys := by
  rcases tick_handover waiting_isReady h.queued h.same u with he | ⟨next,ys,hh,-⟩
  · exact ⟨xs,by rwa [he,record_same rfl]⟩
  · exact ⟨ys,h.handover hh⟩

theorem Inv.filled {starved : Prop} (hf : Filled IsReady starved k k' xs p 0 ys) : Inv k' d ys where
  queued := hf.queued
  noIdle q hm := by
    have hpids := h.pids
    by_cases hqp : q = p
    · have hr : k'.state q = .ready := hf.queued.states q hm
      rcases hf.fate with ⟨⟨hu,-⟩,-⟩ | ⟨⟨-,hpid⟩,-⟩
      · rw [hqp,hu] at hr
        cases hr
      · rw [hqp]
        omega
    · simpa [hf.others q hqp] using h.noIdle q ((hf.mem q hm).resolve_right hqp)
  same := by rw [hf.procCurrent,hf.current,h.same]
  kept q hd hi := by
    have hqp : q ≠ p := fun e => by
      rw [e,h.fresh p hf.unused] at hd
      cases hd
    simp only [Kernel.pid,hf.others q hqp] at hi
    rcases h.kept q hd hi with hm | ⟨hc,hr⟩
    · exact Or.inl (hf.kept q hm)
    · exact Or.inr ⟨by rw [hf.current,hc],by simpa [hf.others q hqp] using hr⟩
  running c hc hi := by
    rw [hf.current] at hc
    have hcp : c ≠ p := fun e => h.used c hc (e ▸ hf.unused)
    simp only [Kernel.pid,Kernel.state,hf.others c hcp] at hi ⊢
    exact h.running c hc hi
  used c hc := by
    rw [hf.current] at hc
    have hcp : c ≠ p := fun e => h.used c hc (e ▸ hf.unused)
    simp only [Kernel.state,hf.others c hcp]
    exact h.used c hc
  fresh q hq' := by
    by_cases hqp : q = p
    · rw [hqp]
      exact h.fresh p hf.unused
    · simp only [Kernel.state,hf.others q hqp] at hq'
      exact h.fresh q hq'
  orphans q := by
    by_cases hqp : q = p
    · rw [hqp]
      exact hf.child.elim id id
    · rw [hf.others q hqp]
      exact h.orphans q
  pids := by rw [hf.nextPid]; exact Nat.le_succ_of_le h.pids

theorem Inv.create (entry : ℕ) (alloc : Alloc) :
    ∃ ys, Inv (processCreate k entry alloc).2 d ys := by
  rcases create_filled waiting_isReady h.queued entry alloc with he | ⟨p,ys,hf⟩
  · exact ⟨xs,by rwa [he]⟩
  · exact ⟨ys,h.filled hf⟩

theorem Inv.block (hc : k.current = some c) :
    Inv (k.setState c .blocked) (Function.update d c false) xs where
  queued := h.queued.modify fun hm => absurd hm (h.current_off hc)
  noIdle p hm := by
    have hpc : p ≠ c := fun e => h.current_off hc (e ▸ hm)
    simpa [hpc] using h.noIdle p hm
  same := h.same
  kept p hd hi := by
    by_cases hpc : p = c
    · simp [hpc] at hd
    · rw [Function.update_of_ne hpc] at hd
      rcases h.kept p hd (by simpa [hpc] using hi) with hm | ⟨hcur,-⟩
      · exact Or.inl hm
      · exact absurd (Option.some.inj (hcur.symm.trans hc)) hpc
  running q hq hi := by
    obtain rfl : q = c := Option.some.inj (hq.symm.trans hc)
    simp
  used q hq := by
    obtain rfl : q = c := Option.some.inj (hq.symm.trans hc)
    simp
  fresh p hu := by
    by_cases hpc : p = c
    · simp [hpc]
    · rw [Function.update_of_ne hpc]
      exact h.fresh p (by simpa [hpc] using hu)
  orphans p := by
    by_cases hpc : p = c
    · subst hpc
      simpa using h.orphans p
    · simpa [hpc] using h.orphans p
  pids := h.pids

end

theorem leave_orphan (hc : (k.pool c).parentPid = 0) :
    leave k c = (retire k c).modify c fun d => { d with state := .unused, pid := 0 } := by
  simp [leave,hc,processReclaim]

/-- With the current process gone, every dispatched one is queued. -/
theorem Inv.kept_others (h : Inv k d xs) (hc : k.current = some c)
    (hd : Function.update d c false p = true) (hi : (leave k c).pid p ≠ 1) : p ≠ c ∧ p ∈ xs := by
  have hpc : p ≠ c := by
    rintro rfl
    simp at hd
  rw [Function.update_of_ne hpc] at hd
  rw [leave_orphan (h.orphans c)] at hi
  rcases h.kept p hd (by simpa [hpc] using hi) with hm | ⟨hcur,-⟩
  · exact ⟨hpc,hm⟩
  · exact absurd (Option.some.inj (hcur.symm.trans hc)) hpc

theorem Inv.fresh_others (h : Inv k d xs) (hu : (leave k c).state p = .unused) :
    Function.update d c false p = false := by
  by_cases hpc : p = c
  · simp [hpc]
  · rw [leave_orphan (h.orphans c)] at hu
    rw [Function.update_of_ne hpc]
    exact h.fresh p (by simpa [hpc] using hu)

theorem Inv.orphans_others (h : Inv k d xs) (c p : Slot) :
    ((leave k c).pool p).parentPid = 0 := by
  rw [leave_orphan (h.orphans c)]
  by_cases hpc : p = c
  · subst hpc
    simpa using h.orphans p
  · simpa [hpc] using h.orphans p

theorem Inv.leave_nextPid (h : Inv k d xs) (c : Slot) : (leave k c).nextPid = k.nextPid := by
  rw [leave_orphan (h.orphans c)]
  simp

theorem popRun_switched {x : Slot} {ys : List Slot} (h : Queued IsReady k (x::ys))
    (hi : ∀ p ∈ ys, k.pid p ≠ 1) :
    Switched k ((schedulerSetCurrent (popped k x ys) x).setState x .running) x ys where
  queued := by
    obtain ⟨-,hq,hx⟩ := h.next_cons
    have hset := hq.modify (p:=x) (f:=fun d => { d with state := .running })
      fun hm => absurd hm hx
    exact ⟨hset.queue,hset.nodup,hset.inserted,hset.states⟩
  noIdle := hi
  current := rfl
  procCurrent := rfl
  running := by simp
  frame q := by by_cases hqx : q = x <;> simp [hqx,schedulerSetCurrent]
  states q hqx := by simp [hqx,schedulerSetCurrent]
  nextPid := rfl
  kernelShell := rfl

theorem Inv.exit (h : Inv k d xs) (hc : k.current = some c) :
    ∃ ys, Inv (processExit k) (record k (processExit k) (Function.update d c false)) ys := by
  have hpids : 2 ≤ (leave k c).nextPid := (h.leave_nextPid c).symm ▸ h.pids
  obtain ⟨ys,hy,hl,hcases⟩ := exit_handover waiting_isReady h.queued hc fun parent ha =>
    absurd (h.orphans c) ha.1
  have hkept : ∀ p, Function.update d c false p = true → (leave k c).pid p ≠ 1 → p ∈ ys := by
    intro p hd hi
    obtain ⟨hpc,hm⟩ := h.kept_others hc hd hi
    exact hl.kept p hm hpc
  have hidle : ∀ p ∈ ys, (leave k c).pid p ≠ 1 := by
    intro p hm
    obtain ⟨hm,hpc⟩ := (hl.joined p hm).resolve_right fun ha => absurd (h.orphans c) ha.1.1
    rw [leave_orphan (h.orphans c)]
    simpa [hpc] using h.noIdle p hm
  rcases hcases with ⟨next,zs,rfl,hh⟩ | ⟨rfl,⟨-,he⟩ | ⟨shell,-,-,hh⟩⟩
  · exact ⟨zs,.of_handover hh hidle (fun p hd hi => Or.inl (hkept p hd hi)) (fun _ => h.fresh_others)
      (h.orphans_others c) hpids⟩
  · have hq := hy.reset
    rw [he]
    exact ⟨[],⟨hq.queue,hq.nodup,hq.inserted,hq.states⟩,by simp,rfl,
      fun p hd hi => absurd (hkept p hd hi) (by simp),by simp [schedulerReset],
      by simp [schedulerReset],fun _ => h.fresh_others,h.orphans_others c,hpids⟩
  · exact ⟨[],.of_handover hh (by simp) (fun p hd hi => absurd (hkept p hd hi) (by simp))
      (fun _ => h.fresh_others) (h.orphans_others c) hpids⟩

theorem Inv.step {t t' : Traced} {e : Event} (h : Inv t.kernel t.dispatched xs)
    (hok : Steady t e) (hs : t.step e = some t') : ∃ ys, Inv t'.kernel t'.dispatched ys := by
  obtain ⟨k',hk,rfl⟩ := Option.map_eq_some_iff.mp hs
  simp only [Kernel.step] at hk
  split at hk
  · cases hk
  have hsame : e.stops = false → forget t e = t.dispatched := by
    intro he
    simp only [forget,he]
    split <;> simp
  have hstop : ∀ c, t.kernel.current = some c → e.stops = true →
      forget t e = Function.update t.dispatched c false := by
    intro c hc he
    simp [forget,hc,he]
  cases e with
  | tick u =>
    cases hk
    rw [hsame rfl]
    exact h.tick u
  | create entry alloc =>
    cases hk
    rw [hsame rfl,record_same]
    · exact h.create entry alloc
    · rcases create_filled waiting_isReady h.queued entry alloc with he | ⟨p,ys,hf⟩
      · rw [he]
      · exact hf.current
  | yield =>
    cases hk
    rw [hsame rfl]
    exact h.yield hok
  | switchTo next =>
    cases hk
    rw [hsame rfl]
    exact h.switchTo next
  | exit =>
    cases hk
    cases hc : t.kernel.current with
    | none =>
      have he : processExit t.kernel = { t.kernel with halted := true } := by
        simp only [processExit,hc]
      have hf : forget t .exit = t.dispatched := by simp only [forget,hc]
      have hcur : ({ t.kernel with halted := true } : Kernel).current = t.kernel.current := rfl
      refine ⟨xs,?_⟩
      rw [he,hf,record_same hcur]
      exact ⟨⟨h.queued.queue,h.queued.nodup,h.queued.inserted,h.queued.states⟩,h.noIdle,h.same,
        h.kept,h.running,h.used,h.fresh,h.orphans,h.pids⟩
    | some c =>
      rw [hstop c hc rfl]
      exact h.exit hc
  | block =>
    obtain ⟨self,hself,-,rfl⟩ := block_some hk
    rw [h.same] at hself
    have hcur : (t.kernel.setState self .blocked).current = t.kernel.current := rfl
    rw [hstop self hself rfl,record_same hcur]
    exact ⟨xs,h.block hself⟩
  | key => exact absurd hok id
  | exec alloc loaded => exact absurd hok id
  | read => exact absurd hok id
  | waitpid pid nohang => exact absurd hok id

theorem boot_inv (shell : Option Slot) : Inv (boot shell) (fun _ => false) [] where
  queued := boot_queued IsReady shell
  noIdle := by simp
  same := rfl
  kept := by simp
  running c hc hi := by
    obtain rfl : 0 = c := Option.some.inj hc
    exact absurd rfl hi
  used c hc := by
    obtain rfl : 0 = c := Option.some.inj hc
    simp [boot]
  fresh := by simp
  orphans p := by
    by_cases hp : p = 0 <;> simp [boot,hp]
  pids := le_rfl

/-- A process yields while it is alone, and the next tick from user mode hands the CPU
to idle. -/
def loneYield : List Event := [.create userCodeBase .ok,.tick false,.yield,.tick true]

/-- The process is then neither current nor queued, and no event will run it again. -/
theorem lone_yield_loses_process :
    ∃ t, run Traced.step (Traced.boot none) loneYield = some t ∧ ¬Kept t := by
  have hlost : (run Traced.step (Traced.boot none) loneYield).map
      (fun t => (t.dispatched 1,t.kernel.pid 1,t.kernel.current,t.kernel.queue.walk 32)) =
      some (true,2,some 0,[]) := by decide +kernel
  obtain ⟨t,ht,he⟩ := Option.map_eq_some_iff.mp hlost
  simp only [Prod.mk.injEq] at he
  refine ⟨t,ht,fun hkept => ?_⟩
  rcases hkept 1 he.1 (by rw [he.2.1]; decide) with hc | hm
  · rw [he.2.2.1] at hc
    cases hc
  · rw [he.2.2.2] at hm
    cases hm

/-- In every run of scheduling events in which a running process yields only while others
are queued, no dispatched process is lost in the state reached. -/
theorem runnable_process_kept (shell : Option Slot) {es : List Event} {t : Traced}
    (hes : Admits Traced.step Steady (Traced.boot shell) es)
    (hrun : run Traced.step (Traced.boot shell) es = some t) : Kept t := by
  obtain ⟨xs,h⟩ := run_invariant (fun t => ∃ xs, Inv t.kernel t.dispatched xs)
    (fun _ _ _ ⟨_,h⟩ hok hs => h.step hok hs) ⟨[],boot_inv shell⟩ hes hrun
  exact h.keeps

instance (t : Traced) : (e : Event) → Decidable (Steady t e)
  | .create _ _ | .switchTo _ | .tick _ | .exit | .block => isTrue trivial
  | .yield => inferInstanceAs (Decidable (∀ c, t.kernel.current = some c → t.kernel.pid c ≠ 1 →
      t.kernel.state c = .running → t.kernel.queue.head ≠ none))
  | .key | .exec _ _ | .read | .waitpid _ _ => isFalse id

theorem runnable_process_kept_two :
    ∃ t, run Traced.step (Traced.boot none)
        [.create userCodeBase .ok,.create userCodeBase .ok,.tick false,.yield,.tick true] = some t ∧
      Kept t := by
  have hes : Admits Traced.step Steady (Traced.boot none)
      [.create userCodeBase .ok,.create userCodeBase .ok,.tick false,.yield,.tick true] := by
    decide +kernel
  have hsome : (run Traced.step (Traced.boot none)
      [.create userCodeBase .ok,.create userCodeBase .ok,.tick false,.yield,.tick true]).isSome := by
    decide +kernel
  obtain ⟨t,ht⟩ := Option.isSome_iff_exists.mp hsome
  exact ⟨t,ht,runnable_process_kept none hes ht⟩

end Sched
end DonsOs
