import DonsOs.Cpu.Switch

/-! Switching is transparent.
A process that is off the processor is parked: the frame its PCB points to lies on memory of
its own and holds what it stopped with.  Nobody else writes there, since stacks and address
spaces are disjoint and `TSS.RSP0` follows the running process, so when the process is
resumed it finds its registers and its stack as it left them. -/
namespace DonsOs
namespace Cpu

open Sched Stack Run LinkedQueue

/-! Frames. -/

theorem cell_injective (cr3 : ℕ) : Function.Injective (cell cr3) := by
  intro a b h
  have h₂ := congrArg Prod.snd h
  simp only [cell] at h₂
  split at h₂ <;> split at h₂ <;> exact h₂

@[simp] theorem frameWords_length (regs : Regs) : (frameWords regs).length = 20 := rfl

theorem readFrame_pushAll (cr3 : ℕ) (mem : Cell → ℕ) (regs : Regs) {sp : ℕ} (before after : List ℕ)
    (hsp : 8*(before.length+20+after.length) ≤ sp) :
    readFrame (pushAll (cell cr3) mem sp (before++(frameWords regs++after))) cr3
      (sp-8*(before.length+20)) = regs := by
  have hbase : sp-8*(before.length+20) = sp-8*before.length-8*20 := by omega
  have hpop : popAll (cell cr3) (pushAll (cell cr3) (pushAll (cell cr3) mem sp before)
      (sp-8*before.length) (frameWords regs)) (sp-8*before.length-8*20) 20 =
      (frameWords regs).reverse :=
    popAll_pushAll (cell_injective cr3) _ (by rw [frameWords_length]; omega)
  have hwords : popAll (cell cr3)
      (pushAll (cell cr3) mem sp (before++(frameWords regs++after))) (sp-8*(before.length+20)) 20 =
      (frameWords regs).reverse := by
    rw [pushAll_append,pushAll_append,hbase,← hpop,frameWords_length]
    refine popAll_congr fun i hi => ?_
    -- what comes after the frame is pushed below it
    refine pushAll_other (by omega) fun a _ hlt e => ?_
    have := cell_injective cr3 e
    omega
  funext r
  simp only [readFrame,hwords]
  cases r <;> rfl

theorem readFrame_congr {cr3 cr3' : ℕ} {mem mem' : Cell → ℕ} {sp : ℕ}
    (h : ∀ i < 20, mem (cell cr3 (sp+8*i)) = mem' (cell cr3' (sp+8*i))) :
    readFrame mem cr3 sp = readFrame mem' cr3' sp := by
  funext r
  simp only [readFrame,popAll_congr h]

/-! Whose memory it is. -/

theorem Room.owns {top : ℕ} {p : Slot} {rsp a : ℕ} (h : Room top p rsp) (hl : rsp ≤ a+512)
    (hu : a < rsp) : Owns top p a := by
  rcases h with h | h | h
  · exact Or.inl (by omega)
  · exact Or.inr (Or.inl ⟨h.1,by omega,by omega⟩)
  · exact Or.inr (Or.inr ⟨h.1,by omega⟩)

theorem Room.le {top : ℕ} {p : Slot} {rsp : ℕ} (h : Room top p rsp) : 512 ≤ rsp := by
  rcases h with h | h | h <;> omega

theorem stackTop_ge (L : Layout) (slot : Slot) :
    bootStackTop ≤ L.stackTop slot-procStackSize ∧ procStackSize ≤ L.stackTop slot := by
  have := L.above
  simp only [Layout.stackTop,procStackSize]
  omega

/-- Kernel stacks do not overlap each other, the boot stack or user memory, and user memory of
different address spaces does not overlap. -/
theorem owns_disjoint (L : Layout) {p q slot slot' : Slot} {a b cr3 cr3' : ℕ} (hpq : p ≠ q)
    (hslot : slot ≠ slot') (hp : Owns (L.stackTop slot) p a) (hq : Owns (L.stackTop slot') q b)
    (hspace : b < 2^47 → cr3 ≠ cr3' ∨ q = 0) : cell cr3 a ≠ cell cr3' b := by
  intro he
  have hs : (slot:ℕ) ≠ slot' := fun e => hslot (Fin.ext e)
  have ha := L.above
  have hab : a = b := by
    have h₂ := congrArg Prod.snd he
    simp only [cell] at h₂
    split at h₂ <;> split at h₂ <;> exact h₂
  subst hab
  simp only [Owns,Layout.stackTop,procStackSize,bootStackTop,kernelBase] at *
  rcases hp with hp | hp | hp <;> rcases hq with hq | hq | hq <;> try omega
  · exact hpq (hp.1.trans hq.1.symm)
  · rcases hspace hq.2 with hne | hz
    · simp only [cell,if_pos hp.2] at he
      exact hne (congrArg Prod.fst he)
    · exact hq.1 hz

/-! Who is running. -/

/-- The scheduler between two events: the running process is off the queue and not blocked,
and idle is always there to fall back on. -/
structure Scheduled (k : Kernel) (xs : List Slot) : Prop where
  queued : Queued IsReady k xs
  noIdle : ∀ p ∈ xs, k.pid p ≠ 1
  same : k.current = k.procCurrent
  running : ∃ c, k.procCurrent = some c ∧ c ∉ xs ∧ k.state c ≠ .unused ∧ k.state c ≠ .blocked
  idle : k.pid 0 = 1
  up : ∀ p, k.pid p = 1 → k.state p ≠ .unused ∧ k.state p ≠ .blocked
  pids : 2 ≤ k.nextPid

variable {k k' : Kernel} {xs ys : List Slot} {c next : Slot}

theorem Scheduled.off (h : Scheduled k xs) (hc : k.procCurrent = some c) :
    c ∉ xs ∧ k.state c ≠ .unused ∧ k.state c ≠ .blocked := by
  obtain ⟨d,hd,hoff⟩ := h.running
  obtain rfl : d = c := Option.some.inj (hd.symm.trans hc)
  exact hoff

/-- Popping the queue changes nothing that a switch is measured against. -/
theorem switched_of_popped {x : Slot} {zs : List Slot}
    (hs : Switched (popped k x xs) k' next zs) : Switched k k' next zs :=
  ⟨hs.queued,hs.noIdle,hs.current,hs.procCurrent,hs.running,hs.frame,hs.states,hs.nextPid,
    hs.kernelShell⟩

theorem switched_used (hs : Switched k k' next ys) (hn : k.state next ≠ .unused) (p : Slot) :
    k'.state p ≠ .unused ↔ k.state p ≠ .unused := by
  by_cases hp : p = next
  · rw [hp,hs.running]
    simpa using hn
  · rcases hs.states p hp with he | ⟨he,hr⟩
    · rw [he]
    · rw [he,hr]
      simp

theorem Scheduled.of_switched (hs : Switched k k' next ys) (hn : k.state next ≠ .unused)
    (hi : k.pid 0 = 1) (hup : ∀ p, k.pid p = 1 → k.state p ≠ .unused ∧ k.state p ≠ .blocked)
    (hp : 2 ≤ k.nextPid) : Scheduled k' ys where
  queued := hs.queued
  noIdle p hp := by rw [hs.pid p]; exact hs.noIdle p hp
  same := by rw [hs.current,hs.procCurrent]
  running := ⟨next,hs.procCurrent,hs.queued.not_mem (by rw [hs.running]; decide),by
    rw [hs.running]; decide,by rw [hs.running]; decide⟩
  idle := by rw [hs.pid 0,hi]
  up p hpid := by
    rw [hs.pid p] at hpid
    refine ⟨(switched_used hs hn p).mpr (hup p hpid).1,?_⟩
    by_cases hpn : p = next
    · rw [hpn,hs.running]
      decide
    · rcases hs.states p hpn with he | ⟨he,-⟩
      · rw [he]
        exact (hup p hpid).2
      · rw [he]
        decide
  pids := by rw [hs.nextPid]; exact hp

/-- The task that `timer_preempt_handler` picks is some other live process, and the scheduler
switches to it. -/
theorem Scheduled.pick (h : Scheduled k xs) (hc : k.procCurrent = some c) (u : Bool)
    (ht : k.state c ≠ .terminated)
    (hpeek : ¬(u = false ∧ (k.queue.head.all fun peek => k.pid peek = 1) = true))
    (hnext : pickNext k c = some next) :
    k.state next ≠ .unused ∧ next ≠ c ∧
      ∃ ys, Switched k (Sched.timerPreemptHandler k u) next ys := by
  obtain ⟨hoff,-,-⟩ := h.off hc
  cases xs with
  | nil =>
    rw [pickNext,h.queued.next_nil] at hnext
    simp only at hnext
    split at hnext
    · cases hnext
    rename_i hp
    obtain ⟨hpid,hused⟩ := findByPid_spec hnext
    have hne : next ≠ c := fun e => hp (e ▸ hpid)
    have hk : Sched.timerPreemptHandler k u = preemptTo k c next := by
      simp only [Sched.timerPreemptHandler,hc,if_neg ht,if_neg hpeek,h.queued.next_nil,if_neg hp,
        hnext]
      rfl
    refine ⟨hused,hne,?_⟩
    rw [hk]
    exact ⟨_,preemptTo_switched h.queued (by simp) (h.same.trans hc) (by simp) hne⟩
  | cons x ys =>
    obtain ⟨hpop,hq,hx⟩ := h.queued.next_cons
    rw [pickNext,hpop] at hnext
    obtain rfl : x = next := Option.some.inj hnext
    have hready : k.state x = .ready := h.queued.states x (by simp)
    have hne : x ≠ c := fun e => hoff (by simp [e])
    have hk : Sched.timerPreemptHandler k u = preemptTo (popped k x ys) c x := by
      simp only [Sched.timerPreemptHandler,hc,if_neg ht,if_neg hpeek,hpop]
      rfl
    have hs := preemptTo_switched hq (fun p hp => h.noIdle p (by simp [hp])) (h.same.trans hc) hx hne
    rw [hk]
    exact ⟨by rw [hready]; decide,hne,_,switched_of_popped hs⟩

theorem find_idle (h : ∃ p, k.pid p = 1 ∧ k.state p ≠ .unused) :
    ∃ idle, processFindByPid k 1 = some idle := by
  obtain ⟨p,hp,hu⟩ := h
  refine Option.isSome_iff_exists.mp (List.find?_isSome.mpr ⟨p,List.mem_finRange p,?_⟩)
  simpa using ⟨hp,hu⟩

theorem awaiting_pool (k : Kernel) (self : Slot) (target : ℕ) (q : Slot) :
    (awaiting k self target).pool q = if q = self then
      { k.pool self with state := .blocked, blockKind := .waitpid, waitPid := target }
    else k.pool q := by
  simp [awaiting]

theorem awaiting_used (hc : k.state c ≠ .unused) (target : ℕ) (q : Slot) :
    (awaiting k c target).state q ≠ .unused ↔ k.state q ≠ .unused := by
  by_cases hq : q = c
  · simpa [awaiting_pool,hq] using hc
  · simp [awaiting_pool,hq]

/-- A process other than idle that blocks makes way for another live process. -/
theorem Scheduled.yield (h : Scheduled k xs) (hc : k.procCurrent = some c) (hp : k.pid c ≠ 1)
    (target : ℕ) : ∃ next ys, next ≠ c ∧ k.state next ≠ .unused ∧
      Switched (awaiting k c target) (processYield (awaiting k c target)) next ys := by
  obtain ⟨hoff,hused,-⟩ := h.off hc
  have hcur : (awaiting k c target).current = some c := h.same.trans hc
  have hpid : (awaiting k c target).pid c ≠ 1 := by simpa [awaiting_pool] using hp
  have hblocked : (awaiting k c target).state c = .blocked := by simp [awaiting_pool]
  have hq : Queued IsReady (awaiting k c target) xs := h.queued.modify fun hm => absurd hm hoff
  have hnoIdle : ∀ p ∈ xs, (awaiting k c target).pid p ≠ 1 := by
    intro p hm
    have hpc : p ≠ c := fun e => hoff (e ▸ hm)
    simpa [awaiting_pool,hpc] using h.noIdle p hm
  have hidle : ∃ p, (awaiting k c target).pid p = 1 ∧ (awaiting k c target).state p ≠ .unused := by
    have hpc : 0 ≠ c := fun e => hp (e ▸ h.idle)
    exact ⟨0,by simpa [awaiting_pool,hpc] using h.idle,
      (awaiting_used hused target 0).mpr (h.up 0 h.idle).1⟩
  have hlive := awaiting_used hused target
  generalize awaiting k c target = k₁ at *
  cases xs with
  | nil =>
    obtain ⟨idle,hfind⟩ := find_idle hidle
    obtain ⟨hi,hu⟩ := findByPid_spec hfind
    have hne : idle ≠ c := fun e => hpid (e ▸ hi)
    have hcn : k₁.current ≠ some idle := by
      rw [hcur]
      exact fun e => hne (Option.some.inj e).symm
    have hk : processYield k₁ = dispatch k₁ idle := by
      simp only [processYield,hcur,if_neg hpid,hblocked,reduceCtorEq,if_false,hq.next_nil,hfind]
      rw [schedulerSwitchTo,if_neg hcn,if_neg (by simp [hcur,hblocked])]
    rw [hk]
    exact ⟨idle,_,hne,(hlive idle).mp hu,dispatch_switched hq hnoIdle hcn⟩
  | cons x ys =>
    obtain ⟨hpop,hq',hx⟩ := hq.next_cons
    have hready : k₁.state x = .ready := hq.states x (by simp)
    have hne : x ≠ c := fun e => hoff (by simp [e])
    have hcn : (popped k₁ x ys).current ≠ some x := by
      rw [popped_current,hcur]
      exact fun e => hne (Option.some.inj e).symm
    have hk : processYield k₁ = dispatch (popped k₁ x ys) x := by
      simp only [processYield,hcur,if_neg hpid,hblocked,reduceCtorEq,if_false,hpop]
      rw [schedulerSwitchTo,if_neg hcn,if_neg fun hi => hnoIdle x (by simp) hi.1]
    have hs := dispatch_switched hq' (fun p hm => hnoIdle p (by simp [hm])) hcn
    rw [hk]
    exact ⟨x,_,hne,(hlive x).mp (by rw [hready]; decide),switched_of_popped hs⟩

theorem Scheduled.change (h : Scheduled k xs) {p : Slot}
    (hpool : ∀ q, q ≠ p → k'.pool q = k.pool q) (hcur : k'.current = k.current)
    (hproc : k'.procCurrent = k.procCurrent) (hrun : k.procCurrent ≠ some p) (hpid : k.pid p ≠ 1)
    (hpid' : k'.pid p ≠ 1) (hq : Queued IsReady k' ys) (hys : ∀ q ∈ ys, q ∈ xs ∨ q = p)
    (hn : 2 ≤ k'.nextPid) : Scheduled k' ys where
  queued := hq
  noIdle q hm := by
    by_cases hqp : q = p
    · rwa [hqp]
    · simpa [hpool q hqp] using h.noIdle q ((hys q hm).resolve_right hqp)
  same := by rw [hcur,hproc,h.same]
  running := by
    obtain ⟨c,hc,hoff,hstate⟩ := h.running
    have hcp : c ≠ p := fun e => hrun (e ▸ hc)
    refine ⟨c,by rw [hproc,hc],fun hm => hoff ((hys c hm).resolve_right hcp),?_⟩
    simpa [hpool c hcp] using hstate
  idle := by
    have hp : 0 ≠ p := fun e => hpid (e ▸ h.idle)
    simpa [hpool 0 hp] using h.idle
  up q hq' := by
    have hqp : q ≠ p := fun e => hpid' (e ▸ hq')
    simp only [Kernel.pid,Kernel.state,hpool q hqp] at hq' ⊢
    exact h.up q hq'
  pids := hn

theorem wake_pool (k : Kernel) (p q : Slot) : (wake k p).pool q = if q = p then
    { k.pool p with state := .ready, blockKind := .none, waitPid := 0 } else k.pool q := by
  by_cases hq : q = p <;> simp [wake,hq]

theorem Scheduled.wake (h : Scheduled k xs) {p : Slot} (hp : k.state p = .blocked) :
    Scheduled (wake k p) (xs++[p]) := by
  have hoff : p ∉ xs := h.queued.not_mem (by rw [hp]; decide)
  have hidle : k.pid p ≠ 1 := fun e => (h.up p e).2 hp
  have hrun : k.procCurrent ≠ some p := fun e => (h.off e).2.2 hp
  have hmod : Queued IsReady (k.modify p fun c =>
      { c with state := .ready, blockKind := .none, waitPid := 0 }) xs :=
    h.queued.modify fun hm => absurd hm hoff
  refine h.change (p:=p) (fun q hq => by simp [wake_pool,hq]) (by simp [Cpu.wake])
    (by simp [Cpu.wake]) hrun hidle (by simpa [wake_pool] using hidle)
    (hmod.add hoff rfl (by simp)) (fun q hq => by simpa using hq) ?_
  simpa [Cpu.wake] using h.pids

/-- With both stacks `process_create` either finds no PCB or queues a fresh one. -/
theorem create_ok (h : Queued IsReady k xs) (entry : ℕ) :
    (processCreate k entry .ok).1 = none ∨ ∃ p, k.state p = .unused ∧ p ∉ xs ∧
      processCreate k entry .ok = (some p,readyQueueAdd (created k p entry) p) := by
  cases hf : getFreePcb k with
  | none => exact Or.inl (by simp [processCreate,hf])
  | some p =>
    have hsome : (processCreate k entry .ok).1 ≠ none := by simp [processCreate,hf]
    rcases create_cases waiting_isReady h entry .ok with he | ⟨p,hu,hp,⟨-,he⟩ | he | he⟩
    · exact absurd (congrArg Prod.fst he) hsome
    · exact absurd (congrArg Prod.fst he) hsome
    · exact absurd (congrArg Prod.fst he) hsome
    · exact Or.inr ⟨p,hu,hp,he⟩

theorem create_noKernelStack (h : Queued IsReady k xs) (entry : ℕ) :
    (processCreate k entry .noKernelStack).2 = k ∨ ∃ p, k.state p = .unused ∧ p ∉ xs ∧
      (processCreate k entry .noKernelStack).2 =
        (created k p entry).modify p fun c => { c with state := .unused, pid := 0 } := by
  cases hf : getFreePcb k with
  | none => exact Or.inl (by simp [processCreate,hf])
  | some p =>
    have hu := getFreePcb_spec hf
    have hp : p ∉ xs := h.not_mem (by rw [hu]; decide)
    have hk : ((processInitializePcb k p).modify p fun c =>
        { c with entryPoint := entry, state := .ready }) = created k p entry := by
      simp [processInitializePcb,created,Kernel.modify,h.queue,wipe_not_mem hp]
    refine Or.inr ⟨p,hu,hp,?_⟩
    simp only [processCreate,hf,hk,reduceCtorEq,and_false,if_false,if_true]

theorem Scheduled.unused (h : Scheduled k xs) {p : Slot} (hu : k.state p = .unused) :
    k.procCurrent ≠ some p ∧ k.pid p ≠ 1 :=
  ⟨fun e => (h.off e).2.1 hu,fun e => (h.up p e).1 hu⟩

theorem Scheduled.queueFresh (h : Scheduled k xs) {p : Slot} (hu : k.state p = .unused) (hp : p ∉ xs)
    (entry : ℕ) : Scheduled (readyQueueAdd (created k p entry) p) (xs++[p]) := by
  obtain ⟨hrun,hidle⟩ := h.unused hu
  have hpids := h.pids
  refine h.change (p:=p) (fun q hq => by simp [hq]) (by simp) (by simp) hrun hidle ?_
    ((h.queued.created hp entry).add hp rfl (by simp)) (fun q hq => by simpa using hq) ?_
  · simp only [Kernel.pid,add_pool,created_pool,if_true,reduceCtorEq,and_false,if_false]
    omega
  · simp only [add_rest,created_rest]
    omega

theorem Scheduled.usePid (h : Scheduled k xs) {p : Slot} (hu : k.state p = .unused) (hp : p ∉ xs)
    (entry : ℕ) :
    Scheduled ((created k p entry).modify p fun c => { c with state := .unused, pid := 0 }) xs := by
  obtain ⟨hrun,hidle⟩ := h.unused hu
  have hpids := h.pids
  refine h.change (p:=p) (fun q hq => by simp [hq]) (by simp) (by simp) hrun hidle (by simp)
    ((h.queued.created hp entry).modify fun hm => absurd hm hp) (fun q hq => Or.inl hq) ?_
  simp only [modify_rest,created_rest]
  omega

/-! Parked processes. -/

variable {L : Layout} {m m' : Machine} {p : Slot}

abbrev Machine.Used (m : Machine) (p : Slot) : Prop := m.kernel.state p ≠ .unused

abbrev Machine.top (m : Machine) (p : Slot) : ℕ := (m.pcb p).kernelStackTop

/-- The frame that the PCB points to. -/
def Machine.frame (m : Machine) (p : Slot) : Regs :=
  readFrame m.mem (m.pcb p).cr3 (m.pcb p).rsp

/-- `regs` and the memory are what the process stopped with.  A tick takes all registers away
and leaves, in kernel mode, the stack as it is; a process that blocks keeps its stack and
gets back the registers that a C function preserves. -/
def Resumes (m : Machine) (p : Slot) (regs : Regs) : Prop :=
  let same (old : Regs) (word : ℕ → ℕ) :=
    ∀ a, old .rsp ≤ a → Owns (m.top p) p a → m.mem (cell (m.pcb p).cr3 a) = word a
  match m.stopped p with
  | .never => True
  | .tick old word => regs = old ∧ (old .cs = 0x18 → same old word)
  | .block old word =>
    (∀ r ∈ calleeSaved, regs r = old r) ∧ regs .rip = old .rip ∧ regs .rsp = old .rsp ∧ same old word

structure Parked (m : Machine) (p : Slot) : Prop where
  own : ∀ i < 20, Owns (m.top p) p ((m.pcb p).rsp+8*i)
  fits : Fits (m.top p) p (m.frame p)
  resumes : Resumes m p (m.frame p)

theorem Parked.frame_keep (h : Parked m p) (hpcb : m'.pcb p = m.pcb p)
    (hmem : ∀ a, Owns (m.top p) p a →
      m'.mem (cell (m.pcb p).cr3 a) = m.mem (cell (m.pcb p).cr3 a)) : m'.frame p = m.frame p := by
  rw [Machine.frame,Machine.frame,hpcb]
  exact readFrame_congr fun i hi => hmem _ (h.own i hi)

theorem Parked.keep (h : Parked m p) (hpcb : m'.pcb p = m.pcb p)
    (hstop : m'.stopped p = m.stopped p)
    (hmem : ∀ a, Owns (m.top p) p a →
      m'.mem (cell (m.pcb p).cr3 a) = m.mem (cell (m.pcb p).cr3 a)) : Parked m' p := by
  have hframe := h.frame_keep hpcb hmem
  refine ⟨by simpa [Machine.top,hpcb] using h.own,?_,?_⟩
  · rw [hframe,Machine.top,hpcb]
    exact h.fits
  · have hr := h.resumes
    rw [hframe]
    simp only [Resumes,hstop,Machine.top,hpcb] at hr ⊢
    cases hs : m.stopped p with
    | never => trivial
    | tick old word =>
      rw [hs] at hr
      exact ⟨hr.1,fun hk a ha ho => (hmem a ho).trans (hr.2 hk a ha ho)⟩
    | block old word =>
      rw [hs] at hr
      exact ⟨hr.1,hr.2.1,hr.2.2.1,fun a ha ho => (hmem a ho).trans (hr.2.2.2 a ha ho)⟩

/-! The invariant. -/

structure Placed (L : Layout) (m : Machine) : Prop where
  stack : ∀ p, m.Used p → ∃ slot, m.slotOwner slot = some p ∧ m.top p = L.stackTop slot
  space : ∀ p q, m.Used p → m.Used q → (m.pcb p).cr3 = (m.pcb q).cr3 → p = q

/-- The memory differs from that of `m` only in words of `c`, as `c` addresses them. -/
def OnlyOwn (m : Machine) (c : Slot) (mem : Cell → ℕ) : Prop :=
  ∀ x, (∀ b, Owns (m.top c) c b → x ≠ cell m.cr3 b) → mem x = m.mem x

structure Sound (L : Layout) (m : Machine) : Prop where
  sched : ∃ xs, Scheduled m.kernel xs
  placed : Placed L m
  rsp0 : ∀ c, m.kernel.procCurrent = some c → m.rsp0 = m.top c
  fits : ∀ c, m.kernel.procCurrent = some c → Fits (m.top c) c m.regs
  space : ∀ c, m.kernel.procCurrent = some c → m.cr3 = (m.pcb c).cr3 ∨ c = 0 ∧ m.preempted 0 = false
  parked : ∀ p, m.Used p → m.kernel.procCurrent ≠ some p → Parked m p

/-- What the running process does to its own memory does not reach any other. -/
theorem Placed.apart (h : Placed L m) {q : Slot} (hp : m.Used p) (hq : m.Used q) (hpq : p ≠ q)
    (hcr3 : m.cr3 = (m.pcb q).cr3 ∨ q = 0 ∧ m.preempted 0 = false) {mem : Cell → ℕ}
    (hown : OnlyOwn m q mem) {a : ℕ} (ha : Owns (m.top p) p a) :
    mem (cell (m.pcb p).cr3 a) = m.mem (cell (m.pcb p).cr3 a) := by
  obtain ⟨slot,hs,htop⟩ := h.stack p hp
  obtain ⟨slot',hs',htop'⟩ := h.stack q hq
  have hslot : slot ≠ slot' := by
    rintro rfl
    exact hpq (Option.some.inj (hs.symm.trans hs'))
  refine hown _ fun b hb => ?_
  rw [htop] at ha
  rw [htop'] at hb
  refine owns_disjoint L hpq hslot ha hb fun _ => ?_
  rcases hcr3 with he | ⟨hz,-⟩
  · left
    rw [he]
    exact fun e => hpq (h.space p q hp hq e)
  · exact Or.inr hz

theorem OnlyOwn.push {sp : ℕ} {ws : List ℕ} (hsp : 8*ws.length ≤ sp)
    (h : ∀ a, sp-8*ws.length ≤ a → a < sp → Owns (m.top c) c a) :
    OnlyOwn m c (pushAll (cell m.cr3) m.mem sp ws) := fun _ hx =>
  pushAll_other hsp fun a ha hlt e => hx a (h a ha hlt) e.symm

theorem Sound.used (h : Sound L m) (hc : m.kernel.procCurrent = some c) : m.Used c := by
  obtain ⟨xs,hs⟩ := h.sched
  exact (hs.off hc).2.1

/-- Everybody else stays parked while the running process changes its own memory and PCB. -/
theorem Sound.parked_keep (h : Sound L m) (hc : m.kernel.procCurrent = some c)
    (hown : OnlyOwn m c m'.mem) (hpcb : ∀ q, q ≠ c → m'.pcb q = m.pcb q)
    (hstop : ∀ q, q ≠ c → m'.stopped q = m.stopped q) (hp : m.Used p) (hpc : p ≠ c) :
    Parked m' p := by
  have hne : m.kernel.procCurrent ≠ some p := by
    rw [hc]
    exact fun e => hpc (Option.some.inj e).symm
  exact (h.parked p hp hne).keep (hpcb p hpc) (hstop p hpc) fun a ha =>
    h.placed.apart hp (h.used hc) hpc (h.space c hc) hown ha

theorem Placed.keep (h : Placed L m) (hused : ∀ q, m'.Used q ↔ m.Used q)
    (howner : m'.slotOwner = m.slotOwner) (htop : ∀ q, m'.top q = m.top q)
    (hcr3 : ∀ q, m.Used q → (m'.pcb q).cr3 = (m.pcb q).cr3) : Placed L m' where
  stack q hq := by
    rw [howner,htop q]
    exact h.stack q ((hused q).mp hq)
  space q r hq hr he := by
    rw [hused] at hq hr
    rw [hcr3 q hq,hcr3 r hr] at he
    exact h.space q r hq hr he

section

variable (h : Sound L m) (hc : m.kernel.procCurrent = some c)
include h hc

/-- A process sees its own memory at the same place under its own root. -/
theorem Sound.own_cell {a : ℕ} (ha : Owns (m.top c) c a) : cell (m.pcb c).cr3 a = cell m.cr3 a := by
  rcases h.space c hc with he | ⟨rfl,-⟩
  · rw [he]
  · -- idle owns addresses of the kernel's half only
    obtain ⟨slot,-,htop⟩ := h.placed.stack 0 (h.used hc)
    have hlow := stackTop_ge L slot
    rw [htop] at ha
    have hhigh : ¬a < 2^47 := by
      simp only [Owns,ne_eq,not_true_eq_false,false_and,or_false,bootStackTop,kernelBase] at ha hlow
      omega
    simp only [cell,if_neg hhigh]

/-- The switch from `c` to `next`, common to the timer and to `context_switch`. -/
theorem Sound.switch (hnc : next ≠ c) (hn : m.Used next) (hsched : ∃ ys, Scheduled m'.kernel ys)
    (hcur : m'.kernel.procCurrent = some next) (hused : ∀ q, m'.Used q ↔ m.Used q)
    (howner : m'.slotOwner = m.slotOwner) (hown : OnlyOwn m c m'.mem)
    (hpcb : ∀ q, q ≠ c → m'.pcb q = m.pcb q) (htop : m'.top c = m.top c)
    (hcr3 : (m'.pcb c).cr3 = (m.pcb c).cr3) (hstop : ∀ q, q ≠ c → m'.stopped q = m.stopped q)
    (hparked : Parked m' c) (hregs : m'.regs = m'.frame next) (hroot : m'.cr3 = (m'.pcb next).cr3)
    (hrsp0 : m'.rsp0 = m'.top next) :
    Sound L m' ∧ ∀ p, m'.kernel.procCurrent = some p → Resumes m' p m'.regs := by
  have hnext : Parked m' next := h.parked_keep hc hown hpcb hstop hn hnc
  have hrunning : ∀ p, m'.kernel.procCurrent = some p → p = next := fun p hp =>
    Option.some.inj (hp.symm.trans hcur)
  refine ⟨⟨hsched,h.placed.keep hused howner (fun q => ?_) (fun q _ => ?_),?_,?_,?_,?_⟩,?_⟩
  · by_cases hq : q = c
    · rw [hq,htop]
    · simp only [Machine.top,hpcb q hq]
  · by_cases hq : q = c
    · rw [hq,hcr3]
    · rw [hpcb q hq]
  · intro p hp
    rw [hrunning p hp,hrsp0]
  · intro p hp
    rw [hrunning p hp,hregs]
    exact hnext.fits
  · intro p hp
    rw [hrunning p hp]
    exact Or.inl hroot
  · intro p hp hne
    by_cases hpc : p = c
    · rwa [hpc]
    · exact h.parked_keep hc hown hpcb hstop ((hused p).mp hp) hpc
  · intro p hp
    rw [hrunning p hp,hregs]
    exact hnext.resumes

theorem Sound.stay (hkernel : m'.kernel = m.kernel) (howner : m'.slotOwner = m.slotOwner)
    (hown : OnlyOwn m c m'.mem) (hpcb : ∀ q, q ≠ c → m'.pcb q = m.pcb q)
    (htop : m'.top c = m.top c) (hcr3 : (m'.pcb c).cr3 = (m.pcb c).cr3)
    (hstop : ∀ q, q ≠ c → m'.stopped q = m.stopped q) (hregs : Fits (m.top c) c m'.regs)
    (hroot : m'.cr3 = m.cr3) (hrsp0 : m'.rsp0 = m.rsp0) (hpre : m'.preempted = m.preempted) :
    Sound L m' := by
  have hrunning : ∀ p, m'.kernel.procCurrent = some p → p = c := fun p hp => by
    rw [hkernel] at hp
    exact Option.some.inj (hp.symm.trans hc)
  have hused : ∀ q, m'.Used q ↔ m.Used q := fun q => by rw [Machine.Used,Machine.Used,hkernel]
  refine ⟨by rw [hkernel]; exact h.sched,h.placed.keep hused howner (fun q => ?_) (fun q _ => ?_),
    ?_,?_,?_,?_⟩
  · by_cases hq : q = c
    · rw [hq,htop]
    · simp only [Machine.top,hpcb q hq]
  · by_cases hq : q = c
    · rw [hq,hcr3]
    · rw [hpcb q hq]
  · intro p hp
    rw [hrunning p hp,hrsp0,htop,h.rsp0 c hc]
  · intro p hp
    rw [hrunning p hp,htop]
    exact hregs
  · intro p hp
    rw [hrunning p hp,hroot,hcr3,hpre]
    exact h.space c hc
  · intro p hp hne
    refine h.parked_keep hc hown hpcb hstop ((hused p).mp hp) fun e => ?_
    rw [hkernel,e] at hne
    exact hne hc

end

/-! The timer. -/

/-- The frame and the handler's words go on memory of the running process; in kernel mode below
its stack pointer. -/
theorem Sound.interruptTop (h : Sound L m) (hc : m.kernel.procCurrent = some c) :
    416 ≤ interruptTop m ∧
    (∀ a, interruptTop m ≤ a+416 → a < interruptTop m → Owns (m.top c) c a) ∧
    (m.regs .cs = 0x18 → interruptTop m ≤ m.regs .rsp) := by
  obtain ⟨slot,-,htop⟩ := h.placed.stack c (h.used hc)
  have hlow := stackTop_ge L slot
  rcases h.fits c hc with ⟨hcs,-⟩ | ⟨hcs,-,hroom⟩
  · have hit : Cpu.interruptTop m = L.stackTop slot/16*16 := by
      simp only [Cpu.interruptTop,hcs]
      rw [if_pos (by decide),h.rsp0 c hc,htop]
    rw [hit,htop]
    simp only [procStackSize,bootStackTop] at hlow
    refine ⟨by omega,fun a _ _ => Or.inl ?_,fun hk => ?_⟩
    · simp only [procStackSize]
      omega
    · rw [hcs] at hk
      cases hk
  · have hit : Cpu.interruptTop m = m.regs .rsp/16*16 := by
      simp only [Cpu.interruptTop,hcs]
      rw [if_neg (by decide)]
    have hle := hroom.le
    have halign : m.regs .rsp/16*16 ≤ m.regs .rsp ∧ m.regs .rsp ≤ m.regs .rsp/16*16+15 := by omega
    rw [hit]
    generalize m.regs .rsp/16*16 = top at halign ⊢
    exact ⟨by omega,fun a _ _ => hroom.owns (by omega) (by omega),fun _ => halign.1⟩

/-- The state `m₁` in which the handler is called with the frame of `c` at `sp`: all registers are
in the frame, and only memory of `c` has been written, in kernel mode below its stack
pointer. -/
structure Interrupted (m : Machine) (c : Slot) (sp : ℕ) (m₁ : Machine) : Prop where
  kernel : m₁.kernel = m.kernel
  pcb : m₁.pcb = m.pcb
  cr3 : m₁.cr3 = m.cr3
  rsp0 : m₁.rsp0 = m.rsp0
  owner : m₁.slotOwner = m.slotOwner
  preempted : m₁.preempted = m.preempted
  stopped : m₁.stopped = Function.update m.stopped c (.tick m.regs m.word)
  only : OnlyOwn m c m₁.mem
  owns : ∀ i < 20, Owns (m.top c) c (sp+8*i)
  frame : readFrame m₁.mem m.cr3 sp = m.regs
  above : m.regs .cs = 0x18 → ∀ a, m.regs .rsp ≤ a → m₁.mem (cell m.cr3 a) = m.mem (cell m.cr3 a)

theorem interrupted_mem (m : Machine) (scratch : List ℕ) : (interrupted m scratch).mem =
    pushAll (cell m.cr3) m.mem (interruptTop m) (frameWords m.regs++scratch) := by
  rw [interrupted]

theorem Sound.interrupted (h : Sound L m) (hc : m.kernel.procCurrent = some c) {scratch : List ℕ}
    (hs : scratch.length ≤ 32) :
    Interrupted m c (Cpu.interruptTop m-160) (interrupted m scratch) := by
  obtain ⟨hge,howns,hbelow⟩ := h.interruptTop hc
  have hlen : 8*(frameWords m.regs++scratch).length ≤ 416 := by
    simp only [List.length_append,frameWords_length]
    omega
  have hfit : 8*(frameWords m.regs++scratch).length ≤ Cpu.interruptTop m := hlen.trans hge
  refine ⟨rfl,rfl,rfl,rfl,rfl,rfl,by simp [Cpu.interrupted,hc],?_,fun i hi => ?_,?_,fun hk a ha => ?_⟩
  · rw [interrupted_mem]
    exact OnlyOwn.push hfit fun a ha hlt =>
      howns a ((Nat.sub_le_iff_le_add.mp ha).trans (Nat.add_le_add_left hlen a)) hlt
  · exact howns _ (by omega) (by omega)
  · have hroom : 8*(([]:List ℕ).length+20+scratch.length) ≤ Cpu.interruptTop m := by
      simpa using hfit
    rw [interrupted_mem]
    simpa using readFrame_pushAll m.cr3 m.mem m.regs [] scratch hroom
  · rw [interrupted_mem]
    have hle := hbelow hk
    refine pushAll_other hfit fun b _ hlt e => ?_
    exact absurd (cell_injective m.cr3 e) (by omega)

variable {m₁ : Machine} {sp : ℕ}

section

variable (h : Sound L m) (hc : m.kernel.procCurrent = some c) (hi : Interrupted m c sp m₁)
  (hmem : m'.mem = m₁.mem)
include h hc hi hmem

/-- Whoever has the memory of `m₁` and has just been interrupted finds it all. -/
theorem Sound.resumes_tick (htop : m'.top c = m.top c)
    (hcr3 : (m'.pcb c).cr3 = (m.pcb c).cr3) (hstop : m'.stopped c = .tick m.regs m.word) :
    Resumes m' c m.regs := by
  simp only [Resumes,hstop,htop,hcr3,hmem,true_and]
  intro hk a ha ho
  rw [h.own_cell hc ho]
  exact hi.above hk a ha

/-- The interrupted process, with its frame saved, is parked. -/
theorem Sound.parked_tick (htop : m'.top c = m.top c)
    (hcr3 : (m'.pcb c).cr3 = (m.pcb c).cr3) (hrsp : (m'.pcb c).rsp = sp)
    (hstop : m'.stopped c = .tick m.regs m.word) : Parked m' c := by
  have hframe : m'.frame c = m.regs := by
    rw [← hi.frame,Machine.frame,hmem,hcr3,hrsp]
    exact readFrame_congr fun i hlt => by rw [h.own_cell hc (hi.owns i hlt)]
  refine ⟨by rw [htop,hrsp]; exact hi.owns,?_,?_⟩
  · rw [hframe,htop]
    exact h.fits c hc
  · rw [hframe]
    exact h.resumes_tick hc hi hmem htop hcr3 hstop

end

/-- The handler returns at once, or after saving the frame, or hands the processor over. -/
theorem handler_cases (hc : m.kernel.procCurrent = some c) (u : Bool) (sp : ℕ) :
    timerPreemptHandler m u sp = (m,sp) ∨ timerPreemptHandler m u sp = (saveFrame m c sp,sp) ∨
    ∃ next, m.kernel.state c ≠ .terminated ∧
      ¬(u = false ∧ (m.kernel.queue.head.all fun peek => m.kernel.pid peek = 1) = true) ∧
      pickNext m.kernel c = some next ∧
      timerPreemptHandler m u sp =
        ({ saveFrame m c sp with
            kernel := Sched.timerPreemptHandler m.kernel u
            rsp0 := ((saveFrame m c sp).pcb next).kernelStackTop
            cr3 := ((saveFrame m c sp).pcb next).cr3
            preempted := Function.update m.preempted c true },((saveFrame m c sp).pcb next).rsp) := by
  simp only [timerPreemptHandler,hc]
  split
  · exact Or.inl rfl
  rename_i ht
  split
  · exact Or.inl rfl
  rename_i hpeek
  have hkernel : (saveFrame m c sp).kernel = m.kernel := rfl
  rw [hkernel]
  cases hnext : pickNext m.kernel c with
  | none => exact Or.inr (Or.inl rfl)
  | some next => exact Or.inr (Or.inr ⟨next,ht,hpeek,rfl,rfl⟩)

theorem saveFrame_other {q : Slot} (hq : q ≠ c) (sp : ℕ) : (saveFrame m c sp).pcb q = m.pcb q := by
  simp [saveFrame,hq]

theorem saveFrame_self (m : Machine) (c : Slot) (sp : ℕ) :
    ((saveFrame m c sp).pcb c).rsp = sp ∧ ((saveFrame m c sp).pcb c).cr3 = (m.pcb c).cr3 ∧
      (saveFrame m c sp).top c = m.top c := by
  simp [saveFrame,Machine.top]

theorem Sound.tick_stay (h : Sound L m) (hc : m.kernel.procCurrent = some c)
    (hi : Interrupted m c sp m₁) (hkernel : m'.kernel = m₁.kernel)
    (howner : m'.slotOwner = m₁.slotOwner) (hmem : m'.mem = m₁.mem)
    (hpcb : ∀ q, q ≠ c → m'.pcb q = m₁.pcb q) (htop : m'.top c = m₁.top c)
    (hcr3 : (m'.pcb c).cr3 = (m₁.pcb c).cr3) (hstop : m'.stopped = m₁.stopped)
    (hregs : m'.regs = readFrame m₁.mem m₁.cr3 sp) (hroot : m'.cr3 = m₁.cr3)
    (hrsp0 : m'.rsp0 = m₁.rsp0) (hpre : m'.preempted = m₁.preempted) :
    Sound L m' ∧ ∀ p, m'.kernel.procCurrent = some p → Resumes m' p m'.regs := by
  rw [hi.cr3,hi.frame] at hregs
  rw [hi.stopped] at hstop
  simp only [Machine.top,hi.kernel,hi.pcb,hi.cr3,hi.rsp0,hi.owner,hi.preempted] at *
  refine ⟨h.stay hc hkernel howner (by rw [hmem]; exact hi.only) hpcb htop hcr3
    (fun q hq => by simp [hstop,hq]) (by rw [hregs]; exact h.fits c hc) hroot hrsp0 hpre,fun p hp => ?_⟩
  rw [hkernel] at hp
  obtain rfl : c = p := Option.some.inj (hc.symm.trans hp)
  rw [hregs]
  exact h.resumes_tick hc hi hmem htop hcr3 (by simp [hstop])

/-- A tick keeps the invariant, and whoever runs after it has what it stopped with. -/
theorem Sound.tick (h : Sound L m) {scratch : List ℕ} (hs : scratch.length ≤ 32) :
    Sound L (irq0Stub m scratch) ∧ ∀ p, (irq0Stub m scratch).kernel.procCurrent = some p →
      Resumes (irq0Stub m scratch) p (irq0Stub m scratch).regs := by
  obtain ⟨xs,hsched⟩ := h.sched
  obtain ⟨c,hc,-⟩ := hsched.running
  have hi := h.interrupted hc hs
  unfold irq0Stub
  generalize Cpu.interrupted m scratch = m₁ at hi ⊢
  generalize Cpu.interruptTop m-160 = sp at hi ⊢
  have hc₁ : m₁.kernel.procCurrent = some c := by rw [hi.kernel,hc]
  rcases handler_cases hc₁ (m.regs .cs % 4 = 3) sp with
    he | he | ⟨next,ht,hpeek,hnext,he⟩ <;> rw [he]
  · exact h.tick_stay hc hi rfl rfl rfl (fun _ _ => rfl) rfl rfl rfl rfl rfl rfl rfl
  · obtain ⟨-,hcr3,htop⟩ := saveFrame_self m₁ c sp
    exact h.tick_stay hc hi rfl rfl rfl (fun q hq => saveFrame_other hq sp) htop hcr3 rfl rfl rfl rfl
      rfl
  · rw [hi.kernel] at ht hpeek hnext
    obtain ⟨hn,hnc,ys,hswitch⟩ := hsched.pick hc _ ht hpeek hnext
    obtain ⟨hrsp,hcr3,htop⟩ := saveFrame_self m₁ c sp
    simp only [Machine.top,hi.pcb] at hcr3 htop
    have hpcb : ∀ q, q ≠ c → (saveFrame m₁ c sp).pcb q = m.pcb q := fun q hq => by
      rw [saveFrame_other hq,hi.pcb]
    have hkernel : Sched.timerPreemptHandler m₁.kernel (m.regs .cs % 4 = 3) =
        Sched.timerPreemptHandler m.kernel (m.regs .cs % 4 = 3) := by rw [hi.kernel]
    have hself : m₁.stopped c = .tick m.regs m.word := by simp [hi.stopped]
    rw [hkernel]
    exact h.switch hc hnc hn ⟨ys,.of_switched hswitch hn hsched.idle hsched.up hsched.pids⟩
      hswitch.procCurrent (switched_used hswitch hn) hi.owner hi.only hpcb htop hcr3
      (fun q hq => by show m₁.stopped q = m.stopped q; simp [hi.stopped,hq])
      (h.parked_tick hc hi rfl htop hcr3 hrsp hself) rfl rfl rfl

/-! Blocking. -/

/-- A process other than idle runs under its own root. -/
theorem Sound.root (h : Sound L m) (hc : m.kernel.procCurrent = some c) (hp : m.kernel.pid c ≠ 1) :
    m.cr3 = (m.pcb c).cr3 := by
  obtain ⟨xs,hsched⟩ := h.sched
  rcases h.space c hc with he | ⟨rfl,-⟩
  · exact he
  · exact absurd hsched.idle hp

theorem ring0Frame_calleeSaved (regs : Regs) (s : Saved) : ∀ r ∈ calleeSaved,
    ring0Frame regs s r = regs r := by
  intro r hr
  simp only [calleeSaved,List.mem_cons,List.not_mem_nil,or_false] at hr
  rcases hr with rfl | rfl | rfl | rfl | rfl | rfl <;> rfl

theorem switchWords_ring0 (regs : Regs) (s : Saved) {b : Pcb}
    (h : b.blockKind ≠ .none ∨ kernelBase ≤ s.regs .rip) :
    switchWords regs s b = (regs .rip::calleeSaved.map regs++[regs .rip,regs .rsp])++
      (frameWords (ring0Frame regs s)++[]) := by
  simp [switchWords,h]

/-- What blocking does to the scheduler. -/
structure Yielded (k k' : Kernel) (c next : Slot) : Prop where
  sched : ∃ ys, Scheduled k' ys
  current : k'.current = some next
  procCurrent : k'.procCurrent = some next
  other : next ≠ c
  live : k.state next ≠ .unused
  used : ∀ q, k'.state q ≠ .unused ↔ k.state q ≠ .unused

theorem Scheduled.yielded (h : Scheduled k xs) (hc : k.procCurrent = some c) (hp : k.pid c ≠ 1)
    {k₁ : Kernel} (hs : Switched k₁ k' next ys) (hnc : next ≠ c) (hn : k.state next ≠ .unused)
    (hother : ∀ q, q ≠ c → k₁.pool q = k.pool q) (hpid : k₁.pid c = k.pid c)
    (hstate : k₁.state c ≠ .unused) (hpids : k₁.nextPid = k.nextPid) : Yielded k k' c next := by
  have hrest : ∀ q, q ≠ c → k₁.pid q = k.pid q ∧ k₁.state q = k.state q := fun q hq => by
    rw [Kernel.pid,Kernel.state,hother q hq]
    exact ⟨rfl,rfl⟩
  have hlive : ∀ q, k₁.state q ≠ .unused ↔ k.state q ≠ .unused := by
    intro q
    by_cases hq : q = c
    · rw [hq]
      exact iff_of_true hstate (h.off hc).2.1
    · rw [(hrest q hq).2]
  have hn₁ := (hlive next).mpr hn
  refine ⟨⟨ys,.of_switched hs hn₁ ?_ (fun q hq => ?_) (hpids ▸ h.pids)⟩,hs.current,hs.procCurrent,hnc,hn,
    fun q => (switched_used hs hn₁ q).trans (hlive q)⟩
  · rw [(hrest 0 fun e => hp (e ▸ h.idle)).1,h.idle]
  · have hqc : q ≠ c := by
      rintro rfl
      exact hp (hpid ▸ hq)
    rw [(hrest q hqc).1] at hq
    rw [(hrest q hqc).2]
    exact h.up q hq

theorem Scheduled.blocked (h : Scheduled k xs) (hc : k.procCurrent = some c) (hp : k.pid c ≠ 1)
    (target : ℕ) : ∃ next, Yielded k (processYield (awaiting k c target)) c next ∧
      ((processYield (awaiting k c target)).pool c).blockKind ≠ .none := by
  obtain ⟨next,ys,hnc,hn,hswitch⟩ := h.yield hc hp target
  refine ⟨next,h.yielded hc hp hswitch hnc hn (fun q hq => ?_) ?_ ?_ rfl,?_⟩
  · simp [awaiting_pool,hq]
  · simp [awaiting_pool]
  · simp [awaiting_pool]
  · rw [hswitch.frame c]
    simp [awaiting_pool]

/-- What `context_switch` pushes: the frame at the end, all of it below the stack pointer of the
caller and on the caller's memory. -/
structure Pushed (m : Machine) (c : Slot) (ws : List ℕ) (mem : Cell → ℕ) : Prop where
  only : OnlyOwn m c mem
  owns : ∀ i < 20, Owns (m.top c) c (m.regs .rsp-8*ws.length+8*i)
  frame : readFrame mem m.cr3 (m.regs .rsp-8*ws.length) = ring0Frame m.regs (m.pcb c)
  above : ∀ a, m.regs .rsp ≤ a → mem (cell m.cr3 a) = m.mem (cell m.cr3 a)

theorem pushed_switchWords (hroom : Room (m.top c) c (m.regs .rsp)) {b : Pcb}
    (hb : b.blockKind ≠ .none ∨ kernelBase ≤ (m.pcb c).regs .rip) : Pushed m c (switchWords m.regs (m.pcb c) b)
      (pushAll (cell m.cr3) m.mem (m.regs .rsp) (switchWords m.regs (m.pcb c) b)) := by
  have hle := hroom.le
  have hread := readFrame_pushAll m.cr3 m.mem (ring0Frame m.regs (m.pcb c))
    (m.regs .rip::calleeSaved.map m.regs++[m.regs .rip,m.regs .rsp]) []
    (by simp; omega : 8*(9+20+0) ≤ m.regs .rsp)
  have hlen : (switchWords m.regs (m.pcb c) b).length = 29 := by
    rw [switchWords_ring0 _ _ hb]
    simp [calleeSaved]
  rw [← switchWords_ring0 _ _ hb] at hread
  generalize switchWords m.regs (m.pcb c) b = ws at hread hlen ⊢
  have hfit : 8*ws.length ≤ m.regs .rsp := by rw [hlen]; omega
  refine ⟨OnlyOwn.push hfit fun a ha hlt => ?_,fun i hi => ?_,?_,fun a ha => ?_⟩
  · have := Nat.sub_le_iff_le_add.mp ha
    exact hroom.owns (by omega) hlt
  · rw [hlen]
    exact hroom.owns (by omega) (by omega)
  · rw [hlen]
    exact hread
  · refine pushAll_other hfit fun b _ hlt e => ?_
    exact absurd (cell_injective m.cr3 e) (by omega)

theorem Sound.contextSwitch (h : Sound L m) (hc : m.kernel.procCurrent = some c)
    (hroot : m.cr3 = (m.pcb c).cr3) (hk : m.regs .cs = 0x18) (hy : Yielded m.kernel k' c next)
    (hkind : (k'.pool c).blockKind ≠ .none ∨ kernelBase ≤ (m.pcb c).regs .rip)
    (hs : contextSwitch { m with kernel := k' } c next = some m') :
    Sound L m' ∧ ∀ p, m'.kernel.procCurrent = some p → Resumes m' p m'.regs := by
  obtain ⟨hrip,hroom⟩ : kernelBase ≤ m.regs .rip ∧ Room (m.top c) c (m.regs .rsp) := by
    rcases h.fits c hc with ⟨hcs,-⟩ | hfits
    · rw [hk] at hcs
      cases hcs
    · exact hfits.2
  have hpush := pushed_switchWords hroom hkind
  simp only [Cpu.contextSwitch,saving] at hs
  generalize pushAll (cell m.cr3) m.mem (m.regs .rsp) _ = mem at hs hpush
  split at hs
  · obtain rfl := Option.some.inj hs
    have hframe := hpush.frame
    refine h.switch hc hy.other hy.live hy.sched hy.procCurrent hy.used rfl hpush.only
      (fun q hq => by simp [hq]) (by simp [Machine.top]) (by simpa using hroot)
      (fun q hq => by simp [hq]) ⟨?_,?_,?_⟩ rfl rfl rfl
    · simpa [Machine.top] using hpush.owns
    · simp only [Machine.frame,Machine.top,Function.update_self,hframe]
      exact Or.inr ⟨rfl,hrip,hroom⟩
    · simp only [Resumes,Machine.frame,Machine.top,Function.update_self,hframe]
      exact ⟨ring0Frame_calleeSaved _ _,rfl,rfl,fun a ha _ => hpush.above a ha⟩
  · cases hs

theorem Sound.block (h : Sound L m) (hc : m.kernel.procCurrent = some c)
    (hp : m.kernel.pid c ≠ 1) (hk : m.regs .cs = 0x18) {target : ℕ}
    (hb : block m c target = some m') :
    Sound L m' ∧ ∀ p, m'.kernel.procCurrent = some p → Resumes m' p m'.regs := by
  obtain ⟨xs,hsched⟩ := h.sched
  obtain ⟨next,hy,hkind⟩ := hsched.blocked hc hp target
  simp only [Cpu.block,hy.current,if_neg hy.other] at hb
  exact h.contextSwitch hc (h.root hc hp) hk hy (Or.inl hkind) hb

/-! The other events. -/

theorem OnlyOwn.store {stores : List (ℕ × ℕ)} {mem : Cell → ℕ} (hmem : OnlyOwn m c mem)
    (h : ∀ s ∈ stores, Owns (m.top c) c s.1) : OnlyOwn m c (storeAll m.cr3 stores mem) := by
  induction stores generalizing mem with
  | nil => exact hmem
  | cons s stores ih =>
    refine ih (fun x hx => ?_) fun t ht => h t (by simp [ht])
    rw [Function.update_of_ne (hx s.1 (h s (by simp))),hmem x hx]

/-- A change of the scheduler that keeps the running process and who is alive. -/
theorem Sound.reschedule (h : Sound L m) (hs : ∃ ys, Scheduled k' ys)
    (hc : k'.procCurrent = m.kernel.procCurrent) (hu : ∀ q, k'.state q ≠ .unused ↔ m.Used q) :
    Sound L { m with kernel := k' } where
  sched := hs
  placed := h.placed.keep hu rfl (fun _ => rfl) fun _ _ => rfl
  rsp0 c hp := h.rsp0 c (hc ▸ hp)
  fits c hp := h.fits c (hc ▸ hp)
  space c hp := h.space c (hc ▸ hp)
  parked p hp hne := (h.parked p ((hu p).mp hp) (hc ▸ hne)).keep rfl rfl fun _ _ => rfl

theorem Sound.wake (h : Sound L m) {p : Slot} (hp : m.kernel.state p = .blocked) :
    Sound L { m with kernel := wake m.kernel p } := by
  obtain ⟨xs,hsched⟩ := h.sched
  refine h.reschedule ⟨_,hsched.wake hp⟩ (by simp [Cpu.wake]) fun q => ?_
  by_cases hq : q = p
  · simp only [Kernel.state,wake_pool,Machine.Used,hq]
    simp only [Kernel.state] at hp
    simp [hp]
  · simp [wake_pool,hq]

theorem initialFrame_fits {top : ℕ} (q : Slot) (h : procStackSize ≤ top) (user entry rdi rsi : ℕ) :
    Fits top q (initialFrame top user entry rdi rsi) := by
  by_cases hk : entry < kernelBase
  · left
    simp [initialFrame,hk]
  · right
    simp only [procStackSize] at h
    simp only [initialFrame,if_neg hk,Room,procStackSize]
    exact ⟨trivial,by omega,Or.inl ⟨by omega,le_refl _⟩⟩

/-- Addresses of the kernel's half are the same in every space. -/
theorem cell_kernel {a : ℕ} (h : 2^47 ≤ a) (cr3 cr3' : ℕ) : cell cr3 a = cell cr3' a := by
  simp only [cell,if_neg (Nat.not_lt.mpr h)]

theorem stack_high (L : Layout) (slot : Slot) {a : ℕ} (h : L.stackTop slot ≤ a+160) : 2^47 ≤ a := by
  have hge := stackTop_ge L slot
  simp only [bootStackTop,procStackSize] at hge
  omega

theorem initial_frame {top cr3 root : ℕ} (slot : Slot) (htop : top = L.stackTop slot)
    (mem : Cell → ℕ) (user entry rdi rsi : ℕ)
    (hpcb : m.pcb p = ⟨fun r => if r = .rip then entry else 0,top-160,cr3,top⟩)
    (hmem : m.mem = pushAll (cell root) mem top (frameWords (initialFrame top user entry rdi rsi))) :
    m.frame p = initialFrame top user entry rdi rsi := by
  obtain ⟨-,hge⟩ := stackTop_ge L slot
  rw [← htop,procStackSize] at hge
  have hread := readFrame_pushAll root mem (initialFrame top user entry rdi rsi) [] []
    (by simp only [List.length_nil]; omega : 8*(([]:List ℕ).length+20+([]:List ℕ).length) ≤ top)
  simp only [List.length_nil,List.nil_append,List.append_nil,← hmem] at hread
  rw [← hread,Machine.frame,hpcb]
  refine readFrame_congr fun i _ => ?_
  rw [cell_kernel (stack_high L slot (by rw [← htop]; dsimp only; omega)) cr3 root]

theorem initial_parked {top cr3 root : ℕ} (slot : Slot) (htop : top = L.stackTop slot)
    (mem : Cell → ℕ) (user entry rdi rsi : ℕ)
    (hpcb : m.pcb p = ⟨fun r => if r = .rip then entry else 0,top-160,cr3,top⟩)
    (hstop : m.stopped p = .never) (hmem : m.mem = pushAll (cell root) mem top
      (frameWords (initialFrame top user entry rdi rsi))) : Parked m p := by
  obtain ⟨-,hge⟩ := stackTop_ge L slot
  rw [← htop,procStackSize] at hge
  have hframe := initial_frame slot htop mem user entry rdi rsi hpcb hmem
  refine ⟨fun i hi => ?_,?_,?_⟩
  · simp only [Machine.top,hpcb,Owns,procStackSize]
    exact Or.inl (by omega)
  · rw [hframe,Machine.top,hpcb]
    exact initialFrame_fits p hge user entry rdi rsi
  · simp only [Resumes,hstop]

theorem slotAlloc_spec {slot : Slot} (h : kernelStackSlotAlloc m = some slot) :
    m.slotOwner slot = none := by
  have hs := List.find?_some h
  simpa using hs

/-- What goes on a kernel stack that nobody has is on nobody's memory. -/
theorem Placed.unowned (h : Placed L m) {q slot : Slot} (hq : m.Used q) (hqp : q ≠ p)
    (hslot : m.slotOwner slot = none) {ws : List ℕ} (hlen : ws.length = 20) {a : ℕ}
    (ha : Owns (m.top q) q a) : pushAll (cell m.cr3) m.mem (L.stackTop slot) ws
      (cell (m.pcb q).cr3 a) = m.mem (cell (m.pcb q).cr3 a) := by
  obtain ⟨slot',hs',htop'⟩ := h.stack q hq
  have hne : slot' ≠ slot := by
    rintro rfl
    rw [hslot] at hs'
    cases hs'
  obtain ⟨-,hge⟩ := stackTop_ge L slot
  rw [htop'] at ha
  rw [procStackSize] at hge
  refine pushAll_other (by omega) fun b hb hlt e => ?_
  have hb' := Nat.sub_le_iff_le_add.mp hb
  have hown : Owns (L.stackTop slot) p b := by
    simp only [Owns,procStackSize]
    exact Or.inl (by omega)
  refine owns_disjoint L hqp hne ha hown (fun hlow => ?_) e.symm
  exact absurd hlow (Nat.not_lt.mpr (stack_high L slot (by omega)))

theorem Sound.fill (h : Sound L m) (hsched : ∃ ys, Scheduled m'.kernel ys) {slot : Slot}
    (hslot : m.slotOwner slot = none) (hu : m.kernel.state p = .unused)
    (hused : ∀ q, m'.Used q ↔ q = p ∨ m.Used q) (hproc : m'.kernel.procCurrent = m.kernel.procCurrent)
    {cr3 entry rdi rsi : ℕ} (hcr3 : ∀ q, m.Used q → (m.pcb q).cr3 ≠ cr3)
    (hmem : m'.mem = pushAll (cell m.cr3) m.mem (L.stackTop slot)
      (frameWords (initialFrame (L.stackTop slot) userStackTop entry rdi rsi)))
    (hpcb : m'.pcb = Function.update m.pcb p
      ⟨fun r => if r = .rip then entry else 0,L.stackTop slot-160,cr3,L.stackTop slot⟩)
    (howner : m'.slotOwner = Function.update m.slotOwner slot (some p))
    (hstop : m'.stopped = Function.update m.stopped p .never)
    (hpre : m'.preempted = Function.update m.preempted p false) (hregs : m'.regs = m.regs)
    (hroot : m'.cr3 = m.cr3) (hrsp0 : m'.rsp0 = m.rsp0) : Sound L m' := by
  have hother : ∀ q, m.Used q → q ≠ p := by
    rintro q hq rfl
    exact hq hu
  have hsame : ∀ q, q ≠ p → m'.pcb q = m.pcb q := fun q hq => by simp [hpcb,hq]
  have hcurrent : ∀ c, m'.kernel.procCurrent = some c → m.kernel.procCurrent = some c ∧ c ≠ p := by
    intro c hc
    rw [hproc] at hc
    exact ⟨hc,hother c (h.used hc)⟩
  refine ⟨hsched,⟨fun q hq => ?_,fun q r hq hr he => ?_⟩,fun c hc => ?_,fun c hc => ?_,fun c hc => ?_,
    fun q hq hne => ?_⟩
  · rcases (hused q).mp hq with rfl | hq
    · exact ⟨slot,by simp [howner],by simp [Machine.top,hpcb]⟩
    · obtain ⟨slot',hs',htop⟩ := h.placed.stack q hq
      have hne : slot' ≠ slot := by
        rintro rfl
        rw [hslot] at hs'
        cases hs'
      refine ⟨slot',by simp [howner,hne,hs'],?_⟩
      rw [Machine.top,hsame q (hother q hq)]
      exact htop
  · rcases (hused q).mp hq with rfl | hq <;> rcases (hused r).mp hr with rfl | hr
    · rfl
    · rw [hsame r (hother r hr),hpcb,Function.update_self] at he
      exact absurd he.symm (hcr3 r hr)
    · rw [hsame q (hother q hq),hpcb,Function.update_self] at he
      exact absurd he (hcr3 q hq)
    · rw [hsame q (hother q hq),hsame r (hother r hr)] at he
      exact h.placed.space q r hq hr he
  · obtain ⟨hc,hcp⟩ := hcurrent c hc
    rw [hrsp0,Machine.top,hsame c hcp]
    exact h.rsp0 c hc
  · obtain ⟨hc,hcp⟩ := hcurrent c hc
    rw [hregs,Machine.top,hsame c hcp]
    exact h.fits c hc
  · obtain ⟨hc,hcp⟩ := hcurrent c hc
    rw [hroot,hsame c hcp]
    refine (h.space c hc).imp id fun hz => ⟨hz.1,?_⟩
    rw [hpre,Function.update_of_ne (hz.1 ▸ hcp)]
    exact hz.2
  · rcases (hused q).mp hq with rfl | hq
    · exact initial_parked slot rfl m.mem userStackTop entry rdi rsi
        (by rw [hpcb,Function.update_self]) (by simp [hstop]) hmem
    · have hqp := hother q hq
      rw [hproc] at hne
      refine (h.parked q hq hne).keep (hsame q hqp) (by simp [hstop,hqp]) fun a ha => ?_
      rw [hmem]
      exact h.placed.unowned hq hqp hslot rfl ha

theorem Sound.create (h : Sound L m) {entry rdi rsi cr3 : ℕ}
    (hcr3 : ∀ q, m.Used q → (m.pcb q).cr3 ≠ cr3) : Sound L (create L m entry rdi rsi cr3) := by
  obtain ⟨xs,hsched⟩ := h.sched
  unfold Cpu.create
  cases hs : kernelStackSlotAlloc m with
  | none =>
    rcases create_noKernelStack hsched.queued entry with he | ⟨p,hu,hp,he⟩ <;> simp only [he]
    · exact h
    · refine h.reschedule ⟨_,hsched.usePid hu hp entry⟩ (by simp) fun q => ?_
      by_cases hq : q = p
      · subst hq
        simp [Machine.Used,hu]
      · simp [hq]
  | some slot =>
    rcases create_ok hsched.queued entry with hnone | ⟨p,hu,hp,he⟩
    · generalize processCreate m.kernel entry .ok = r at hnone
      obtain ⟨r₁,k⟩ := r
      obtain rfl : r₁ = none := hnone
      exact h
    · simp only [he]
      refine h.fill (p:=p) ⟨_,hsched.queueFresh hu hp entry⟩ (slotAlloc_spec hs) hu (fun q => ?_) (by simp)
        hcr3 (by dsimp only) rfl rfl rfl rfl rfl rfl rfl
      by_cases hq : q = p <;> simp [Machine.Used,hq]

/-! Runs. -/

theorem Sound.run (h : Sound L m) (hc : m.kernel.procCurrent = some c) {regs : Regs}
    {stores : List (ℕ × ℕ)} (hf : Fits (m.top c) c regs) (ho : ∀ s ∈ stores, Owns (m.top c) c s.1)
    (parts : Part → ℕ) (given : Slot → Part → Option ℕ) :
    Sound L { m with
      regs := regs, mem := storeAll m.cr3 stores m.mem, parts := parts, given := given } :=
  h.stay hc rfl rfl (OnlyOwn.store (fun _ _ => rfl) ho) (fun _ _ => rfl) rfl rfl (fun _ _ => rfl) hf rfl
    rfl rfl

theorem Sound.step (h : Sound L m) {e : Event} (hs : m.step L e = some m') : Sound L m' := by
  simp only [Machine.step,Option.bind_eq_some_iff] at hs
  obtain ⟨c,hc,hs⟩ := hs
  cases e with
  | run regs stores parts =>
    simp only at hs
    split at hs <;> cases hs
    rename_i hok
    exact h.run hc hok.1 hok.2 _ _
  | tick scratch =>
    simp only at hs
    split at hs <;> cases hs
    rename_i hlen
    exact (h.tick hlen).1
  | block target =>
    simp only at hs
    split at hs
    · rename_i hok
      exact (h.block hc hok.1 hok.2 hs).1
    · cases hs
  | wake p =>
    simp only at hs
    split at hs <;> cases hs
    rename_i hok
    exact h.wake hok
  | create entry rdi rsi cr3 =>
    simp only at hs
    split at hs <;> cases hs
    rename_i hok
    exact h.create hok.2

theorem boot_scheduled : Scheduled (Sched.boot none) [] where
  queued := ⟨rfl,by simp,by simp [Sched.boot],by simp⟩
  noIdle := by simp
  same := rfl
  running := ⟨0,rfl,by simp,by simp [Sched.boot],by simp [Sched.boot]⟩
  idle := rfl
  up p hp := by
    by_cases h0 : p = 0
    · subst h0
      simp [Sched.boot]
    · simp [Sched.boot,h0] at hp
  pids := le_refl 2

theorem boot_sound (L : Layout) (mem : Cell → ℕ) (parts : Part → ℕ) (cr3 idleCr3 : ℕ) :
    Sound L (boot L mem parts cr3 idleCr3) := by
  have hused : ∀ p, (boot L mem parts cr3 idleCr3).Used p → p = 0 := by
    intro p hp
    by_contra h0
    simp [boot,Sched.boot,h0] at hp
  have hcur : ∀ c, (boot L mem parts cr3 idleCr3).kernel.procCurrent = some c → c = 0 := fun c hc =>
    (Option.some.inj hc).symm
  refine ⟨⟨[],boot_scheduled⟩,⟨fun p hp => ⟨0,?_,rfl⟩,fun p q hp hq _ => ?_⟩,fun c hc => rfl,fun c hc => ?_,
    fun c hc => Or.inr ⟨hcur c hc,rfl⟩,fun p hp hne => ?_⟩
  · rw [hused p hp]
    rfl
  · rw [hused p hp,hused q hq]
  · rw [hcur c hc]
    refine Or.inr ⟨rfl,le_refl _,Or.inr (Or.inl ⟨rfl,?_,?_⟩)⟩ <;>
      simp [boot,bootStackTop,kernelBase]
  · rw [hused p hp] at hne
    exact absurd rfl hne

theorem run_sound {mem : Cell → ℕ} {parts : Part → ℕ} {cr3 idleCr3 : ℕ} {es : List Event}
    (hr : run (Machine.step L) (boot L mem parts cr3 idleCr3) es = some m) : Sound L m :=
  run_keeps (Sound L) (fun _ _ _ h hs => h.step hs) (boot_sound L mem parts cr3 idleCr3) hr

def Event.switches : Event → Bool
  | .tick _ | .block _ => true
  | _ => false

theorem Sound.switched (h : Sound L m) {e : Event} (he : e.switches = true)
    (hs : m.step L e = some m') (p : Slot) (hp : m'.kernel.procCurrent = some p) :
    Resumes m' p m'.regs := by
  simp only [Machine.step,Option.bind_eq_some_iff] at hs
  obtain ⟨c,hc,hs⟩ := hs
  cases e with
  | tick scratch =>
    simp only at hs
    split at hs <;> cases hs
    rename_i hlen
    exact (h.tick hlen).2 p hp
  | block target =>
    simp only at hs
    split at hs
    · rename_i hk
      exact (h.block hc hk.1 hk.2 hs).2 p hp
    · cases hs
  | _ => cases he

/-- The pool right above the boot stack. -/
def aboveBoot : Layout := ⟨bootStackTop,le_rfl⟩
def started : Machine := boot aboveBoot (fun _ => 0) (fun _ => 0) 0x1000 0x2000
/-- Two user processes, which are put into the slots 1 and 2. -/
def twoUsers : List Event := [.create userCodeBase 0 0 0x3000,.create userCodeBase 0 0 0x4000]

end Cpu
end DonsOs
