import DonsOs.Sched.Effect

/-! The process table with its kernel stacks.
`Table` adds to the scheduling state what `process.c` keeps beside it (the owners of the kernel
stack slots and the process counter) and the two stack pointers that have to follow
`current_process`: `TSS.RSP0` and `g_syscall_stack_top`.  Each function is that of the source
again, with these updates; what it does to the scheduling state is what it did before. -/
namespace DonsOs
namespace Sched

open LinkedQueue Run

/-- Index into `kernel_stack_pool`, of `MAX_PROCESSES` entries. -/
abbrev StackSlot := Fin 32

def procStackSize : ℕ := 16384

/-- `kernelStackSlot p = none` is `KERNEL_STACK_SLOT_NONE`; `stackPool` is the address of
`kernel_stack_pool`. -/
structure Table where
  kernel : Kernel
  slotOwner : StackSlot → Option Slot
  kernelStackSlot : Slot → Option StackSlot
  kernelStackTop : Slot → ℕ
  processCount : UInt64
  rsp0 : ℕ
  syscallStackTop : ℕ
  stackPool : ℕ

namespace Table

def tssSetKernelStack (t : Table) (stack : ℕ) : Table := { t with rsp0 := stack }
def tssSetSyscallStack (t : Table) (stack : ℕ) : Table := { t with syscallStackTop := stack }

/-- The two calls that follow every change of `current_process`. -/
def setStacks (t : Table) (stack : ℕ) : Table :=
  (t.tssSetKernelStack stack).tssSetSyscallStack stack

def kernelStackSlotAlloc (t : Table) (p : Slot) : Option StackSlot × Table :=
  match (List.finRange 32).find? fun i => t.slotOwner i = none with
  | none => (none,t)
  | some i => (some i,{ t with slotOwner := Function.update t.slotOwner i (some p) })

def kernelStackSlotFree (t : Table) (p : Slot) : Table :=
  match t.kernelStackSlot p with
  | none => t
  | some slot =>
    { t with
      slotOwner := if t.slotOwner slot = some p then Function.update t.slotOwner slot none
        else t.slotOwner
      kernelStackSlot := Function.update t.kernelStackSlot p none
      kernelStackTop := Function.update t.kernelStackTop p 0 }

def countUp (t : Table) : Table := { t with processCount := t.processCount+1 }
def countDown (t : Table) : Table := { t with processCount := t.processCount-1 }

def processInitializePcb (t : Table) (p : Slot) : Table :=
  countUp { t with
    kernel := Sched.processInitializePcb t.kernel p
    kernelStackSlot := Function.update t.kernelStackSlot p none
    kernelStackTop := Function.update t.kernelStackTop p 0 }

/-- `process_create` up to the user stack. -/
def started (t : Table) (p : Slot) (entry : ℕ) : Table :=
  let t := t.processInitializePcb p
  { t with kernel := t.kernel.modify p fun c => { c with entryPoint := entry, state := .ready } }

/-- `process_create` when there is no kernel stack. -/
def exhausted (t : Table) (p : Slot) : Table :=
  countDown { t with kernel := t.kernel.modify p fun c => { c with state := .unused, pid := 0 } }

/-- `process_create` with the kernel stack `slot`, up to its end. -/
def stacked (t : Table) (p : Slot) (slot : StackSlot) : Table :=
  { t with
    kernelStackSlot := Function.update t.kernelStackSlot p (some slot)
    kernelStackTop := Function.update t.kernelStackTop p
      (t.stackPool+procStackSize*slot+procStackSize)
    kernel := readyQueueAdd { t.kernel with queue := t.kernel.queue.wipe p } p }

/-- `process_create`; `userStack` says whether all pages of a user stack can be had. -/
def processCreate (t : Table) (entry : ℕ) (userStack : Bool) : Option Slot × Table :=
  match getFreePcb t.kernel with
  | none => (none,t)
  | some p =>
    let t := t.started p entry
    if entry ≠ 0 ∧ entry < kernelBase ∧ userStack = false then (none,t) else
    match t.kernelStackSlotAlloc p with
    | (none,t) => (none,t.exhausted p)
    | (some slot,t) => (some p,t.stacked p slot)

def processReclaim (t : Table) (p : Slot) : Table :=
  if t.kernel.state p = .unused then t else
  countDown { t.kernelStackSlotFree p with kernel := Sched.processReclaim t.kernel p }

def processDestroy (t : Table) (p : Slot) : Table :=
  if t.kernel.state p = .unused then t else
  countDown { t.kernelStackSlotFree p with kernel := Sched.processDestroy t.kernel p }

def schedulerSwitchTo (t : Table) (next : Slot) : Table :=
  if t.kernel.current = some next then t else
  if t.kernel.pid next = 1 ∧ (t.kernel.current.any fun c => t.kernel.state c = .running) then t else
  { t with kernel := dispatch t.kernel next }.setStacks (t.kernelStackTop next)

def processYield (t : Table) : Table :=
  match t.kernel.current with
  | none => t
  | some c =>
    if t.kernel.pid c = 1 then t else
    let k := if t.kernel.state c = .running then
        readyQueueAdd (t.kernel.setState c .ready) c
      else t.kernel
    match readyQueueNext k with
    | (some next,k) => schedulerSwitchTo { t with kernel := k } next
    | (none,k) =>
      if k.state c = .ready then schedulerSwitchTo { t with kernel := readyQueueAdd k c } c else
      match processFindByPid k 1 with
      | none => { t with kernel := k }
      | some idle => schedulerSwitchTo { t with kernel := k } idle

/-- The fallback of `process_exit`: the stacks go to idle before anything is resumed. -/
def resumeKernelShell (t : Table) (exiting : Slot) : Table :=
  let k := schedulerReset t.kernel
  let t := t.setStacks (match processFindByPid k 1 with
    | some idle => t.kernelStackTop idle
    | none => 0)
  if kernelBase ≤ (k.pool exiting).entryPoint then
    match k.kernelShell with
    | some shell =>
      if k.state shell = .blocked then
        schedulerSwitchTo { t with kernel := k.setState shell .running } shell
      else { t with kernel := { k with halted := true } }
    | none => { t with kernel := { k with halted := true } }
  else { t with kernel := { k with halted := true } }

def leave (t : Table) (exiting : Slot) : Table :=
  let t := { t with kernel := retire t.kernel exiting }
  if (t.kernel.pool exiting).parentPid ≠ 0 then
    { t with
      kernel := processWakeParentIfWaiting (t.kernel.setState exiting .zombie) exiting }
  else t.processReclaim exiting

def processExit (t : Table) : Table :=
  match t.kernel.current with
  | none => { t with kernel := { t.kernel with halted := true } }
  | some exiting =>
    let t := t.leave exiting
    match readyQueueNext t.kernel with
    | (some next,k) =>
      { t with kernel := (schedulerSetCurrent k next).setState next .running }.setStacks
        (t.kernelStackTop next)
    | (none,k) => resumeKernelShell { t with kernel := k } exiting

def timerPreemptHandler (t : Table) (userMode : Bool) : Table :=
  match t.kernel.procCurrent with
  | none => t
  | some current =>
    if t.kernel.state current = .terminated then t else
    if userMode = false ∧ (t.kernel.queue.head.all fun peek => t.kernel.pid peek = 1) then t else
    let popped := (readyQueueNext t.kernel).1
    let k := (readyQueueNext t.kernel).2
    let next := match popped with
      | some next => some next
      | none => if k.pid current = 1 then none else processFindByPid k 1
    match next with
    | none => { t with kernel := k }
    | some next =>
      let k := if k.pid current ≠ 1 ∧ k.state current = .running then
          readyQueueAdd (k.setState current .ready) current
        else k
      { t with kernel := schedulerSetCurrent (k.setState next .running) next }.setStacks
        (t.kernelStackTop next)

def sysExec (t : Table) (self : Slot) (userStack : Bool) (loaded : Option ℕ) : Table :=
  match t.processCreate userCodeBase userStack with
  | (none,t) => t
  | (some child,t) =>
    let t := { t with kernel := readyQueueRemove t.kernel child }
    match loaded with
    | none => t.processDestroy child
    | some entry =>
      let k := t.kernel.modify child fun c =>
        { c with entryPoint := entry, parentPid := t.kernel.pid self }
      { t with kernel := readyQueueAdd { k with kbd := 0 } child }

def sysWaitpid (t : Table) (self : Slot) (pid : ℤ) (nohang : Bool) : Table :=
  match scanChildren t.kernel self (waitTarget pid) (List.range' 1 999) false with
  | (some zombie,_) => t.processReclaim zombie
  | (none,live) =>
    if live = false ∨ nohang then t else
    processYield { t with
      kernel := t.kernel.modify self fun c =>
        { c with state := .blocked, blockKind := .waitpid, waitPid := waitTarget pid } }

/-- The table before `process_init`, `pcb_pool` being all zero. -/
def blank (stackPool : ℕ) (kernelShell : Option Slot) : Table where
  kernel :=
    { boot kernelShell with
      pool := fun _ => ⟨0,.unused,.none,0,0,0⟩
      current := none
      procCurrent := none
      nextPid := 1 }
  slotOwner _ := none
  kernelStackSlot _ := none
  kernelStackTop _ := 0
  processCount := 0
  rsp0 := 0
  syscallStackTop := 0
  stackPool := stackPool

/-- `process_init`: idle is created, made current and taken off the queue. -/
def processInit (t : Table) : Table :=
  match t.processCreate kernelBase true with
  | (none,t) => t
  | (some idle,t) =>
    let t := { t with kernel := schedulerSetCurrent (t.kernel.setState idle .ready) idle }
    let t := (t.tssSetSyscallStack (t.kernelStackTop idle)).tssSetKernelStack (t.kernelStackTop idle)
    { t with kernel := readyQueueRemove t.kernel idle }

/-! What the functions do to the scheduling state. -/

section

variable (t : Table)

@[simp] theorem setStacks_kernel (stack : ℕ) : (t.setStacks stack).kernel = t.kernel := rfl
@[simp] theorem countUp_kernel : t.countUp.kernel = t.kernel := rfl
@[simp] theorem countDown_kernel : t.countDown.kernel = t.kernel := rfl

@[simp] theorem processReclaim_kernel (p : Slot) :
    (t.processReclaim p).kernel = Sched.processReclaim t.kernel p := by
  by_cases hu : t.kernel.state p = .unused
  · simp only [processReclaim,Sched.processReclaim,if_pos hu]
  · simp only [processReclaim,if_neg hu,countDown_kernel]

@[simp] theorem processDestroy_kernel (p : Slot) :
    (t.processDestroy p).kernel = Sched.processDestroy t.kernel p := by
  by_cases hu : t.kernel.state p = .unused
  · simp only [processDestroy,Sched.processDestroy,if_pos hu]
  · simp only [processDestroy,if_neg hu,countDown_kernel]

@[simp] theorem schedulerSwitchTo_kernel (next : Slot) :
    (t.schedulerSwitchTo next).kernel = Sched.schedulerSwitchTo t.kernel next := by
  simp only [schedulerSwitchTo,Sched.schedulerSwitchTo]
  split
  · rfl
  · split <;> rfl

@[simp] theorem processYield_kernel : t.processYield.kernel = Sched.processYield t.kernel := by
  cases hc : t.kernel.current with
  | none => simp only [processYield,Sched.processYield,hc]
  | some c =>
    by_cases hp : t.kernel.pid c = 1
    · simp only [processYield,Sched.processYield,hc,if_pos hp]
    · simp only [processYield,Sched.processYield,hc,if_neg hp]
      generalize readyQueueNext _ = popped
      obtain ⟨_ | next,k⟩ := popped
      · by_cases hr : k.state c = .ready
        · simp only [if_pos hr,schedulerSwitchTo_kernel]
        · simp only [if_neg hr]
          cases processFindByPid k 1 <;> simp only [schedulerSwitchTo_kernel]
      · simp only [schedulerSwitchTo_kernel]

@[simp] theorem resumeKernelShell_kernel (c : Slot) :
    (t.resumeKernelShell c).kernel = Sched.resumeKernelShell t.kernel c := by
  simp only [resumeKernelShell,Sched.resumeKernelShell]
  generalize schedulerReset t.kernel = k
  by_cases hk : kernelBase ≤ (k.pool c).entryPoint
  · simp only [if_pos hk]
    cases k.kernelShell with
    | none => rfl
    | some shell =>
      by_cases hb : k.state shell = .blocked
      · simp only [if_pos hb,schedulerSwitchTo_kernel]
      · simp only [if_neg hb]
  · simp only [if_neg hk]

@[simp] theorem leave_kernel (c : Slot) : (t.leave c).kernel = Sched.leave t.kernel c := by
  simp only [leave,Sched.leave]
  split <;> simp only [processReclaim_kernel]

@[simp] theorem processExit_kernel : t.processExit.kernel = Sched.processExit t.kernel := by
  cases hc : t.kernel.current with
  | none => simp only [processExit,Sched.processExit,hc]
  | some c =>
    simp only [processExit,Sched.processExit,hc,leave_kernel]
    generalize readyQueueNext _ = popped
    obtain ⟨_ | next,k⟩ := popped
    · simp only [resumeKernelShell_kernel]
    · simp only [setStacks_kernel]

@[simp] theorem timerPreemptHandler_kernel (u : Bool) :
    (t.timerPreemptHandler u).kernel = Sched.timerPreemptHandler t.kernel u := by
  cases hc : t.kernel.procCurrent with
  | none => simp only [timerPreemptHandler,Sched.timerPreemptHandler,hc]
  | some c =>
    simp only [timerPreemptHandler,Sched.timerPreemptHandler,hc]
    by_cases ht : t.kernel.state c = .terminated
    · simp only [if_pos ht]
    by_cases hu : u = false ∧ (t.kernel.queue.head.all fun peek => t.kernel.pid peek = 1)
    · simp only [if_neg ht,if_pos hu]
    simp only [if_neg ht,if_neg hu]
    generalize readyQueueNext t.kernel = popped
    obtain ⟨next,k⟩ := popped
    cases next with
    | some next => rfl
    | none =>
      by_cases hp : k.pid c = 1
      · simp only [if_pos hp]
      · simp only [if_neg hp]
        cases processFindByPid k 1 <;> rfl

@[simp] theorem sysWaitpid_kernel (self : Slot) (pid : ℤ) (nohang : Bool) :
    (t.sysWaitpid self pid nohang).kernel = Sched.sysWaitpid t.kernel self pid nohang := by
  simp only [sysWaitpid,Sched.sysWaitpid,waitScan]
  generalize scanChildren _ _ _ _ _ = scan
  obtain ⟨_ | zombie,live⟩ := scan
  · simp only
    split <;> simp only [processYield_kernel]
  · simp only [processReclaim_kernel]

end

/-- What `process_create` gets from the allocators. -/
def alloc (t : Table) (entry : ℕ) (userStack : Bool) : Alloc :=
  if entry ≠ 0 ∧ entry < kernelBase ∧ userStack = false then .noUserStack
  else if ∀ i, t.slotOwner i ≠ none then .noKernelStack else .ok

theorem slotAlloc_cases (t : Table) (p : Slot) :
    (∀ i, t.slotOwner i ≠ none) ∧ t.kernelStackSlotAlloc p = (none,t) ∨
      ∃ i, t.slotOwner i = none ∧ t.kernelStackSlotAlloc p =
        (some i,{ t with slotOwner := Function.update t.slotOwner i (some p) }) := by
  cases hf : (List.finRange 32).find? fun i => t.slotOwner i = none with
  | none =>
    refine Or.inl ⟨fun i hi => ?_,by simp only [kernelStackSlotAlloc,hf]⟩
    have hno := List.find?_eq_none.mp hf i (List.mem_finRange i)
    simp [hi] at hno
  | some i =>
    have hi := List.find?_some hf
    exact Or.inr ⟨i,by simpa using hi,by simp only [kernelStackSlotAlloc,hf]⟩

@[simp] theorem started_slotOwner (t : Table) (p : Slot) (entry : ℕ) :
    (t.started p entry).slotOwner = t.slotOwner := rfl

theorem started_kernel {S : ProcState → Prop} {t : Table} {xs : List Slot}
    (h : Queued S t.kernel xs) {p : Slot} (hp : p ∉ xs) (entry : ℕ) :
    (t.started p entry).kernel = created t.kernel p entry := initialize_created h hp entry

@[simp] theorem started_kernelStackTop (t : Table) (p q : Slot) (entry : ℕ) :
    (t.started p entry).kernelStackTop q = if q = p then 0 else t.kernelStackTop q := by
  simp [started,processInitializePcb,countUp,Function.update_apply]
@[simp] theorem started_kernelStackSlot (t : Table) (p q : Slot) (entry : ℕ) :
    (t.started p entry).kernelStackSlot q = if q = p then none else t.kernelStackSlot q := by
  simp [started,processInitializePcb,countUp,Function.update_apply]

@[simp] theorem free_kernelStackSlot (t : Table) (p q : Slot) :
    (t.kernelStackSlotFree p).kernelStackSlot q =
      if q = p then none else t.kernelStackSlot q := by
  by_cases hq : q = p
  · subst hq
    cases hs : t.kernelStackSlot q <;> simp [kernelStackSlotFree,hs]
  · cases hs : t.kernelStackSlot p <;> simp [kernelStackSlotFree,hs,hq]

theorem free_kernelStackTop_ne (t : Table) {p q : Slot} (hq : q ≠ p) :
    (t.kernelStackSlotFree p).kernelStackTop q = t.kernelStackTop q := by
  cases hs : t.kernelStackSlot p <;> simp [kernelStackSlotFree,hs,hq]

/-- A process without a slot has no stack to give up. -/
theorem free_kernelStackTop {t : Table} {p : Slot}
    (h : t.kernelStackSlot p = none → t.kernelStackTop p = 0) :
    (t.kernelStackSlotFree p).kernelStackTop p = 0 := by
  cases hs : t.kernelStackSlot p with
  | none => simpa [kernelStackSlotFree,hs] using h hs
  | some slot => simp [kernelStackSlotFree,hs]

@[simp] theorem free_processCount (t : Table) (p : Slot) :
    (t.kernelStackSlotFree p).processCount = t.processCount := by
  simp only [kernelStackSlotFree]; split <;> rfl
@[simp] theorem free_rsp0 (t : Table) (p : Slot) : (t.kernelStackSlotFree p).rsp0 = t.rsp0 := by
  simp only [kernelStackSlotFree]; split <;> rfl
@[simp] theorem free_syscallStackTop (t : Table) (p : Slot) :
    (t.kernelStackSlotFree p).syscallStackTop = t.syscallStackTop := by
  simp only [kernelStackSlotFree]; split <;> rfl

/-- The slot `i` is given to `p`. -/
def give (t : Table) (i : StackSlot) (p : Slot) : Table :=
  { t with slotOwner := Function.update t.slotOwner i (some p) }

theorem create_cases (t : Table) (entry : ℕ) (userStack : Bool) :
    getFreePcb t.kernel = none ∧ t.processCreate entry userStack = (none,t) ∨
      ∃ p, getFreePcb t.kernel = some p ∧
        (t.alloc entry userStack = .noUserStack ∧
            t.processCreate entry userStack = (none,t.started p entry) ∨
          t.alloc entry userStack = .noKernelStack ∧ (∀ i, t.slotOwner i ≠ none) ∧
            t.processCreate entry userStack = (none,(t.started p entry).exhausted p) ∨
          t.alloc entry userStack = .ok ∧ ∃ i, t.slotOwner i = none ∧
            t.processCreate entry userStack =
              (some p,((t.started p entry).give i p).stacked p i)) := by
  cases hf : getFreePcb t.kernel with
  | none => exact Or.inl ⟨rfl,by simp only [processCreate,hf]⟩
  | some p =>
    refine Or.inr ⟨p,rfl,?_⟩
    simp only [processCreate,hf]
    by_cases hu : entry ≠ 0 ∧ entry < kernelBase ∧ userStack = false
    · exact Or.inl ⟨if_pos hu,if_pos hu⟩
    · rw [if_neg hu]
      rcases slotAlloc_cases (t.started p entry) p with ⟨hno,he⟩ | ⟨i,hi,he⟩
      · rw [started_slotOwner] at hno
        exact Or.inr (Or.inl ⟨by rw [alloc,if_neg hu,if_pos hno],hno,by simp only [he]⟩)
      · refine Or.inr (Or.inr ⟨?_,i,hi,by simp only [he,give]⟩)
        rw [alloc,if_neg hu,if_neg fun hno => hno i hi]

theorem processCreate_kernel (t : Table) (entry : ℕ) (userStack : Bool) :
    Sched.processCreate t.kernel entry (t.alloc entry userStack) =
      ((t.processCreate entry userStack).1,(t.processCreate entry userStack).2.kernel) := by
  rcases t.create_cases entry userStack with ⟨hf,he⟩ | ⟨p,hf,⟨ha,he⟩ | ⟨ha,-,he⟩ | ⟨ha,i,-,he⟩⟩
  · simp only [he,Sched.processCreate,hf]
  · have hu : entry ≠ 0 ∧ entry < kernelBase := by
      simp only [alloc] at ha
      split at ha
      · rename_i hu
        exact ⟨hu.1,hu.2.1⟩
      · split at ha <;> cases ha
    simp only [he,Sched.processCreate,hf]
    rw [if_pos ⟨hu.1,hu.2,ha⟩]
    rfl
  · simp [he,Sched.processCreate,hf,ha,exhausted,started,processInitializePcb]
  · simp [he,Sched.processCreate,hf,ha,stacked,give,started,processInitializePcb]

@[simp] theorem sysExec_kernel (t : Table) (self : Slot) (userStack : Bool) (loaded : Option ℕ) :
    (t.sysExec self userStack loaded).kernel =
      Sched.sysExec t.kernel self (t.alloc userCodeBase userStack) loaded := by
  simp only [sysExec,Sched.sysExec,processCreate_kernel]
  generalize t.processCreate userCodeBase userStack = made
  obtain ⟨_ | child,t₁⟩ := made
  · rfl
  · cases loaded <;> simp only [processDestroy_kernel]

/-! What they do to the stack pointers. -/

/-- The table is kept, and the stack pointers follow the current process. -/
structure Locked (t t' : Table) : Prop where
  slotOwner : t'.slotOwner = t.slotOwner
  kernelStackSlot : t'.kernelStackSlot = t.kernelStackSlot
  kernelStackTop : t'.kernelStackTop = t.kernelStackTop
  processCount : t'.processCount = t.processCount
  pointers : (t'.kernel.current = t.kernel.current ∧ t'.rsp0 = t.rsp0 ∧
      t'.syscallStackTop = t.syscallStackTop) ∨
    ∃ next, t'.kernel.current = some next ∧ t'.rsp0 = t.kernelStackTop next ∧
      t'.syscallStackTop = t.kernelStackTop next

theorem Locked.of_kernel (t : Table) {k : Kernel} (h : k.current = t.kernel.current) :
    Locked t { t with kernel := k } := ⟨rfl,rfl,rfl,rfl,Or.inl ⟨h,rfl,rfl⟩⟩

theorem Locked.trans_kernel {t t' : Table} {k : Kernel} (h : k.current = t.kernel.current)
    (hl : Locked { t with kernel := k } t') : Locked t t' :=
  ⟨hl.slotOwner,hl.kernelStackSlot,hl.kernelStackTop,hl.processCount,
    hl.pointers.imp_left fun hs => ⟨hs.1.trans h,hs.2⟩⟩

theorem Locked.refl (t : Table) : Locked t t := ⟨rfl,rfl,rfl,rfl,Or.inl ⟨rfl,rfl,rfl⟩⟩

theorem switchTo_locked (t : Table) (next : Slot) : Locked t (t.schedulerSwitchTo next) := by
  simp only [schedulerSwitchTo]
  split
  · exact Locked.refl t
  split
  · exact Locked.refl t
  · exact ⟨rfl,rfl,rfl,rfl,Or.inr ⟨next,dispatch_current t.kernel next,rfl,rfl⟩⟩

theorem next_current (k : Kernel) : (readyQueueNext k).2.current = k.current := by
  simp only [readyQueueNext]
  split <;> rfl

theorem yield_locked (t : Table) : Locked t t.processYield := by
  cases hc : t.kernel.current with
  | none => simpa only [processYield,hc] using Locked.refl t
  | some c =>
    by_cases hp : t.kernel.pid c = 1
    · simpa only [processYield,hc,if_pos hp] using Locked.refl t
    · simp only [processYield,hc,if_neg hp]
      have hcur : (readyQueueNext (if t.kernel.state c = .running then
          readyQueueAdd (t.kernel.setState c .ready) c else t.kernel)).2.current =
          t.kernel.current := by
        rw [next_current]
        split <;> simp
      generalize readyQueueNext _ = popped at hcur
      obtain ⟨_ | next,k⟩ := popped
      · by_cases hr : k.state c = .ready
        · simp only [if_pos hr]
          exact Locked.trans_kernel ((add_current k c).trans hcur) (switchTo_locked _ c)
        · simp only [if_neg hr]
          cases processFindByPid k 1 with
          | none => exact Locked.of_kernel t hcur
          | some idle => exact Locked.trans_kernel hcur (switchTo_locked _ idle)
      · exact Locked.trans_kernel hcur (switchTo_locked _ next)

theorem tick_locked (t : Table) (u : Bool) : Locked t (t.timerPreemptHandler u) := by
  cases hc : t.kernel.procCurrent with
  | none => simpa only [timerPreemptHandler,hc] using Locked.refl t
  | some c =>
    simp only [timerPreemptHandler,hc]
    split
    · exact Locked.refl t
    split
    · exact Locked.refl t
    have hcur := next_current t.kernel
    generalize readyQueueNext t.kernel = popped at hcur
    obtain ⟨next,k⟩ := popped
    cases next with
    | some next => exact ⟨rfl,rfl,rfl,rfl,Or.inr ⟨next,rfl,rfl,rfl⟩⟩
    | none =>
      by_cases hp : k.pid c = 1
      · simp only [if_pos hp]
        exact Locked.of_kernel t hcur
      · simp only [if_neg hp]
        cases processFindByPid k 1 with
        | none => exact Locked.of_kernel t hcur
        | some idle => exact ⟨rfl,rfl,rfl,rfl,Or.inr ⟨idle,rfl,rfl,rfl⟩⟩

/-- What is left of the table when `c` has given up its PCB is kept, and the stack pointers go
to the process that takes over, if there is one. -/
structure HandedOn (t t' : Table) : Prop where
  slotOwner : t'.slotOwner = t.slotOwner
  kernelStackSlot : t'.kernelStackSlot = t.kernelStackSlot
  kernelStackTop : t'.kernelStackTop = t.kernelStackTop
  processCount : t'.processCount = t.processCount
  pointers : t'.kernel.current = none ∨ ∃ next, t'.kernel.current = some next ∧
    t'.rsp0 = t.kernelStackTop next ∧ t'.syscallStackTop = t.kernelStackTop next

theorem resume_handedOn (t : Table) (c : Slot) : HandedOn t (t.resumeKernelShell c) := by
  simp only [resumeKernelShell]
  split
  · cases (schedulerReset t.kernel).kernelShell with
    | none => exact ⟨rfl,rfl,rfl,rfl,Or.inl rfl⟩
    | some shell =>
      simp only
      split
      · simp only [schedulerSwitchTo,setState_eq,modify_rest]
        have hnone : (schedulerReset t.kernel).current = none := rfl
        simp only [hnone,reduceCtorEq,if_false,Option.any_none,Bool.false_eq_true,and_false]
        exact ⟨rfl,rfl,rfl,rfl,Or.inr ⟨shell,dispatch_current _ shell,rfl,rfl⟩⟩
      · exact ⟨rfl,rfl,rfl,rfl,Or.inl rfl⟩
  · exact ⟨rfl,rfl,rfl,rfl,Or.inl rfl⟩

theorem exit_handedOn (t : Table) {c : Slot} (hc : t.kernel.current = some c) :
    HandedOn (t.leave c) t.processExit := by
  simp only [processExit,hc]
  generalize t.leave c = t₁
  generalize readyQueueNext t₁.kernel = popped
  obtain ⟨_ | next,k⟩ := popped
  · have hr := resume_handedOn { t₁ with kernel := k } c
    exact ⟨hr.slotOwner,hr.kernelStackSlot,hr.kernelStackTop,hr.processCount,hr.pointers⟩
  · exact ⟨rfl,rfl,rfl,rfl,Or.inr ⟨next,rfl,rfl,rfl⟩⟩

/-! Runs. -/

/-- The calls that change the table.  `block` is `suspend_self_for_diagnostic`. -/
inductive Call where
  | tick (userMode : Bool)
  | create (entry : ℕ) (userStack : Bool)
  | exec (userStack : Bool) (loaded : Option ℕ)
  | waitpid (pid : ℤ) (nohang : Bool)
  | yield
  | exit
  | switchTo (next : Slot)
  | block
  | reclaim (p : Slot)
  | destroy (p : Slot)

/-- A system call of the current process; idle and the kernel shell make none. -/
def syscall (t : Table) (f : Slot → Table) : Option Table :=
  t.kernel.procCurrent.bind fun self =>
    if t.kernel.pid self = 1 ∨ t.kernel.kernelShell = some self then none else some (f self)

def step (t : Table) (e : Call) : Option Table :=
  if t.kernel.halted then none else
  match e with
  | .tick userMode => some (t.timerPreemptHandler userMode)
  | .create entry userStack => some (t.processCreate entry userStack).2
  | .exec userStack loaded => t.syscall fun self => t.sysExec self userStack loaded
  | .waitpid pid nohang => t.syscall fun self => t.sysWaitpid self pid nohang
  | .yield => some t.processYield
  | .exit => some t.processExit
  | .switchTo next => some (t.schedulerSwitchTo next)
  | .block => t.kernel.procCurrent.bind fun self =>
      if t.kernel.pid self = 1 then none
      else some { t with kernel := t.kernel.setState self .blocked }
  | .reclaim p => some (t.processReclaim p)
  | .destroy p => some (t.processDestroy p)

theorem syscall_some {t t' : Table} {f : Slot → Table} (h : t.syscall f = some t') :
    ∃ self, t.kernel.procCurrent = some self ∧ t.kernel.pid self ≠ 1 ∧ f self = t' := by
  simp only [syscall,Option.bind_eq_some_iff] at h
  obtain ⟨self,hs,h⟩ := h
  split at h
  · cases h
  · rename_i hp
    exact ⟨self,hs,(not_or.mp hp).1,by simpa using h⟩

/-- `process_init` leaves idle with the first kernel stack. -/
def init (stackPool : ℕ) (kernelShell : Option Slot) : Table :=
  (blank stackPool kernelShell).processInit

attribute [ext] Kernel

section

variable (stackPool : ℕ) (kernelShell : Option Slot)

theorem init_kernel : (init stackPool kernelShell).kernel = boot kernelShell := by
  refine Kernel.ext ?_ (Links.ext ?_ ?_ rfl rfl) ?_ rfl rfl rfl rfl rfl rfl
  all_goals
    funext i
    fin_cases i <;> rfl

theorem init_slotOwner (i : StackSlot) :
    (init stackPool kernelShell).slotOwner i = if i = 0 then some 0 else none := by
  fin_cases i <;> rfl

theorem init_kernelStackSlot (p : Slot) :
    (init stackPool kernelShell).kernelStackSlot p = if p = 0 then some 0 else none := by
  fin_cases p <;> rfl

theorem init_kernelStackTop (p : Slot) : (init stackPool kernelShell).kernelStackTop p =
      if p = 0 then stackPool+procStackSize else 0 := by
  fin_cases p <;> rfl

end

end Table

end Sched
end DonsOs
