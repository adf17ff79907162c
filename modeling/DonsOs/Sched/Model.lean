import DonsOs.Lib.LinkedQueue
import DonsOs.Lib.Run

/-! Processes and their scheduling: `scheduler.c`, the process table of `process.c`, the
timer and keyboard interrupts and the blocking system calls.
A PCB is named by its slot in `pcb_pool`; its link fields live in `queue`.  What a
function needs from outside (whether stacks could be allocated, whether an image
loaded) is an argument of the event that calls it. -/
namespace DonsOs
namespace Sched

open LinkedQueue

/-- Index into `pcb_pool`, of `MAX_PROCESSES` entries. -/
abbrev Slot := Fin 32

instance slotsNeZero : NeZero (32 : ℕ) := ⟨by decide⟩

inductive ProcState where
  | unused | ready | running | blocked | zombie | terminated
deriving DecidableEq

inductive BlockKind where
  | none | waitpid
deriving DecidableEq

structure Pcb where
  pid : ℕ
  state : ProcState
  blockKind : BlockKind
  waitPid : ℕ
  parentPid : ℕ
  entryPoint : ℕ
deriving DecidableEq

def kernelBase : ℕ := 0xFFFFFFFF80000000
def userCodeBase : ℕ := 0x8000000000
def kbdBufferSize : ℕ := 128
/-- `(uint64_t)-1`: wait for any child. -/
def anyChild : ℕ := 18446744073709551615

/-- The scheduling state.  `current` is `current_process` of `scheduler.c` and
`procCurrent` that of `process.c`; `kbd` counts buffered characters.  `inserted` is a
history variable: the PCBs put on the ready queue and not since taken off. -/
structure Kernel where
  pool : Slot → Pcb
  queue : Links Slot
  inserted : Slot → Bool
  current : Option Slot
  procCurrent : Option Slot
  nextPid : ℕ
  kernelShell : Option Slot
  kbd : ℕ
  halted : Bool

def Kernel.modify (k : Kernel) (p : Slot) (f : Pcb → Pcb) : Kernel :=
  { k with pool := Function.update k.pool p (f (k.pool p)) }

def Kernel.setState (k : Kernel) (p : Slot) (s : ProcState) : Kernel :=
  k.modify p fun c => { c with state := s }

abbrev Kernel.state (k : Kernel) (p : Slot) : ProcState := (k.pool p).state
abbrev Kernel.pid (k : Kernel) (p : Slot) : ℕ := (k.pool p).pid

/-! The ready queue. -/

def readyQueueAdd (k : Kernel) (p : Slot) : Kernel :=
  let k := if k.state p = .running then k.setState p .ready else k
  { k with queue := k.queue.add p, inserted := Function.update k.inserted p true }

def readyQueueRemove (k : Kernel) (p : Slot) : Kernel :=
  { k with queue := k.queue.remove p, inserted := Function.update k.inserted p false }

def readyQueueNext (k : Kernel) : Option Slot × Kernel :=
  match k.queue.pop with
  | (none,_) => (none,k)
  | (some p,q) => (some p,{ k with queue := q, inserted := Function.update k.inserted p false })

def schedulerReset (k : Kernel) : Kernel :=
  { k with
    queue := k.queue.reset
    inserted := fun _ => false
    current := none
    procCurrent := none }

def schedulerSetCurrent (k : Kernel) (p : Slot) : Kernel :=
  { k with current := some p, procCurrent := some p }

/-! The process table. -/

def getFreePcb (k : Kernel) : Option Slot :=
  (List.finRange 32).find? fun i => k.state i = .unused

def processFindByPid (k : Kernel) (pid : ℕ) : Option Slot :=
  (List.finRange 32).find? fun i => k.pid i = pid ∧ k.state i ≠ .unused

/-- `process_initialize_pcb`: the `memset` also clears the link fields. -/
def processInitializePcb (k : Kernel) (p : Slot) : Kernel :=
  { k.modify p (fun _ => ⟨k.nextPid,.unused,.none,0,0,0⟩) with
    queue := k.queue.wipe p
    nextPid := k.nextPid+1 }

/-- What `process_create` gets from the page and stack allocators. -/
inductive Alloc where
  | ok | noUserStack | noKernelStack
deriving DecidableEq

/-- `process_create`.  Without a user stack page it returns `NULL` and leaves the PCB
`READY`; without a kernel stack it gives the PCB back. -/
def processCreate (k : Kernel) (entry : ℕ) (alloc : Alloc) : Option Slot × Kernel :=
  match getFreePcb k with
  | none => (none,k)
  | some p =>
    let k := processInitializePcb k p
    let k := k.modify p fun c => { c with entryPoint := entry, state := .ready }
    if entry ≠ 0 ∧ entry < kernelBase ∧ alloc = .noUserStack then (none,k) else
    if alloc = .noKernelStack then
      (none,k.modify p fun c => { c with state := .unused, pid := 0 })
    else
      (some p,readyQueueAdd { k with queue := k.queue.wipe p } p)

def processReclaim (k : Kernel) (p : Slot) : Kernel :=
  if k.state p = .unused then k else k.modify p fun c => { c with state := .unused, pid := 0 }

def processDestroy (k : Kernel) (p : Slot) : Kernel :=
  if k.state p = .unused then k else
  let k := readyQueueRemove (k.modify p fun c => { c with state := .unused, pid := 0 }) p
  if k.procCurrent = some p then { k with procCurrent := none } else k

/-- One iteration of `process_wake_all_blocked`. -/
def wakeBlocked (k : Kernel) (i : Slot) : Kernel :=
  if some i = k.kernelShell then k else
  if k.state i = .blocked ∧ (k.pool i).blockKind = .none then
    readyQueueAdd (k.setState i .ready) i
  else k

def processWakeAllBlocked (k : Kernel) : Kernel := (List.finRange 32).foldl wakeBlocked k

/-- The parent that the exit of `child` would wake. -/
def waitingParent (k : Kernel) (child : Slot) : Option Slot :=
  if (k.pool child).parentPid = 0 then none else
  match processFindByPid k (k.pool child).parentPid with
  | none => none
  | some parent =>
    if k.state parent ≠ .blocked then none else
    if (k.pool parent).blockKind ≠ .waitpid then none else
    if (k.pool parent).waitPid ≠ anyChild ∧ (k.pool parent).waitPid ≠ k.pid child then none else
    some parent

def processWakeParentIfWaiting (k : Kernel) (child : Slot) : Kernel :=
  match waitingParent k child with
  | none => k
  | some parent =>
    readyQueueAdd (k.modify parent fun c =>
      { c with state := .ready, blockKind := .none, waitPid := 0 }) parent

/-! Switching. -/

/-- `scheduler_switch_to`: a running process that is switched away from becomes `READY`
and, unless it is idle, goes back on the queue. -/
def requeue (k : Kernel) (c : Slot) : Kernel :=
  if k.state c = .running then
    let k := k.setState c .ready
    if k.pid c ≠ 1 then readyQueueAdd k c else k
  else k

/-- `scheduler_switch_to`: the incoming process becomes current and leaves the queue. -/
def takeOver (k : Kernel) (next : Slot) : Kernel :=
  let k := schedulerSetCurrent k next
  if k.pid next ≠ 1 then readyQueueRemove k next else k

/-- `scheduler_switch_to` after its early returns. -/
def dispatch (k : Kernel) (next : Slot) : Kernel :=
  (match k.current with
    | none => takeOver k next
    | some prev => requeue (takeOver k next) prev).setState next .running

def schedulerSwitchTo (k : Kernel) (next : Slot) : Kernel :=
  if k.current = some next then k else
  if k.pid next = 1 ∧ (k.current.any fun c => k.state c = .running) then k else
  dispatch k next

def processYield (k : Kernel) : Kernel :=
  match k.current with
  | none => k
  | some c =>
    if k.pid c = 1 then k else
    let k := if k.state c = .running then readyQueueAdd (k.setState c .ready) c else k
    match readyQueueNext k with
    | (some next,k) => schedulerSwitchTo k next
    | (none,k) =>
      if k.state c = .ready then schedulerSwitchTo (readyQueueAdd k c) c else
      match processFindByPid k 1 with
      | none => k
      | some idle => schedulerSwitchTo k idle

/-- The fallback of `process_exit` when nothing is runnable. -/
def resumeKernelShell (k : Kernel) (exiting : Slot) : Kernel :=
  let k := schedulerReset k
  if kernelBase ≤ (k.pool exiting).entryPoint then
    match k.kernelShell with
    | some shell =>
      if k.state shell = .blocked then schedulerSwitchTo (k.setState shell .running) shell
      else { k with halted := true }
    | none => { k with halted := true }
  else { k with halted := true }

/-- `process_exit`: the process is `TERMINATED`, off the queue and no longer current for
`process.c`. -/
def retire (k : Kernel) (exiting : Slot) : Kernel :=
  let k := readyQueueRemove (k.setState exiting .terminated) exiting
  if k.procCurrent = some exiting then { k with procCurrent := none } else k

/-- `process_exit` before the next process is picked: a process with a parent becomes a
zombie, any other gives up its PCB. -/
def leave (k : Kernel) (exiting : Slot) : Kernel :=
  let k := retire k exiting
  if (k.pool exiting).parentPid ≠ 0 then
    processWakeParentIfWaiting (k.setState exiting .zombie) exiting
  else processReclaim k exiting

def processExit (k : Kernel) : Kernel :=
  match k.current with
  | none => { k with halted := true }
  | some exiting =>
    match readyQueueNext (leave k exiting) with
    | (some next,k) => (schedulerSetCurrent k next).setState next .running
    | (none,k) => resumeKernelShell k exiting

/-! Interrupts. -/

/-- `timer_preempt_handler`.  Both branches on the interrupted mode force the quantum to
expire, so every tick that gets past the kernel-mode check picks a task. -/
def timerPreemptHandler (k : Kernel) (userMode : Bool) : Kernel :=
  match k.procCurrent with
  | none => k
  | some current =>
    if k.state current = .terminated then k else
    if userMode = false ∧ (k.queue.head.all fun peek => k.pid peek = 1) then k else
    let (popped,k) := readyQueueNext k
    let next := match popped with
      | some next => some next
      | none => if k.pid current = 1 then none else processFindByPid k 1
    match next with
    | none => k
    | some next =>
      let k := if k.pid current ≠ 1 ∧ k.state current = .running then
          readyQueueAdd (k.setState current .ready) current
        else k
      schedulerSetCurrent (k.setState next .running) next

/-- `irq1_handler` for a key that has a character. -/
def irq1Handler (k : Kernel) : Kernel :=
  processWakeAllBlocked
    (if k.kbd+1 < kbdBufferSize then { k with kbd := k.kbd+1 } else k)

/-! System calls, for the process `self`. -/

/-- `sys_exec` from `process_create` on; `loaded` is the entry point, `none` when the
image or its arguments are refused. -/
def sysExec (k : Kernel) (self : Slot) (alloc : Alloc) (loaded : Option ℕ) : Kernel :=
  match processCreate k userCodeBase alloc with
  | (none,k) => k
  | (some child,k) =>
    let k := readyQueueRemove k child
    match loaded with
    | none => processDestroy k child
    | some entry =>
      let k := k.modify child fun c => { c with entryPoint := entry, parentPid := k.pid self }
      readyQueueAdd { k with kbd := 0 } child

/-- One pass of the loop of `sys_read` on descriptor 0, up to its `hlt`. -/
def sysRead (k : Kernel) (self : Slot) : Kernel :=
  if 0 < k.kbd then { k with kbd := k.kbd-1 } else
  if k.pid self = 1 then k else
  k.modify self fun c => { c with state := .blocked, blockKind := .none }

/-- The scan of `sys_waitpid` over the given pids: a zombie child, or whether some child
is live. -/
def scanChildren (k : Kernel) (self : Slot) (target : ℕ) : List ℕ → Bool → Option Slot × Bool
  | [], live => (none,live)
  | pid::pids, live =>
    match processFindByPid k pid with
    | none => scanChildren k self target pids live
    | some c =>
      if (k.pool c).parentPid ≠ k.pid self then scanChildren k self target pids live
      else if target ≠ anyChild ∧ k.pid c ≠ target then scanChildren k self target pids live
      else if k.state c = .zombie then (some c,live)
      else scanChildren k self target pids (live || k.state c ≠ .unused)

def waitTarget (pid : ℤ) : ℕ := if pid ≤ 0 then anyChild else pid.toNat

/-- How a pass of `sys_waitpid` goes on after its scan. -/
inductive Scan where
  | returns (k : Kernel)
  | sleeps (target : ℕ)

def waitScan (k : Kernel) (self : Slot) (pid : ℤ) (nohang : Bool) : Scan :=
  match scanChildren k self (waitTarget pid) (List.range' 1 999) false with
  | (some zombie,_) => .returns (processReclaim k zombie)
  | (none,live) => if live = false ∨ nohang then .returns k else .sleeps (waitTarget pid)

def sysWaitpid (k : Kernel) (self : Slot) (pid : ℤ) (nohang : Bool) : Kernel :=
  match waitScan k self pid nohang with
  | .returns k => k
  | .sleeps target => processYield (k.modify self fun c =>
      { c with state := .blocked, blockKind := .waitpid, waitPid := target })

/-! Runs. -/

/-- The steps of the machine.  `block` is `suspend_self_for_diagnostic`. -/
inductive Event where
  | tick (userMode : Bool)
  | key
  | create (entry : ℕ) (alloc : Alloc)
  | exec (alloc : Alloc) (loaded : Option ℕ)
  | read
  | waitpid (pid : ℤ) (nohang : Bool)
  | yield
  | exit
  | switchTo (next : Slot)
  | block

/-- A system call of the current process.  Idle and the kernel shell run kernel code only
and make none. -/
def Kernel.syscall (k : Kernel) (f : Slot → Kernel) : Option Kernel :=
  k.procCurrent.bind fun self =>
    if k.pid self = 1 ∨ k.kernelShell = some self then none else some (f self)

/-- One event, atomic up to its blocking point.  A halted machine takes none. -/
def Kernel.step (k : Kernel) (e : Event) : Option Kernel :=
  if k.halted then none else
  match e with
  | .tick userMode => some (timerPreemptHandler k userMode)
  | .key => some (irq1Handler k)
  | .create entry alloc => some (processCreate k entry alloc).2
  | .exec alloc loaded => k.syscall fun self => sysExec k self alloc loaded
  | .read => k.syscall fun self => sysRead k self
  | .waitpid pid nohang => k.syscall fun self => sysWaitpid k self pid nohang
  | .yield => some (processYield k)
  | .exit => some (processExit k)
  | .switchTo next => some (schedulerSwitchTo k next)
  | .block => k.procCurrent.bind fun self =>
      if k.pid self = 1 then none else some (k.setState self .blocked)

/-- The state `process_init` leaves: only idle, current and off the queue. -/
def boot (kernelShell : Option Slot) : Kernel where
  pool i := if i = 0 then ⟨1,.ready,.none,0,0,kernelBase⟩ else ⟨0,.unused,.none,0,0,0⟩
  queue := ofList []
  inserted _ := false
  current := some 0
  procCurrent := some 0
  nextPid := 2
  kernelShell := kernelShell
  kbd := 0
  halted := false

end Sched
end DonsOs
