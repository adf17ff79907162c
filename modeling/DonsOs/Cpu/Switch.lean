import DonsOs.Lib.Stack
import DonsOs.Sched.Dispatch

/-! Switching between processes: `irq0_stub` with `timer_preempt_handler`, and
`context_switch`.
Both leave the registers of the outgoing process as a frame of twenty words on its stack,
keep the address of the frame in its PCB, and pop the frame that the PCB of the incoming
process points to.  The machine below has real stacks: a frame survives only if nobody
writes over it.  Between switches the running process executes its own code, which is
left open but for where it may write and where its stack pointer may be. -/
namespace DonsOs
namespace Cpu

open Sched Stack

/-- The registers of a frame, from its base upwards: `preempt_frame_t`. -/
inductive Reg where
  | r15 | r14 | r13 | r12 | r11 | r10 | r9 | r8 | rbp | rdi | rsi | rdx | rcx | rbx | rax
  | rip | cs | rflags | rsp | ss
deriving DecidableEq

abbrev Regs := Reg → ℕ

def frameRegs : List Reg :=
  [.r15,.r14,.r13,.r12,.r11,.r10,.r9,.r8,.rbp,.rdi,.rsi,.rdx,.rcx,.rbx,.rax,
    .rip,.cs,.rflags,.rsp,.ss]

/-- Processor state that a user program can set and that is in no frame: the segment bases,
by `sys_arch_set_fs` or directly, and the SSE registers. -/
inductive Part where
  | fsBase | gsBase | mxcsr
  | xmm (i : Fin 16)
deriving DecidableEq

/-- A word of memory.  Addresses in the kernel's half mean the same word in every address
space; a word of user memory belongs to the space with its root. -/
abbrev Cell := ℕ × ℕ

def cell (cr3 a : ℕ) : Cell := if a < 2^47 then (cr3,a) else (0,a)

/-- The words that are pushed to store `regs`: `ss` first. -/
def frameWords (regs : Regs) : List ℕ := frameRegs.reverse.map regs

/-- The registers after the frame at `sp` has been popped. -/
def readFrame (mem : Cell → ℕ) (cr3 sp : ℕ) : Regs :=
  fun r => (popAll (cell cr3) mem sp 20).getD (frameRegs.idxOf r) 0

/-! Where stacks are. -/

def procStackSize : ℕ := 16384
/-- The boot stack of `entry.asm`, on which idle goes on running. -/
def bootStackTop : ℕ := 0xFFFFFFFF80090000

/-- The linker puts `kernel_stack_pool` above the boot stack. -/
structure Layout where
  pool : ℕ
  above : bootStackTop ≤ pool

def Layout.stackTop (L : Layout) (slot : Slot) : ℕ := L.pool+procStackSize*(slot+1)

/-- The addresses that are the process's own: its kernel stack, its user memory, and for idle
the boot stack. -/
def Owns (top : ℕ) (p : Slot) (a : ℕ) : Prop :=
  (top-procStackSize ≤ a ∧ a < top) ∨ (p = 0 ∧ kernelBase ≤ a ∧ a < bootStackTop) ∨
    (p ≠ 0 ∧ a < 2^47)

/-- Below the stack pointer there are at least 512 bytes of the process's own. -/
def Room (top : ℕ) (p : Slot) (rsp : ℕ) : Prop :=
  (top-procStackSize+512 ≤ rsp ∧ rsp ≤ top) ∨
    (p = 0 ∧ kernelBase+512 ≤ rsp ∧ rsp ≤ bootStackTop) ∨ (p ≠ 0 ∧ 512 ≤ rsp ∧ rsp ≤ 2^47)

/-- A process executes user code, or kernel code on a stack of its own. -/
def Fits (top : ℕ) (p : Slot) (regs : Regs) : Prop :=
  (regs .cs = 0x33 ∧ regs .rip < kernelBase) ∨
    (regs .cs = 0x18 ∧ kernelBase ≤ regs .rip ∧ Room top p (regs .rsp))

instance (top : ℕ) (p : Slot) (a : ℕ) : Decidable (Owns top p a) :=
  inferInstanceAs (Decidable (_ ∨ _ ∨ _))
instance (top : ℕ) (p : Slot) (rsp : ℕ) : Decidable (Room top p rsp) :=
  inferInstanceAs (Decidable (_ ∨ _ ∨ _))
instance (top : ℕ) (p : Slot) (regs : Regs) : Decidable (Fits top p regs) :=
  inferInstanceAs (Decidable (_ ∨ _ ∧ _ ∧ Room top p (regs .rsp)))

/-! The machine. -/

/-- What switching uses of a PCB: the fields `r15` to `rax` and `rip`, `rsp`, `cr3` and
`kernel_stack_top`. -/
structure Saved where
  regs : Regs
  rsp : ℕ
  cr3 : ℕ
  kernelStackTop : ℕ

/-- How a process last left the processor, and the registers and the memory it had then. -/
inductive Stop where
  | never
  | tick (regs : Regs) (word : ℕ → ℕ)
  | block (regs : Regs) (word : ℕ → ℕ)

/-- The processor, the memory and the PCBs.  The last three fields are history variables:
how each process last stopped, whether a tick has given its processor to another process,
and which value it last gave to the parts of the processor that no frame holds. -/
structure Machine where
  kernel : Kernel
  regs : Regs
  cr3 : ℕ
  rsp0 : ℕ
  parts : Part → ℕ
  mem : Cell → ℕ
  pcb : Slot → Saved
  slotOwner : Slot → Option Slot
  stopped : Slot → Stop
  preempted : Slot → Bool
  given : Slot → Part → Option ℕ

/-- The word at an address, as the running process sees it. -/
def Machine.word (m : Machine) (a : ℕ) : ℕ := m.mem (cell m.cr3 a)

/-! The timer. -/

/-- The task `timer_preempt_handler` picks when the quantum has expired. -/
def pickNext (k : Kernel) (current : Slot) : Option Slot :=
  match (readyQueueNext k).1 with
  | some next => some next
  | none => if k.pid current = 1 then none else processFindByPid k 1

/-- `timer_preempt_handler`: the general registers and `rip` go from the frame at `sp` into
the PCB. -/
def saveFrame (m : Machine) (current : Slot) (sp : ℕ) : Machine :=
  let saved := { m.pcb current with regs := readFrame m.mem m.cr3 sp, rsp := sp }
  { m with pcb := Function.update m.pcb current saved }

/-- `timer_preempt_handler`, called with the address of the frame: the stack pointer to resume
from.  Scheduling is that of `Sched.timerPreemptHandler`. -/
def timerPreemptHandler (m : Machine) (userMode : Bool) (sp : ℕ) : Machine × ℕ :=
  match m.kernel.procCurrent with
  | none => (m,sp)
  | some current =>
    if m.kernel.state current = .terminated then (m,sp) else
    if userMode = false ∧ (m.kernel.queue.head.all fun peek => m.kernel.pid peek = 1) then (m,sp)
    else
      let m := saveFrame m current sp
      match pickNext m.kernel current with
      | none => (m,sp)
      | some next =>
        ({ m with
            kernel := Sched.timerPreemptHandler m.kernel userMode
            rsp0 := (m.pcb next).kernelStackTop
            cr3 := (m.pcb next).cr3
            preempted := Function.update m.preempted current true },(m.pcb next).rsp)

/-- Where the processor starts to push: in user mode on the stack of `TSS.RSP0`, in kernel mode
where it is, aligned to sixteen bytes. -/
def interruptTop (m : Machine) : ℕ :=
  (if m.regs .cs % 4 = 3 then m.rsp0 else m.regs .rsp)/16*16

/-- The processor has pushed five registers and `irq0_stub` the other fifteen; `scratch` is what
the handler puts on the stack below. -/
def interrupted (m : Machine) (scratch : List ℕ) : Machine :=
  { m with
    mem := pushAll (cell m.cr3) m.mem (interruptTop m) (frameWords m.regs++scratch)
    stopped := match m.kernel.procCurrent with
      | none => m.stopped
      | some current => Function.update m.stopped current (.tick m.regs m.word) }

/-- `irq0_stub` calls the handler with the address of the frame and pops the frame that the
returned stack pointer points to. -/
def irq0Stub (m : Machine) (scratch : List ℕ) : Machine :=
  let r := timerPreemptHandler (interrupted m scratch) (m.regs .cs % 4 = 3) (interruptTop m-160)
  { r.1 with regs := readFrame r.1.mem r.1.cr3 r.2 }

/-! Blocking. -/

def calleeSaved : List Reg := [.rbp,.rbx,.r12,.r13,.r14,.r15]

/-- The ring-0 frame of `context_switch`: the registers a C caller relies on, the way back to
it, and for the others what the PCB happens to hold. -/
def ring0Frame (regs : Regs) (s : Saved) : Regs := fun r => match r with
  | .ss => 0x20
  | .rflags => 0x202
  | .cs => 0x18
  | .rsp | .rip | .rbp | .rbx | .r12 | .r13 | .r14 | .r15 => regs r
  | _ => s.regs r

/-- The user frame of `context_switch`, all of it from the PCB. -/
def userFrame (s : Saved) (entryPoint : ℕ) : Regs := fun r => match r with
  | .ss => 0x2B
  | .rsp => s.rsp
  | .rflags => 0x202
  | .cs => 0x33
  | .rip => if s.regs .rip = 0 then entryPoint else s.regs .rip
  | _ => s.regs r

/-- `context_switch` pushes, after the return address and the registers of its caller, on the
ring-0 path two words to help it and the frame. -/
def switchWords (regs : Regs) (s : Saved) (c : Pcb) : List ℕ :=
  regs .rip::calleeSaved.map regs++
    if c.blockKind ≠ .none ∨ kernelBase ≤ s.regs .rip then
      [regs .rip,regs .rsp]++frameWords (ring0Frame regs s)
    else frameWords (userFrame s c.entryPoint)

/-- `context_switch` accepts a frame with kernel code and a kernel address or user code and a
user address. -/
def frameOk (regs : Regs) : Bool :=
  (regs .cs = 0x18 ∧ kernelBase ≤ regs .rip) ∨ (regs .cs = 0x33 ∧ regs .rip < kernelBase)

/-- `context_switch` has saved `prev`; `m.regs` are its registers at the call, with `rip` the address
to return to. -/
def saving (m : Machine) (prev : Slot) : Machine :=
  let s := m.pcb prev
  let c := m.kernel.pool prev
  let words := switchWords m.regs s c
  let saved : Saved :=
    { s with
      -- the user path leaves the registers in the PCB as they are
      regs := fun r => if (c.blockKind ≠ .none ∨ kernelBase ≤ s.regs .rip) ∧ r ∈ calleeSaved
        then m.regs r else s.regs r
      rsp := m.regs .rsp-8*words.length
      cr3 := m.cr3 }
  { m with
    mem := pushAll (cell m.cr3) m.mem (m.regs .rsp) words
    pcb := Function.update m.pcb prev saved
    stopped := Function.update m.stopped prev (.block m.regs m.word) }

/-- `context_switch(prev, next)`, after `scheduler_switch_to` has set `TSS.RSP0`. -/
def contextSwitch (m : Machine) (prev next : Slot) : Option Machine :=
  let m := saving m prev
  let regs := readFrame m.mem (m.pcb next).cr3 (m.pcb next).rsp
  if frameOk regs then
    some { m with regs := regs, cr3 := (m.pcb next).cr3, rsp0 := (m.pcb next).kernelStackTop }
  else none

/-- What `sys_waitpid` writes into the PCB of the process that is to wait. -/
def awaiting (k : Kernel) (self : Slot) (target : ℕ) : Kernel :=
  k.modify self fun c => { c with state := .blocked, blockKind := .waitpid, waitPid := target }

/-- The process blocks in `sys_waitpid`: it marks itself and calls `process_yield`, which
switches unless there is nothing to switch to. -/
def block (m : Machine) (self : Slot) (target : ℕ) : Option Machine :=
  let k := processYield (awaiting m.kernel self target)
  match k.current with
  | none => none
  | some next =>
    if next = self then some { m with kernel := k }
    else contextSwitch { m with kernel := k } self next

/-- What the exit of the awaited child does to a blocked process. -/
def wake (k : Kernel) (p : Slot) : Kernel :=
  readyQueueAdd (k.modify p fun c =>
    { c with state := .ready, blockKind := .none, waitPid := 0 }) p

/-! Creation. -/

/-- `kernel_stack_slot_alloc`. -/
def kernelStackSlotAlloc (m : Machine) : Option Slot :=
  (List.finRange 32).find? fun i => m.slotOwner i = none

/-- The frame that `process_create` builds; `sys_exec` then puts `argc` and `argv` into it. -/
def initialFrame (top userStackTop entry rdi rsi : ℕ) : Regs := fun r =>
  if entry < kernelBase then
    match r with
    | .ss => 0x2B
    | .rsp => userStackTop
    | .rflags => 0x202
    | .cs => 0x33
    | .rip => entry
    | .rdi => rdi
    | .rsi => rsi
    | _ => 0
  else
    match r with
    | .ss => 0x20
    | .rsp => top
    | .rflags => 0x202
    | .cs => 0x18
    | .rip => entry
    | .rdi => rdi
    | .rsi => rsi
    | _ => 0

/-- `0x8000100000 - 32`, which is aligned already. -/
def userStackTop : ℕ := 0x80000FFFE0

/-- `process_create` with an entry point and a cloned address space; it may find no PCB or no
kernel stack. -/
def create (L : Layout) (m : Machine) (entry rdi rsi cr3 : ℕ) : Machine :=
  match kernelStackSlotAlloc m with
  | none => { m with kernel := (processCreate m.kernel entry .noKernelStack).2 }
  | some slot =>
    match processCreate m.kernel entry .ok with
    | (none,_) => m
    | (some p,k) =>
      let top := L.stackTop slot
      let regs := initialFrame top userStackTop entry rdi rsi
      { m with
        kernel := k
        mem := pushAll (cell m.cr3) m.mem top (frameWords regs)
        pcb := Function.update m.pcb p ⟨fun r => if r = .rip then entry else 0,top-160,cr3,top⟩
        slotOwner := Function.update m.slotOwner slot (some p)
        stopped := Function.update m.stopped p .never
        preempted := Function.update m.preempted p false
        given := Function.update m.given p fun _ => none }

/-! Runs. -/

inductive Event where
  /-- The running process executes code of its own: new registers, stores, and parts set. -/
  | run (regs : Regs) (stores : List (ℕ × ℕ)) (parts : List (Part × ℕ))
  | tick (scratch : List ℕ)
  | block (target : ℕ)
  | wake (p : Slot)
  | create (entry rdi rsi cr3 : ℕ)

def storeAll (cr3 : ℕ) : List (ℕ × ℕ) → (Cell → ℕ) → Cell → ℕ
  | [], mem => mem
  | (a,w)::stores, mem => storeAll cr3 stores (Function.update mem (cell cr3 a) w)

def setAll {β : Type} (f : ℕ → β) : List (Part × ℕ) → (Part → β) → Part → β
  | [], parts => parts
  | (x,v)::sets, parts => setAll f sets (Function.update parts x (f v))

def Machine.step (L : Layout) (m : Machine) (e : Event) : Option Machine :=
  m.kernel.procCurrent.bind fun self =>
    let top := (m.pcb self).kernelStackTop
    match e with
    | .run regs stores parts =>
      if Fits top self regs ∧ ∀ s ∈ stores, Owns top self s.1 then
        some { m with
          regs := regs
          mem := storeAll m.cr3 stores m.mem
          parts := setAll id parts m.parts
          given := Function.update m.given self (setAll some parts (m.given self)) }
      else none
    | .tick scratch => if scratch.length ≤ 32 then some (irq0Stub m scratch) else none
    | .block target =>
      -- only kernel code of a process other than idle gets here
      if m.kernel.pid self ≠ 1 ∧ m.regs .cs = 0x18 then block m self target else none
    | .wake p =>
      if m.kernel.state p = .blocked then some { m with kernel := wake m.kernel p } else none
    | .create entry rdi rsi cr3 =>
      -- the root is a frame that no live process has
      if entry ≠ 0 ∧ ∀ p, m.kernel.state p ≠ .unused → (m.pcb p).cr3 ≠ cr3 then
        some (create L m entry rdi rsi cr3)
      else none

/-- The state that `process_init` leaves: idle is current and still runs `kmain`, in the address
space of the boot code. -/
def boot (L : Layout) (mem : Cell → ℕ) (parts : Part → ℕ) (cr3 idleCr3 : ℕ) : Machine where
  kernel := Sched.boot none
  regs r := match r with
    | .ss => 0x20
    | .rsp => bootStackTop-1024
    | .rflags => 0x202
    | .cs => 0x18
    | .rip => kernelBase
    | _ => 0
  cr3 := cr3
  rsp0 := L.stackTop 0
  parts := parts
  mem := pushAll (cell cr3) mem (L.stackTop 0)
    (frameWords (initialFrame (L.stackTop 0) userStackTop kernelBase 0 0))
  pcb _ := ⟨fun r => if r = .rip then kernelBase else 0,L.stackTop 0-160,idleCr3,L.stackTop 0⟩
  slotOwner i := if i = 0 then some 0 else none
  stopped _ := .never
  preempted _ := false
  given _ _ := none

end Cpu
end DonsOs
