import DonsOs.Sched.Preempt

/-! The file system calls and the disk.
`user_syscall.c` calls FatFs, FatFs calls the ATA driver, and nothing on the way takes a
lock or turns interrupts off; `FF_FS_REENTRANT` is 0.  A system call is a tree of the
calls it makes to FatFs and of how it goes on after each; what FatFs does inside a call is
left open but for the command sequences it puts on the ATA ports. -/
namespace DonsOs
namespace Files

open Interleave Run Sched

inductive FatCall where
  | fOpen | fRead | fWrite | fLseek | fClose | fUnlink | fOpendir | fReaddir | fClosedir
deriving DecidableEq

/-- What comes back from a call: whether it returned `FR_OK`, how many bytes it moved, and
whether the copy between the kernel's buffer and the user's that follows it succeeds. -/
structure Outcome where
  ok : Bool
  bytes : ℕ
  copied : Bool

/-- A system call from here on. -/
inductive Plan where
  | done
  | call (f : FatCall) (next : Outcome → Plan)

def sysOpen : Plan := .call .fOpen fun _ => .done
def sysUnlink : Plan := .call .fUnlink fun _ => .done
def sysOpendir : Plan := .call .fOpendir fun _ => .done
def sysReaddir : Plan := .call .fReaddir fun _ => .done
def sysClosedir : Plan := .call .fClosedir fun _ => .done
def sysClose (isDir : Bool) : Plan := .call (if isDir then .fClosedir else .fClose) fun _ => .done

/-- `close_all_files`, over the kinds of the open slots. -/
def closeAllFiles : List Bool → Plan
  | [] => .done
  | isDir::slots => .call (if isDir then .fClosedir else .fClose) fun _ => closeAllFiles slots

/-- The loops of `sys_read` and `sys_write`, in pieces of 512 bytes.  A pass that does not end
the loop moves at least one byte, so `count` passes are enough. -/
def transfer (f : FatCall) : ℕ → ℕ → Plan
  | 0, _ => .done
  | fuel+1, remaining =>
    if remaining = 0 then .done else
    .call f fun o =>
      if o.ok = false ∨ o.bytes < min 512 remaining ∨ o.copied = false then .done
      else transfer f fuel (remaining-o.bytes)

def sysRead (count : ℕ) : Plan := transfer .fRead count count
def sysWrite (count : ℕ) : Plan := transfer .fWrite count count

/-- What `sys_exec` finds in the file: whether header and `e_phoff` pass, how long the program
headers and the file are, and whether there is memory for it. -/
structure ExecFile where
  headerOk : Bool
  phoffOk : Bool
  phbytes : ℕ
  size : ℕ
  memory : Bool

def closeFile : Plan := .call .fClose fun _ => .done

/-- The body of the file, in pieces of 4096 bytes. -/
def readBody : ℕ → ℕ → Plan
  | 0, _ => closeFile
  | fuel+1, remaining =>
    if remaining = 0 then closeFile else
    .call .fRead fun o =>
      if o.ok = false ∨ o.bytes = 0 then closeFile else readBody fuel (remaining-o.bytes)

/-- `sys_exec` up to its last `f_close`; after that it touches no file. -/
def sysExec (file : ExecFile) : Plan :=
  .call .fOpen fun o => if o.ok = false then .done else
  .call .fRead fun o =>
    if o.ok = false ∨ o.bytes ≠ 64 ∨ file.headerOk = false ∨ file.phoffOk = false then closeFile else
  .call .fLseek fun o => if o.ok = false then closeFile else
  .call .fRead fun o =>
    if o.ok = false ∨ o.bytes ≠ file.phbytes ∨ file.size = 0 ∨ 4194304 < file.size ∨
        file.memory = false then closeFile else
  .call .fLseek fun o => if o.ok = false then closeFile else readBody file.size file.size

/-! The ports of the primary ATA channel. -/

inductive Port where
  | seccount | lbaLo | lbaMid | lbaHi | driveHead | command
deriving DecidableEq

inductive PortOp where
  | pollBsyClear
  | outb (port : Port) (value : ℕ)
  | pollDrq
  /-- The 256 words of one sector. -/
  | sector
deriving DecidableEq

/-- The command sequence of `ata_read_chunk` and `ata_write_chunk`. -/
def ataChunk (write : Bool) (slave : Bool) (lba count : ℕ) : List PortOp :=
  [.pollBsyClear,
    .outb .driveHead ((if slave then 0xF0 else 0xE0)+lba/2^24%16),
    .outb .seccount count,.outb .lbaLo (lba%256),.outb .lbaMid (lba/2^8%256),
    .outb .lbaHi (lba/2^16%256),.outb .command (if write then 0x30 else 0x20)]++
  (List.replicate (if count = 0 then 256 else count) [PortOp.pollDrq,.sector]).flatten

/-- The system calls that use files. -/
inductive FileSyscall where
  | sysOpen | sysUnlink | sysOpendir | sysReaddir | sysClosedir
  | sysClose (isDir : Bool)
  | sysRead (count : ℕ)
  | sysWrite (count : ℕ)
  | sysExec (file : ExecFile)
  | sysExit (slots : List Bool)

def FileSyscall.plan : FileSyscall → Plan
  | .sysOpen => Files.sysOpen
  | .sysUnlink => Files.sysUnlink
  | .sysOpendir => Files.sysOpendir
  | .sysReaddir => Files.sysReaddir
  | .sysClosedir => Files.sysClosedir
  | .sysClose isDir => Files.sysClose isDir
  | .sysRead count => Files.sysRead count
  | .sysWrite count => Files.sysWrite count
  | .sysExec file => Files.sysExec file
  | .sysExit slots => closeAllFiles slots

/-- Where a process stands: in user mode, in a system call outside FatFs, or inside an `f_*`
call, there with the rest of the command sequence it has begun, if any. -/
inductive Stage where
  | user
  | kernel (plan : Plan)
  | fat (f : FatCall) (next : Outcome → Plan) (ports : List PortOp)

def Stage.inFat : Stage → Bool
  | .fat _ _ _ => true
  | _ => false

def Stage.inAta : Stage → Bool
  | .fat _ _ ports => !ports.isEmpty
  | _ => false

def Stage.inKernel : Stage → Bool
  | .user => false
  | _ => true

inductive Op where
  | syscall (s : FileSyscall)
  | sysret
  | enter
  | leave (o : Outcome)
  | chunk (write slave : Bool) (lba count : ℕ)
  | port (ready : Bool)

/-- One step of a process.  The registers of the drive are shared; a poll that does not
succeed ends the command sequence. -/
def exec (_ : Slot) (s : Stage) (regs : Port → ℕ) : Op → Option (Stage × (Port → ℕ))
  | .syscall c => match s with
    | .user => some (.kernel c.plan,regs)
    | _ => none
  | .sysret => match s with
    | .kernel .done => some (.user,regs)
    | _ => none
  | .enter => match s with
    | .kernel (.call f next) => some (.fat f next [],regs)
    | _ => none
  | .leave o => match s with
    | .fat _ next [] => some (.kernel (next o),regs)
    | _ => none
  | .chunk write slave lba count => match s with
    | .fat f next [] => some (.fat f next (ataChunk write slave lba count),regs)
    | _ => none
  | .port ready => match s with
    | .fat f next (.outb port value::ports) =>
      some (.fat f next ports,Function.update regs port value)
    | .fat f next (.sector::ports) => some (.fat f next ports,regs)
    | .fat f next (_::ports) => some (.fat f next (if ready then ports else []),regs)
    | _ => none

/-- Interrupts are on in all of this. -/
def files : Program Kernel Slot Stage (Port → ℕ) Bool Op :=
  preemptive (fun _ => false) Stage.inKernel exec

def start (k : Kernel) (regs : Port → ℕ) : Machine Kernel Slot Stage (Port → ℕ) :=
  ⟨k,fun _ => .user,regs⟩

/-- A tick that finds the running process inside FatFs finds nothing at the head of the ready
queue, or only idle. -/
def Alone (m : Machine Kernel Slot Stage (Port → ℕ)) : Event Bool Op → Prop
  | .tick _ => ∀ p ∈ m.sched.procCurrent, (m.thread p).inFat = true →
      (m.sched.queue.head.all fun peek => m.sched.pid peek = 1) = true
  | .exec _ => True

instance (m : Machine Kernel Slot Stage (Port → ℕ)) : (e : Event Bool Op) → Decidable (Alone m e)
  | .tick _ => inferInstanceAs (Decidable (∀ p ∈ m.sched.procCurrent, (m.thread p).inFat = true →
      (m.sched.queue.head.all fun peek => m.sched.pid peek = 1) = true))
  | .exec _ => isTrue trivial

/-- Such a tick, which comes in kernel mode, does not switch. -/
theorem tick_alone {k : Kernel}
    (h : (k.queue.head.all fun peek => k.pid peek = 1) = true) :
    timerPreemptHandler k false = k := by
  unfold timerPreemptHandler
  split
  · rfl
  · split
    · rfl
    · rw [if_pos ⟨rfl,h⟩]

theorem inAta_inFat {s : Stage} (h : s.inAta = true) : s.inFat = true := by
  cases s with
  | fat f next ports => rfl
  | _ => cases h

/-- Process 1 is interrupted in the middle of a command sequence of `f_unlink`, and process 2
begins one of its own. -/
def crossedUnlinks : List (Event Bool Op) :=
  [.exec (.syscall .sysUnlink),.exec .enter,.exec (.chunk false false 7 1),.exec (.port true),
    .exec (.port true),.exec (.port true),.exec (.port true),.tick false,
    .exec (.syscall .sysUnlink),.exec .enter,.exec (.chunk false false 9 1),.exec (.port true),
    .exec (.port true),.exec (.port true),.exec (.port true),.exec (.port true)]

/-- Both are inside FatFs and on the ports, and the drive no longer has the sector number that
process 1 wrote. -/
theorem crossed_unlinks_overlap :
    (run files.step (start twoProcesses fun _ => 0) crossedUnlinks).map (fun m =>
        ((m.thread 1).inAta,(m.thread 2).inAta,m.shared .lbaLo)) = some (true,true,9) := by
  decide +kernel

/-- If every tick that interrupts FatFs finds no other process ready, at most one process at a
time is inside an `f_*` call or an ATA command sequence. -/
theorem file_calls_exclusive (k : Kernel) (regs : Port → ℕ) {es : List (Event Bool Op)}
    {m : Machine Kernel Slot Stage (Port → ℕ)} (ha : Admits files.step Alone (start k regs) es)
    (hr : run files.step (start k regs) es = some m) (p q : Slot)
    (hp : ((m.thread p).inFat || (m.thread p).inAta) = true)
    (hq : ((m.thread q).inFat || (m.thread q).inAta) = true) : p = q := by
  have hcur : ∀ i, (m.thread i).inFat = true → m.sched.procCurrent = some i := by
    refine run_holder (fun s => s.inFat = true) ?_ (fun i hi => by cases hi) ha hr
    intro m u i hok hc hi hint
    have hmode : u = false := by
      cases hs : m.thread i with
      | fat f next ports => simpa [files,preemptive,hs,Stage.inKernel] using hint
      | _ => simp [hs,Stage.inFat] at hi
    subst hmode
    show (timerPreemptHandler m.sched false).procCurrent = some i
    rw [tick_alone (hok i hc hi)]
    exact hc
  have hin : ∀ i, ((m.thread i).inFat || (m.thread i).inAta) = true → (m.thread i).inFat = true := by
    intro i hi
    rcases Bool.or_eq_true_iff.mp hi with hi | hi
    · exact hi
    · exact inAta_inFat hi
  exact Option.some.inj ((hcur p (hin p hp)).symm.trans (hcur q (hin q hq)))

/-- The second process makes its call when the first has made its own. -/
def orderedUnlinks : List (Event Bool Op) :=
  [.exec (.syscall .sysUnlink),.exec .enter,.exec (.leave ⟨true,0,true⟩),.exec .sysret,.tick true,
    .exec (.syscall .sysUnlink),.exec .enter]

theorem file_calls_exclusive_ordered :
    ∃ m, run files.step (start twoProcesses fun _ => 0) orderedUnlinks = some m ∧
      (m.thread 2).inFat = true ∧
      ∀ p, ((m.thread p).inFat || (m.thread p).inAta) = true → p = 2 := by
  have ha : Admits files.step Alone (start twoProcesses fun _ => 0) orderedUnlinks := by
    decide +kernel
  have hm : (run files.step (start twoProcesses fun _ => 0) orderedUnlinks).map
      (fun m => (m.thread 2).inFat) = some true := by decide +kernel
  obtain ⟨m,hr,he⟩ := Option.map_eq_some_iff.mp hm
  exact ⟨m,hr,he,fun p hp => file_calls_exclusive _ _ ha hr p 2 hp (by simp [he])⟩

end Files
end DonsOs
