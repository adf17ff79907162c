import DonsOs.Sched.Intact

/-! Spawning, exiting and waiting under the timer.
`process_create`, its callers and `sys_waitpid` run with interrupts enabled, so a tick may take the
CPU away between any two of their steps.  A step here is one access to the process table: a store
to a PCB, a queue operation or one look at a process.  The lists of the state are histories:
they record what the calls returned and are never read. -/
namespace DonsOs
namespace Sched

open LinkedQueue Run Table

/-- Who calls `process_create`: `sys_exec`, a command of the kernel shell that starts a program
(`elfload`, `usershell`), or `kmain` for the user shell and for the kernel shell. -/
inductive Caller where
  | exec | command | userShell | kernelShell
deriving DecidableEq

def Caller.entry : Caller → ℕ
  | .exec | .command | .userShell => userCodeBase
  | .kernelShell => kernelBase

/-- Who may be the running process `self`. -/
def Caller.Allowed (caller : Caller) (k : Kernel) (self : Slot) : Prop :=
  match caller with
  | .exec => k.pid self ≠ 1 ∧ k.kernelShell ≠ some self
  | .command => k.kernelShell = some self
  | .userShell | .kernelShell => k.pid self = 1

instance : (caller : Caller) → (k : Kernel) → (self : Slot) → Decidable (caller.Allowed k self)
  | .exec, k, self => inferInstanceAs (Decidable (k.pid self ≠ 1 ∧ k.kernelShell ≠ some self))
  | .command, k, self => inferInstanceAs (Decidable (k.kernelShell = some self))
  | .userShell, k, self | .kernelShell, k, self => inferInstanceAs (Decidable (k.pid self = 1))

/-- How far a PCB with a program has come: whether `elf_load_into_process` has returned success,
and which words of the resume frame hold what the program is to start with. -/
structure ChildImage where
  loaded : Bool
  rip : Bool
  rdi : Bool
  rsi : Bool
deriving DecidableEq

def ChildImage.complete : ChildImage := ⟨true,true,true,true⟩

/-- The kernel shell has no image to load. -/
def Caller.image (caller : Caller) (i : ChildImage) : Option ChildImage :=
  if caller = .kernelShell then none else some i

/-- Where a process stands between `get_free_pcb` and the end of the call that wants a new
process. -/
inductive SpawnPc where
  | picked
  | wiped
  | numbered (n : ℕ)
  | initialized
  | prepared
  | dropping
  | queued
  | removed
  | destroying
  | loaded (entry : ℕ)
  | framed (entry : ℕ)
  | entered
  | adopted
  | launched
  | switching
deriving DecidableEq

/-- The arguments of `sys_waitpid`; `wantsStatus` says that `user_status` is not `NULL`. -/
structure Wait where
  target : ℕ
  nohang : Bool
  wantsStatus : Bool
deriving DecidableEq

/-- Where a process stands in `sys_waitpid`. -/
inductive ReapPc where
  | scan (pid : ℕ) (live : Bool)
  | look (pid : ℕ) (live : Bool) (c : Slot)
  | setBlocked
  | setKind
  | setTarget
  | yield
  | found (z : Slot)
  | noted (z : Slot) (pid : ℕ) (status : ℤ)
  | released (z : Slot) (pid : ℕ) (status : ℤ)
  | reaped (pid : ℕ) (status : ℤ)
deriving DecidableEq

inductive TaskPc where
  | out
  | exiting
  | spawning (caller : Caller) (child : Slot) (pc : SpawnPc)
  | waiting (wait : Wait) (pc : ReapPc)
deriving DecidableEq

/-- A call of `sys_waitpid` that has returned a pid, with the status that it copied out. -/
structure Delivery where
  parent : ℕ
  child : ℕ
  status : Option ℤ
deriving DecidableEq

structure Tasks where
  kernel : Kernel
  pc : Slot → TaskPc
  exitStatus : Slot → ℤ
  image : Slot → Option ChildImage
  spawned : List (ℕ × ℕ)
  exited : List (ℕ × ℤ)
  returned : List Delivery

/-- What a step learns from outside: how the allocations of `process_create` went, the entry point
that `elf_load_into_process` returned, whether the arguments could be copied in and the status
out. -/
structure Answer where
  alloc : Alloc
  entry : Option ℕ
  argv : Bool
  copied : Bool

/-- `process_create` and `exec` are entered by `spawn`; `waitpid` and `exit` are the system
calls. -/
inductive TaskEvent where
  | tick (userMode : Bool)
  | spawn (caller : Caller)
  | waitpid (pid : ℤ) (nohang wantsStatus : Bool)
  | exit (status : ℤ)
  | advance (a : Answer)

def Tasks.goto (w : Tasks) (self : Slot) (pc : TaskPc) : Tasks :=
  { w with pc := Function.update w.pc self pc }

def Tasks.setImage (w : Tasks) (child : Slot) (f : ChildImage → ChildImage) : Tasks :=
  { w with image := Function.update w.image child ((w.image child).map f) }

def Tasks.setKernel (w : Tasks) (k : Kernel) : Tasks := { w with kernel := k }

/-- The `memset` of `process_initialize_pcb`. -/
def wipePcb (k : Kernel) (p : Slot) : Kernel :=
  { k.modify p (fun _ => ⟨0,.unused,.none,0,0,0⟩) with queue := k.queue.wipe p }

/-- `pcb->pid = next_pid++` for the value `n` that has been read from `next_pid`. -/
def numberPcb (k : Kernel) (p : Slot) (n : ℕ) : Kernel :=
  { k.modify p (fun c => { c with pid := n }) with nextPid := n+1 }

/-- `process_destroy` from `pcb->pid = 0` on. -/
def unlinkPcb (k : Kernel) (p : Slot) : Kernel :=
  let k := readyQueueRemove (k.modify p fun c => { c with pid := 0 }) p
  if k.procCurrent = some p then { k with procCurrent := none } else k

/-- The next step of `self` on the way to a new process in the slot `child`. -/
def Tasks.spawnStep (w : Tasks) (self : Slot) (caller : Caller) (child : Slot) (a : Answer)
    (pc : SpawnPc) : Tasks :=
  let next (w : Tasks) (pc : SpawnPc) : Tasks := w.goto self (.spawning caller child pc)
  let destroy : Tasks :=
    if w.kernel.state child = .unused then w.goto self .out
    else next (w.setKernel (w.kernel.setState child .unused)) .destroying
  match pc with
  | .picked =>
    next { w with
      kernel := wipePcb w.kernel child
      exitStatus := Function.update w.exitStatus child 0
      image := Function.update w.image child (caller.image ⟨false,false,false,false⟩) } .wiped
  | .wiped => next w (.numbered w.kernel.nextPid)
  | .numbered n => next (w.setKernel (numberPcb w.kernel child n)) .initialized
  | .initialized =>
    next (w.setKernel (w.kernel.modify child fun c =>
      { c with entryPoint := caller.entry, state := .ready })) .prepared
  | .prepared =>
    if caller.entry < kernelBase ∧ a.alloc = .noUserStack then w.goto self .out
    else if a.alloc = .noKernelStack then
      next (w.setKernel (w.kernel.setState child .unused)) .dropping
    else
      -- only `sys_exec` replaces the frame that is built here
      next ((w.setKernel (readyQueueAdd
        { w.kernel with queue := w.kernel.queue.wipe child } child)).setImage child fun i =>
          if caller = .exec then i else { i with rip := true, rdi := true, rsi := true }) .queued
  | .dropping => (w.setKernel (w.kernel.modify child fun c => { c with pid := 0 })).goto self .out
  | .queued => next (w.setKernel (readyQueueRemove w.kernel child)) .removed
  | .removed =>
    if caller = .kernelShell then
      next (w.setKernel { w.kernel with kernelShell := some child }) .switching
    else
      match a.entry with
      | some entry => next (w.setImage child fun i => { i with loaded := true }) (.loaded entry)
      | none => if caller = .userShell then w.goto self .out else destroy
  | .destroying => (w.setKernel (unlinkPcb w.kernel child)).goto self .out
  | .loaded entry =>
    if caller = .exec then
      if a.argv then next (w.setImage child fun i => { i with rdi := true, rsi := true }) (.framed entry)
      else destroy
    else next w (.framed entry)
  | .framed entry =>
    next ((w.setKernel (w.kernel.modify child fun c => { c with entryPoint := entry })).setImage
      child fun i => if caller = .exec then { i with rip := true } else i) .entered
  | .entered =>
    if caller = .exec then
      next (w.setKernel (w.kernel.modify child fun c =>
        { c with parentPid := w.kernel.pid self })) .adopted
    else if caller = .userShell then (w.setKernel (readyQueueAdd w.kernel child)).goto self .out
    else next (w.setKernel (readyQueueAdd { w.kernel with kbd := 0 } child)) .launched
  | .adopted => next (w.setKernel (readyQueueAdd { w.kernel with kbd := 0 } child)) .launched
  | .launched =>
    if caller = .exec then
      { w with spawned := (w.kernel.pid self,w.kernel.pid child)::w.spawned }.goto self .out
    else next (w.setKernel (w.kernel.setState self .blocked)) .switching
  | .switching => (w.setKernel (schedulerSwitchTo w.kernel child)).goto self .out

/-- The next step of `self` in `sys_waitpid`. -/
def Tasks.reapStep (w : Tasks) (self : Slot) (wait : Wait) (a : Answer) (pc : ReapPc) : Tasks :=
  let next (w : Tasks) (pc : ReapPc) : Tasks := w.goto self (.waiting wait pc)
  match pc with
  | .scan pid live =>
    if pid < 1000 then
      match processFindByPid w.kernel pid with
      | none => next w (.scan (pid+1) live)
      | some c => next w (.look pid live c)
    else if live = false ∨ wait.nohang then w.goto self .out
    else next w .setBlocked
  | .look pid live c =>
    if (w.kernel.pool c).parentPid ≠ w.kernel.pid self then next w (.scan (pid+1) live)
    else if wait.target ≠ anyChild ∧ w.kernel.pid c ≠ wait.target then next w (.scan (pid+1) live)
    else if w.kernel.state c = .zombie then next w (.found c)
    else next w (.scan (pid+1) (live || w.kernel.state c ≠ .unused))
  | .setBlocked => next (w.setKernel (w.kernel.setState self .blocked)) .setKind
  | .setKind =>
    next (w.setKernel (w.kernel.modify self fun c => { c with blockKind := .waitpid })) .setTarget
  | .setTarget =>
    next (w.setKernel (w.kernel.modify self fun c => { c with waitPid := wait.target })) .yield
  | .yield => next (w.setKernel (processYield w.kernel)) (.scan 1 false)
  | .found z => next w (.noted z (w.kernel.pid z) (w.exitStatus z))
  | .noted z pid status =>
    if w.kernel.state z = .unused then next w (.reaped pid status)
    else next (w.setKernel (w.kernel.setState z .unused)) (.released z pid status)
  | .released z pid status =>
    next (w.setKernel (w.kernel.modify z fun c => { c with pid := 0 })) (.reaped pid status)
  | .reaped pid status =>
    if wait.wantsStatus ∧ a.copied = false then w.goto self .out
    else { w with
      returned := ⟨w.kernel.pid self,pid,if wait.wantsStatus then some status else none⟩::w.returned
      }.goto self .out

/-- The next step of the current process inside a call. -/
def Tasks.advance (w : Tasks) (self : Slot) (a : Answer) : Option Tasks :=
  match w.pc self with
  | .out => none
  | .exiting => some ((w.setKernel (processExit w.kernel)).goto self .out)
  | .spawning caller child pc => some (w.spawnStep self caller child a pc)
  | .waiting wait pc => some (w.reapStep self wait a pc)

/-- The current process is in none of the calls. -/
def Tasks.free (w : Tasks) : Bool := w.kernel.procCurrent.all fun c => w.pc c = .out

/-- A call that the current process may make. -/
def Tasks.call (w : Tasks) (caller : Caller) (f : Slot → Tasks) : Option Tasks :=
  w.kernel.procCurrent.bind fun self =>
    if w.pc self = .out ∧ caller.Allowed w.kernel self then some (f self) else none

/-- One step.  The calls are kernel code, so a tick inside one comes from kernel mode. -/
def Tasks.step (w : Tasks) (e : TaskEvent) : Option Tasks :=
  if w.kernel.halted then none else
  match e with
  | .tick userMode =>
    if userMode ∧ w.free = false then none
    else some (w.setKernel (timerPreemptHandler w.kernel userMode))
  | .spawn caller => w.call caller fun self =>
      match getFreePcb w.kernel with
      | none => w
      | some child => w.goto self (.spawning caller child .picked)
  | .waitpid pid nohang wantsStatus => w.call .exec fun self =>
      w.goto self (.waiting ⟨waitTarget pid,nohang,wantsStatus⟩ (.scan 1 false))
  | .exit status => w.call .exec fun self =>
      { w with
        exitStatus := Function.update w.exitStatus self status
        exited := (w.kernel.pid self,status)::w.exited }.goto self .exiting
  | .advance a => w.kernel.procCurrent.bind fun self => w.advance self a

/-- `process_init` has run; no process has called anything yet. -/
def Tasks.boot : Tasks where
  kernel := Sched.boot none
  pc _ := .out
  exitStatus _ := 0
  image _ := none
  spawned := []
  exited := []
  returned := []

/-- The PCB in hand is, or may become, another's: it is still free, already on the queue, or
about to be given up.  A child that is on the queue may be gone by the time it is switched to. -/
def TaskPc.critical : TaskPc → Bool
  | .spawning caller _ pc =>
    match pc with
    | .picked | .wiped | .numbered _ | .initialized | .dropping | .queued | .destroying | .switching =>
      true
    | .launched => caller ≠ .exec
    | .prepared | .removed | .loaded _ | .framed _ | .entered | .adopted => false
  | .waiting _ (.released _ _ _) => true
  | .waiting _ _ | .out | .exiting => false

def Tasks.critical (w : Tasks) : Bool := w.kernel.procCurrent.any fun c => (w.pc c).critical

/-- No tick switches away from a process at a critical point. -/
def Unbroken (w : Tasks) : TaskEvent → Prop
  | .tick _ => w.critical = true →
      w.kernel.queue.head.all (fun peek => w.kernel.pid peek = 1) = true
  | .spawn _ | .waitpid _ _ _ | .exit _ | .advance _ => True

instance (w : Tasks) : (e : TaskEvent) → Decidable (Unbroken w e)
  | .tick _ => inferInstanceAs (Decidable (w.critical = true →
      w.kernel.queue.head.all (fun peek => w.kernel.pid peek = 1) = true))
  | .spawn _ | .waitpid _ _ _ | .exit _ | .advance _ => isTrue trivial

@[simp] theorem goto_rest (w : Tasks) (self : Slot) (pc : TaskPc) :
    (w.goto self pc).kernel = w.kernel ∧ (w.goto self pc).pc = Function.update w.pc self pc ∧
      (w.goto self pc).image = w.image := ⟨rfl,rfl,rfl⟩
@[simp] theorem setKernel_rest (w : Tasks) (k : Kernel) : (w.setKernel k).kernel = k ∧
    (w.setKernel k).pc = w.pc ∧ (w.setKernel k).image = w.image := ⟨rfl,rfl,rfl⟩
@[simp] theorem setImage_rest (w : Tasks) (child : Slot) (f : ChildImage → ChildImage) :
    (w.setImage child f).kernel = w.kernel ∧ (w.setImage child f).pc = w.pc := ⟨rfl,rfl⟩

/-! What is known at each point. -/

variable {k k' : Kernel} {pc : Slot → TaskPc} {c child p q : Slot} {caller : Caller} {sp : SpawnPc}
  {w w' : Tasks}

/-- The PCB that a process has in hand. -/
def TaskPc.object : TaskPc → Option Slot
  | .spawning _ child _ => some child
  | .waiting _ (.found z) | .waiting _ (.noted z _ _) | .waiting _ (.released z _ _) => some z
  | .waiting _ _ | .out | .exiting => none

/-- The PCB in slot `c` while `p` makes a process of it. -/
def ChildStage (k : Kernel) (p : Slot) (caller : Caller) (c : Slot) : SpawnPc → Prop
  | .picked | .dropping | .destroying => k.state c = .unused
  | .wiped => k.state c = .unused ∧ (k.pool c).parentPid = 0
  | .numbered n => k.state c = .unused ∧ (k.pool c).parentPid = 0 ∧ n = k.nextPid
  | .initialized => k.state c = .unused ∧ (k.pool c).parentPid = 0 ∧ 1 < k.pid c ∧
      k.nextPid = k.pid c+1 ∧ ∀ q, k.state q ≠ .unused → k.pid q < k.pid c
  | .prepared | .removed | .loaded _ | .framed _ | .entered =>
    Still k c ∧ k.state c = .ready ∧ (k.pool c).parentPid = 0
  | .queued => k.state c = .ready ∧ k.pid c ≠ 1 ∧ (k.pool c).parentPid = 0
  | .adopted => Still k c ∧ k.state c = .ready ∧ (k.pool c).parentPid = k.pid p
  | .launched =>
    if caller = .exec then k.state c ≠ .unused ∧ (k.pool c).parentPid = k.pid p
    else k.state c = .ready ∧ k.pid c ≠ 1
  | .switching => k.state c = .ready ∧ k.pid c ≠ 1

/-- A process `p` in `sys_waitpid`.  It is never current and `READY` on its way to sleep: who
wakes it also queues it, and it is running once it has the CPU back. -/
def ReapStage (k : Kernel) (p : Slot) : ReapPc → Prop
  | .scan _ _ | .look _ _ _ | .setBlocked | .reaped _ _ => True
  | .setKind | .setTarget | .yield => k.current = some p → k.state p ≠ .ready
  | .found z => k.state z = .zombie ∧ (k.pool z).parentPid = k.pid p
  | .noted z pid _ => k.state z = .zombie ∧ (k.pool z).parentPid = k.pid p ∧ k.pid z = pid
  | .released z _ _ => k.state z = .unused

def TaskStage (k : Kernel) (p : Slot) : TaskPc → Prop
  | .out | .exiting => True
  | .spawning caller child sp => ChildStage k p caller child sp
  | .waiting _ rp => ReapStage k p rp

/-- A call that has returned the child to the scheduler. -/
def Born (caller : Caller) (sp : SpawnPc) : Prop := caller = .exec ∧ sp = .launched

/-- The invariant of the machine. -/
structure Sound (k : Kernel) (pc : Slot → TaskPc) : Prop where
  intact : ∃ xs, Intact k xs
  critical : ∀ p, (pc p).critical = true → k.current = some p
  busy : ∀ p, pc p ≠ .out → Live (k.state p)
  apart : ∀ p q o, (pc p).object = some o → (pc q).object = some o → p = q
  unborn : ∀ p caller c sp, pc p = .spawning caller c sp → ¬Born caller sp → pc c = .out
  stage : ∀ p, TaskStage k p (pc p)

/-- Off the critical points a child not yet handed over is out of reach. -/
theorem ChildStage.still (h : ChildStage k p caller c sp) (hb : ¬Born caller sp)
    (hcrit : (TaskPc.spawning caller c sp).critical = false) : Still k c := by
  cases sp with
  | prepared | removed | loaded _ | framed _ | entered | adopted => exact h.1
  | launched =>
    have he : caller ≠ .exec := fun e => hb ⟨e,rfl⟩
    simp [TaskPc.critical,he] at hcrit
  | picked | wiped | numbered _ | initialized | dropping | queued | destroying | switching =>
    simp [TaskPc.critical] at hcrit

/-- A process that is not at a critical point stays where it is, whatever the others do. -/
theorem TaskStage.kept {pc : TaskPc} (h : TaskStage k p pc) (hcrit : pc.critical = false)
    (hpos : pc ≠ .out → 0 < k.pid p ∧ k'.pid p = k.pid p)
    (hobj : ∀ o, pc.object = some o → Survives k k' o)
    (harr : k'.current = some p → k.current = some p ∧ k'.state p = k.state p ∨
      k'.state p = .running) : TaskStage k' p pc := by
  cases pc with
  | out | exiting => trivial
  | spawning caller c sp =>
    obtain ⟨hpos,hpid⟩ := hpos (by simp)
    have hs := hobj c rfl
    have hready (hst : Still k c) (hr : k.state c = .ready) {n : ℕ}
        (hn : (k.pool c).parentPid = n) :
        Still k' c ∧ k'.state c = .ready ∧ (k'.pool c).parentPid = n := by
      obtain ⟨hp,hst'⟩ := hs.still hst
      exact ⟨hst',by simpa only [Kernel.state,hp] using hr,by rw [hp]; exact hn⟩
    cases sp with
    | prepared | removed | loaded _ | framed _ | entered => exact hready h.1 h.2.1 h.2.2
    | adopted =>
      have := hready h.1 h.2.1 h.2.2
      rwa [← hpid] at this
    | launched =>
      have he : caller = .exec := by simpa [TaskPc.critical] using hcrit
      simp only [TaskStage,ChildStage,if_pos he] at h ⊢
      have hc := hs.child h.1 (by rw [h.2]; omega)
      exact ⟨hc.1,by rw [hc.2,h.2,hpid]⟩
    | picked | wiped | numbered _ | initialized | dropping | queued | destroying | switching =>
      simp [TaskPc.critical] at hcrit
  | waiting wait rp =>
    obtain ⟨-,hpid⟩ := hpos (by simp)
    cases rp with
    | scan _ _ | look _ _ _ | setBlocked | reaped _ _ => trivial
    | setKind | setTarget | yield =>
      intro hcur
      rcases harr hcur with ⟨hc,he⟩ | he
      · rw [he]
        exact h hc
      · rw [he]
        decide
    | found z =>
      obtain ⟨hz,-,hpar⟩ := (hobj z rfl).zombie h.1
      exact ⟨hz,by rw [hpar,h.2,hpid]⟩
    | noted z n s =>
      obtain ⟨hz,hn,hpar⟩ := (hobj z rfl).zombie h.1
      exact ⟨hz,by rw [hpar,h.2.1,hpid],hn.trans h.2.2⟩
    | released z n s => simp [TaskPc.critical] at hcrit

theorem Sound.pid_pos (h : Sound k pc) (hp : pc p ≠ .out) : 0 < k.pid p := by
  obtain ⟨_,hi⟩ := h.intact
  exact (hi.sane.registry.range p (h.busy p hp).used).1

variable {pc' : TaskPc} {xs : List Slot} {f : Pcb → Pcb}

/-- A step of the running process `c` that touches, besides `c` itself, at most the PCB `o`. -/
theorem Sound.next (h : Sound k pc) (hc : k.current = some c) (hi : ∃ ys, Intact k' ys)
    (o : Option Slot) (hsurv : ∀ q, o ≠ some q → Survives k k' q)
    (harr : ∀ q, q ≠ c → k'.current = some q → k'.state q = .running)
    (ho : ∀ q, o = some q → pc q = .out ∧ ∀ p, p ≠ c → (pc p).object ≠ some q) (hstage : TaskStage k' c pc')
    (hcrit : pc'.critical = true → k'.current = some c) (hbusy : pc' ≠ .out → Live (k'.state c))
    (hobj : ∀ q, pc'.object = some q → ∀ p, p ≠ c → (pc p).object ≠ some q)
    (hunborn : ∀ caller d sp, pc' = .spawning caller d sp → ¬Born caller sp → d ≠ c ∧ pc d = .out) :
    Sound k' (Function.update pc c pc') := by
  have hnot (p : Slot) (hp : p ≠ c) : (pc p).critical = false := by
    by_contra hno
    exact hp (Option.some.inj ((h.critical p (by simpa using hno)).symm.trans hc))
  have hlive (p : Slot) (hp : p ≠ c) (hpc : pc p ≠ .out) :
      Live (k'.state p) ∧ k'.pid p = k.pid p := by
    refine (hsurv p fun e => hpc (ho p e).1).live (fun e => hp ?_) (h.busy p hpc)
    exact Option.some.inj (e.symm.trans hc)
  refine ⟨hi,fun p hp => ?_,fun p hp => ?_,fun p q o' hp hq => ?_,fun p caller d sp hp hb => ?_,
    fun p => ?_⟩
  · by_cases hpc : p = c
    · subst hpc
      exact hcrit (by simpa using hp)
    · rw [Function.update_of_ne hpc,hnot p hpc] at hp
      cases hp
  · by_cases hpc : p = c
    · subst hpc
      exact hbusy (by simpa using hp)
    · rw [Function.update_of_ne hpc] at hp
      exact (hlive p hpc hp).1
  · by_cases hpc : p = c <;> by_cases hqc : q = c
    · rw [hpc,hqc]
    · subst hpc
      rw [Function.update_self] at hp
      rw [Function.update_of_ne hqc] at hq
      exact absurd hq (hobj o' hp q hqc)
    · subst hqc
      rw [Function.update_of_ne hpc] at hp
      rw [Function.update_self] at hq
      exact absurd hp (hobj o' hq p hpc)
    · rw [Function.update_of_ne hpc] at hp
      rw [Function.update_of_ne hqc] at hq
      exact h.apart p q o' hp hq
  · by_cases hpc : p = c
    · subst hpc
      obtain ⟨hd,hout⟩ := hunborn caller d sp (by simpa using hp) hb
      rwa [Function.update_of_ne hd]
    · rw [Function.update_of_ne hpc] at hp
      have hst := h.stage p
      have hcr := hnot p hpc
      rw [hp] at hst hcr
      -- a child out of reach is not the one that runs
      have hd : d ≠ c := fun e => (ChildStage.still hst hb hcr).away (e ▸ hc)
      rw [Function.update_of_ne hd]
      exact h.unborn p caller d sp hp hb
  · by_cases hpc : p = c
    · subst hpc
      simpa using hstage
    · rw [Function.update_of_ne hpc]
      refine (h.stage p).kept (hnot p hpc) (fun hp => ⟨h.pid_pos hp,(hlive p hpc hp).2⟩)
        (fun q hq => hsurv q fun e => (ho q e).2 p hpc hq) fun hcur => Or.inr (harr p hpc hcur)

theorem Sound.passes (h : Sound k pc) (hcrit : ∀ p, (pc p).critical = false) (hp : Passes k k')
    (hrun : ∀ q, k'.current = some q → k'.state q = .running) : Sound k' pc where
  intact := hp.intact
  critical p hcr := by
    rw [hcrit p] at hcr
    cases hcr
  busy p hpc := (hp.follows p).live.mpr (h.busy p hpc)
  apart := h.apart
  unborn := h.unborn
  stage p := (h.stage p).kept (hcrit p) (fun hpc => ⟨h.pid_pos hpc,(hp.follows p).pid⟩)
    (fun o _ => hp.survives o) fun hc => Or.inr (hrun p hc)

/-! The steps of a creation. -/

theorem Sound.child_out (h : Sound k pc) (hpc : pc c = .spawning caller child sp)
    (hb : ¬Born caller sp) : pc child = .out ∧ child ≠ c := by
  have hout := h.unborn c caller child sp hpc hb
  refine ⟨hout,?_⟩
  rintro rfl
  cases hout.symm.trans hpc

theorem Sound.puts (h : Sound k pc) (hc : k.current = some c)
    (hpc : pc c = .spawning caller child sp) (hb : ¬Born caller sp) (hp : Puts k k' child)
    (hi : ∃ ys, Intact k' ys)
    (hpc' : pc' = .out ∨ ∃ sp', pc' = .spawning caller child sp' ∧ ChildStage k' c caller child sp') :
    Sound k' (Function.update pc c pc') := by
  obtain ⟨hout,hne⟩ := h.child_out hpc hb
  have hobj (p : Slot) (hpne : p ≠ c) : (pc p).object ≠ some child := fun e =>
    hpne (h.apart p c child e (by rw [hpc]; rfl))
  have hcur : k'.current = some c := hp.current.trans hc
  have hlive : Live (k'.state c) := by
    simp only [Kernel.state,hp.pool c (Ne.symm hne)]
    exact h.busy c (by simp [hpc])
  refine h.next hc hi (some child) (fun q hq => hp.survives fun e => hq (by rw [e]))
    (fun q hq he => absurd (Option.some.inj (he.symm.trans hcur)) hq)
    (fun q hq => ?_) ?_ (fun _ => hcur) (fun _ => hlive) (fun q hq p hpne => ?_)
    fun caller' d sp' he _ => ?_
  · obtain rfl := Option.some.inj hq
    exact ⟨hout,hobj⟩
  · rcases hpc' with rfl | ⟨sp',rfl,hst⟩
    · trivial
    · exact hst
  · rcases hpc' with rfl | ⟨sp',rfl,-⟩
    · cases hq
    · obtain rfl := Option.some.inj hq
      exact hobj p hpne
  · rcases hpc' with rfl | ⟨sp',rfl,-⟩
    · cases he
    · cases he
      exact ⟨hne,hout⟩

theorem Registry.number (h : Registry k) (hu : k.state p ≠ .unused) (h1 : k.pid p ≠ 1) :
    1 < k.pid p ∧ k.pid p < k.nextPid ∧ ∀ q, q ≠ p → k.state q ≠ .unused → k.pid q ≠ k.pid p := by
  have := h.range p hu
  exact ⟨by omega,this.2,fun q hq hqu e => hq (h.unique q p hqu hu e)⟩

@[simp] theorem numberPcb_pool (k : Kernel) (p q : Slot) (n : ℕ) :
    (numberPcb k p n).pool q = if q = p then { k.pool p with pid := n } else k.pool q := by
  simp [numberPcb]

@[simp] theorem unlinkPcb_pool (k : Kernel) (p q : Slot) :
    (unlinkPcb k p).pool q = if q = p then { k.pool p with pid := 0 } else k.pool q := by
  simp only [unlinkPcb]
  split <;> simp

theorem unlinkPcb_eq (hc : k.procCurrent ≠ some p) :
    unlinkPcb k p = readyQueueRemove (k.modify p fun c => { c with pid := 0 }) p := by
  simp [unlinkPcb,readyQueueRemove,hc]

theorem Intact.off_queue (h : Intact k xs) (hs : k.state p ≠ .ready) : p ∉ xs :=
  h.sane.queued.not_mem hs

theorem Intact.modify (h : Intact k xs) (hx : p ∉ xs) (hc : k.current ≠ some p) (hf : (f (k.pool p)).state ≠ .unused →
      k.state p ≠ .unused ∧ k.pid p ≠ 1 ∧ (f (k.pool p)).pid = k.pid p) :
    Puts k (k.modify p f) p ∧ Intact (k.modify p f) xs := by
  have hp : Puts k (k.modify p f) p := ⟨fun q hq => by simp [hq],fun _ _ => rfl,rfl,rfl,hc⟩
  refine ⟨hp,hp.intact h (h.sane.queued.modify fun hm => absurd hm hx) le_rfl fun hu => ?_⟩
  have hm : (k.modify p f).pool p = f (k.pool p) := by simp
  simp only [Kernel.state,Kernel.pid,hm] at hu ⊢
  obtain ⟨hu,h1,hpid⟩ := hf hu
  rw [hpid]
  exact h.sane.registry.number hu h1

theorem Intact.add (h : Intact k xs) (hs : Still k p) (hr : k.state p = .ready)
    (n : ℕ) : Puts k (readyQueueAdd { k with kbd := n } p) p ∧
      Intact (readyQueueAdd { k with kbd := n } p) (xs++[p]) := by
  have hx : p ∉ xs := h.sane.queued.inserted_eq_false.mp hs.off
  have hk : Queued IsReady { k with kbd := n } xs :=
    ⟨h.sane.queued.queue,h.sane.queued.nodup,h.sane.queued.inserted,h.sane.queued.states⟩
  have hpool (q : Slot) : (readyQueueAdd { k with kbd := n } p).pool q = k.pool q := by
    simp only [Kernel.state] at hr
    simp [hr]
  have hp : Puts k (readyQueueAdd { k with kbd := n } p) p :=
    ⟨fun q _ => hpool q,fun q hq => by simp [hq],by simp,by simp,hs.away⟩
  refine ⟨hp,hp.intact h (hk.add hx rfl fun _ => hr) (by simp) fun _ => ?_⟩
  simp only [Kernel.pid,hpool,add_rest]
  exact h.sane.registry.number (by rw [hr]; decide) (hs.notIdle (by rw [hr]; decide))

theorem wipe_still (h : Intact k xs) (hx : p ∉ xs) :
    ({ k with queue := k.queue.wipe p } : Kernel) = k := by
  have hq : k.queue.wipe p = k.queue := by rw [h.sane.queued.queue,wipe_not_mem hx]
  rw [hq]

/-- A step of a creation that leaves the CPU where it is changes the PCB in hand and nothing
else. -/
theorem Sound.handStep (h : Sound w.kernel w.pc) (hc : w.kernel.current = some c)
    (hpc : w.pc c = .spawning caller child sp) (a : Answer) (hl : sp ≠ .launched)
    (hs : sp ≠ .switching) :
    Puts w.kernel (w.spawnStep c caller child a sp).kernel child ∧
      Sound (w.spawnStep c caller child a sp).kernel (w.spawnStep c caller child a sp).pc := by
  have hb : ¬Born caller sp := fun hb => hl hb.2
  have hst := h.stage c
  rw [hpc] at hst
  obtain ⟨xs,hi⟩ := h.intact
  have hne := (h.child_out hpc hb).2
  have haway : w.kernel.current ≠ some child := by
    rw [hc]
    exact fun e => hne (Option.some.inj e).symm
  -- the PCB in hand is changed and the process goes on to `pc'`
  have hput {k' : Kernel} {ys : List Slot} {pc' : TaskPc} (hp : Puts w.kernel k' child ∧ Intact k' ys)
      (hpc' : pc' = .out ∨ ∃ sp', pc' = .spawning caller child sp' ∧
        ChildStage k' c caller child sp') :
      Puts w.kernel k' child ∧ Sound k' (Function.update w.pc c pc') :=
    ⟨hp.1,h.puts hc hpc hb hp.1 ⟨ys,hp.2⟩ hpc'⟩
  have hsame : Puts w.kernel w.kernel child ∧ Intact w.kernel xs :=
    ⟨⟨fun _ _ => rfl,fun _ _ => rfl,rfl,rfl,haway⟩,hi⟩
  have hfree {f : Pcb → Pcb} (hx : child ∉ xs) (hf : (f (w.kernel.pool child)).state = .unused) :
      Puts w.kernel (w.kernel.modify child f) child ∧ Intact (w.kernel.modify child f) xs :=
    hi.modify hx haway fun hu => absurd hf hu
  have hdestroy (hstill : Still w.kernel child) {t : Tasks}
      (ht : t = if w.kernel.state child = .unused then w.goto c .out
        else (w.setKernel (w.kernel.setState child .unused)).goto c
          (.spawning caller child .destroying)) :
      Puts w.kernel t.kernel child ∧ Sound t.kernel t.pc := by
    rw [ht]
    split
    · exact hput hsame (Or.inl rfl)
    · simp only [goto_rest,setKernel_rest,setState_eq]
      exact hput (hfree (hi.sane.queued.inserted_eq_false.mp hstill.off) rfl)
        (Or.inr ⟨_,rfl,by simp [ChildStage]⟩)
  cases sp with
  | picked =>
    have hx : child ∉ xs := hi.off_queue (by rw [show w.kernel.state child = .unused from hst]; decide)
    have hw := hfree (f:=fun _ => ⟨0,.unused,.none,0,0,0⟩) hx rfl
    have he : wipePcb w.kernel child = w.kernel.modify child fun _ => ⟨0,.unused,.none,0,0,0⟩ := by
      have hq := hw.2.sane.queued.queue
      simp only [modify_rest] at hq
      simp only [wipePcb,hq,wipe_not_mem hx]
      rw [← hq]
      rfl
    simp only [Tasks.spawnStep,goto_rest]
    rw [he]
    exact hput hw (Or.inr ⟨_,rfl,by simp [ChildStage]⟩)
  | wiped =>
    exact hput hsame (Or.inr ⟨_,rfl,hst.1,hst.2,rfl⟩)
  | numbered n =>
    obtain ⟨hu,hpar,rfl⟩ := hst
    have hx : child ∉ xs := hi.off_queue (by rw [hu]; decide)
    have hp : Puts w.kernel (numberPcb w.kernel child w.kernel.nextPid) child :=
      ⟨fun q hq => by simp [hq],fun _ _ => rfl,rfl,rfl,haway⟩
    have hm := (hfree (f:=fun d => { d with pid := w.kernel.nextPid }) hx hu).2.sane.queued
    have hq : Queued IsReady (numberPcb w.kernel child w.kernel.nextPid) xs :=
      ⟨hm.queue,hm.nodup,hm.inserted,hm.states⟩
    simp only [Kernel.state] at hu
    simp only [Tasks.spawnStep,goto_rest,setKernel_rest]
    refine hput ⟨hp,hp.intact hi hq (Nat.le_succ _) fun hu' => absurd ?_ hu'⟩
      (Or.inr ⟨_,rfl,?_,?_,?_,?_,fun q hq => ?_⟩)
    · simp [hu]
    · simp [hu]
    · simpa using hpar
    · have hfresh := hi.sane.registry.fresh
      simp only [Kernel.pid,numberPcb_pool,if_true]
      omega
    · simp [numberPcb]
    · have hqc : q ≠ child := by
        rintro rfl
        simp [hu] at hq
      simp only [Kernel.state,Kernel.pid,numberPcb_pool,if_neg hqc,if_true] at hq ⊢
      exact (hi.sane.registry.range q hq).2
  | initialized =>
    obtain ⟨hu,hpar,h1,hn,hlt⟩ := hst
    have hx : child ∉ xs := hi.off_queue (by rw [hu]; decide)
    have hp : Puts w.kernel (w.kernel.modify child fun d =>
        { d with entryPoint := caller.entry, state := .ready }) child :=
      ⟨fun q hq => by simp [hq],fun _ _ => rfl,rfl,rfl,haway⟩
    have hq : Queued IsReady (w.kernel.modify child fun d =>
        { d with entryPoint := caller.entry, state := .ready }) xs :=
      hi.sane.queued.modify fun hm => absurd hm hx
    simp only [Tasks.spawnStep,goto_rest,setKernel_rest]
    refine hput ⟨hp,hp.intact hi hq le_rfl fun _ => ?_⟩
      (Or.inr ⟨_,rfl,⟨Or.inl (by simp),?_,haway,fun _ => ?_⟩,by simp,by simpa using hpar⟩)
    · simp only [Kernel.pid,modify_pool,if_true,modify_rest] at h1 hn ⊢
      refine ⟨h1,by omega,fun q _ hqu => ?_⟩
      have := hlt q hqu
      simp only [Kernel.pid] at this
      omega
    · exact hi.sane.queued.inserted_eq_false.mpr hx
    · simp only [Kernel.pid,modify_pool,if_true] at h1 ⊢
      omega
  | prepared =>
    obtain ⟨hstill,hr,hpar⟩ := hst
    have hx := hi.sane.queued.inserted_eq_false.mp hstill.off
    have hadd := hi.add hstill hr w.kernel.kbd
    have hrs := hr
    simp only [Kernel.state] at hrs
    simp only [Tasks.spawnStep]
    split
    · exact hput hsame (Or.inl rfl)
    · split
      · simp only [goto_rest,setKernel_rest,setState_eq]
        exact hput (hfree hx rfl) (Or.inr ⟨_,rfl,by simp [ChildStage]⟩)
      · simp only [goto_rest,setImage_rest,setKernel_rest,
          wipe_still hi hx]
        refine hput hadd (Or.inr ⟨_,rfl,?_,?_,?_⟩)
        · simp [hrs]
        · simpa [hrs] using hstill.notIdle (by rw [hr]; decide)
        · simpa [hrs] using hpar
  | dropping =>
    have hx : child ∉ xs := hi.off_queue (by rw [show w.kernel.state child = .unused from hst]; decide)
    simp only [Tasks.spawnStep,goto_rest,setKernel_rest]
    exact hput (hfree (f:=fun d => { d with pid := 0 }) hx hst) (Or.inl rfl)
  | queued =>
    obtain ⟨hr,h1,hpar⟩ := hst
    have hq := hi.sane.queued.remove child
    have hp : Puts w.kernel (readyQueueRemove w.kernel child) child :=
      ⟨fun _ _ => rfl,fun q hq => by simp [hq],rfl,rfl,haway⟩
    simp only [Tasks.spawnStep,goto_rest,setKernel_rest]
    refine hput ⟨hp,hp.intact hi hq le_rfl fun _ => ?_⟩
      (Or.inr ⟨_,rfl,⟨Or.inl hr,by simp,haway,fun _ => h1⟩,hr,hpar⟩)
    exact hi.sane.registry.number (by rw [hr]; decide) h1
  | removed =>
    obtain ⟨hstill,hr,hpar⟩ := hst
    simp only [Tasks.spawnStep]
    split
    · have hk : Intact { w.kernel with kernelShell := some child } xs := by
        have hq := hi.sane.queued
        have hreg := hi.sane.registry
        exact ⟨⟨⟨hq.queue,hq.nodup,hq.inserted,hq.states⟩,hi.sane.same,hi.sane.current,
          ⟨hreg.unique,hreg.range,hreg.fresh,hreg.idle⟩⟩,hi.off⟩
      exact hput ⟨⟨fun _ _ => rfl,fun _ _ => rfl,rfl,rfl,haway⟩,hk⟩
        (Or.inr ⟨_,rfl,hr,hstill.notIdle (by rw [hr]; decide)⟩)
    · split
      · exact hput hsame (Or.inr ⟨_,rfl,hstill,hr,hpar⟩)
      · split
        · exact hput hsame (Or.inl rfl)
        · exact hdestroy hstill rfl
  | destroying =>
    have hx : child ∉ xs := hi.off_queue (by rw [show w.kernel.state child = .unused from hst]; decide)
    have hproc : w.kernel.procCurrent ≠ some child := by
      rw [hi.sane.same]
      exact haway
    have hm := hfree (f:=fun d => { d with pid := 0 }) hx hst
    have hq := hm.2.sane.queued.remove child
    have hp : Puts w.kernel (unlinkPcb w.kernel child) child := by
      rw [unlinkPcb_eq hproc]
      exact ⟨fun q hq => by simp [hq],fun q hq => by simp [hq],rfl,rfl,haway⟩
    rw [← unlinkPcb_eq hproc] at hq
    simp only [Tasks.spawnStep,goto_rest,setKernel_rest]
    refine hput ⟨hp,hp.intact hi hq ?_ fun hu => absurd ?_ hu⟩ (Or.inl rfl)
    · rw [unlinkPcb_eq hproc]
      exact le_rfl
    · rw [unlinkPcb_eq hproc]
      have hst' : w.kernel.state child = .unused := hst
      simpa using hst'
  | loaded entry =>
    obtain ⟨hstill,hr,hpar⟩ := hst
    simp only [Tasks.spawnStep]
    split
    · split
      · exact hput hsame (Or.inr ⟨_,rfl,hstill,hr,hpar⟩)
      · exact hdestroy hstill rfl
    · exact hput hsame (Or.inr ⟨_,rfl,hstill,hr,hpar⟩)
  | framed entry =>
    obtain ⟨hstill,hr,hpar⟩ := hst
    have hx := hi.sane.queued.inserted_eq_false.mp hstill.off
    have h1 := hstill.notIdle (by rw [hr]; decide)
    have hm := hi.modify hx haway (f:=fun d => { d with entryPoint := entry }) fun hu => ⟨hu,h1,rfl⟩
    simp only [Tasks.spawnStep,goto_rest,setImage_rest,setKernel_rest]
    refine hput hm (Or.inr ⟨_,rfl,⟨Or.inl ?_,hstill.off,haway,fun _ => ?_⟩,?_,?_⟩)
    · simpa using hr
    · simpa using h1
    · simpa using hr
    · simpa using hpar
  | entered =>
    obtain ⟨hstill,hr,hpar⟩ := hst
    have hx := hi.sane.queued.inserted_eq_false.mp hstill.off
    have h1 := hstill.notIdle (by rw [hr]; decide)
    have hrs := hr
    simp only [Kernel.state] at hrs
    simp only [Tasks.spawnStep]
    split
    · have hm := hi.modify hx haway (f:=fun d => { d with parentPid := w.kernel.pid c })
        fun hu => ⟨hu,h1,rfl⟩
      simp only [goto_rest,setKernel_rest]
      refine hput hm (Or.inr ⟨_,rfl,⟨Or.inl ?_,hstill.off,haway,fun _ => ?_⟩,?_,?_⟩)
      · simpa using hr
      · simpa using h1
      · simpa using hr
      · simp [Ne.symm hne]
    · split
      · exact hput (hi.add hstill hr w.kernel.kbd) (Or.inl rfl)
      · rename_i hexec _
        simp only [goto_rest,setKernel_rest]
        refine hput (hi.add hstill hr 0) (Or.inr ⟨_,rfl,?_⟩)
        simp only [ChildStage,if_neg hexec]
        exact ⟨by simp [hrs],by simpa [hrs] using h1⟩
  | adopted =>
    obtain ⟨hstill,hr,hpar⟩ := hst
    have hrs := hr
    simp only [Kernel.state] at hrs
    simp only [Tasks.spawnStep,goto_rest,setKernel_rest]
    refine hput (hi.add hstill hr 0) (Or.inr ⟨_,rfl,?_⟩)
    simp only [ChildStage]
    split
    · exact ⟨by simp [hrs],by simpa [hrs] using hpar⟩
    · exact ⟨by simp [hrs],by simpa [hrs] using hstill.notIdle (by rw [hr]; decide)⟩
  | launched => exact absurd rfl hl
  | switching => exact absurd rfl hs

theorem Sound.goto (h : Sound k pc) (hc : k.current = some c) (hstage : TaskStage k c pc')
    (hobj : ∀ q, pc'.object = some q → ∀ p, p ≠ c → (pc p).object ≠ some q)
    (hunborn : ∀ caller d sp, pc' = .spawning caller d sp → ¬Born caller sp → d ≠ c ∧ pc d = .out) :
    Sound k (Function.update pc c pc') := by
  obtain ⟨xs,hi⟩ := h.intact
  refine h.next hc h.intact none (fun q _ => survives_of_pool rfl rfl rfl)
    (fun q hq he => absurd (Option.some.inj (he.symm.trans hc)) hq) (by simp) hstage (fun _ => hc)
    (fun _ => hi.sane.current c hc) hobj hunborn

theorem Sound.goto_out (h : Sound k pc) (hc : k.current = some c) :
    Sound k (Function.update pc c .out) :=
  h.goto hc trivial (fun _ hq => by cases hq) fun _ _ _ he => by cases he

theorem Intact.mark (h : Intact k xs) (hc : k.current = some c)
    (hf : (f (k.pool c)).pid = k.pid c ∧ (f (k.pool c)).parentPid = (k.pool c).parentPid)
    (hl : Live (f (k.pool c)).state) :
    Intact (k.modify c f) xs ∧ ∀ q, Follows k (k.modify c f) q ∧ Survives k (k.modify c f) q := by
  have hlive := h.sane.current c hc
  have hx : c ∉ xs := h.sane.queued.inserted_eq_false.mp (h.off c hc)
  have hfol (q : Slot) : Follows k (k.modify c f) q := by
    by_cases hq : q = c
    · subst hq
      exact ⟨by simp [hf.1],by simp [hf.2],Or.inr ⟨hlive,by simpa using hl⟩⟩
    · exact Follows.of_eq (by simp [hq])
  have hq : Queued IsReady (k.modify c f) xs := h.sane.queued.modify fun hm => absurd hm hx
  obtain ⟨_,_,_,hs⟩ := h.sane.stay hfol rfl hq rfl rfl
  refine ⟨⟨⟨hq,hs.same,hs.current,hs.registry⟩,h.off⟩,
    fun q => ⟨hfol q,(hfol q).survives fun hst => ?_⟩⟩
  have hq : q ≠ c := fun e => hst.away (e ▸ hc)
  exact ⟨by simp [hq],hst.of_pool (by simp [hq]) hst.off hst.away⟩

section

variable (h : Sound w.kernel w.pc) (hc : w.kernel.current = some c)
include h hc

theorem Sound.launchStep (hpc : w.pc c = .spawning caller child .launched) (a : Answer) :
    Sound (w.spawnStep c caller child a .launched).kernel
      (w.spawnStep c caller child a .launched).pc := by
  obtain ⟨xs,hi⟩ := h.intact
  simp only [Tasks.spawnStep]
  split
  · exact h.goto_out hc
  · rename_i hexec
    have hb : ¬Born caller .launched := fun hb => hexec hb.1
    obtain ⟨hout,hne⟩ := h.child_out hpc hb
    have hst := h.stage c
    rw [hpc] at hst
    simp only [TaskStage,ChildStage,if_neg hexec] at hst
    obtain ⟨hmark,hothers⟩ := hi.mark hc (f:=fun d => { d with state := .blocked }) ⟨rfl,rfl⟩
      (by simp [Live])
    refine h.next hc ⟨xs,hmark⟩ none (fun q _ => (hothers q).2)
      (fun q hq he => absurd (Option.some.inj (he.symm.trans hc)) hq) (by simp) ?_ (fun _ => hc)
      (fun _ => hmark.sane.current c hc) (fun q hq p hp e => ?_) fun caller' d sp he _ => ?_
    · simpa [TaskStage,ChildStage,hne] using hst
    · obtain rfl := Option.some.inj hq
      exact hp (h.apart p c child e (by rw [hpc]; rfl))
    · cases he
      exact ⟨hne,hout⟩

theorem Sound.switchStep (hpc : w.pc c = .spawning caller child .switching) (a : Answer) :
    Sound (w.spawnStep c caller child a .switching).kernel
      (w.spawnStep c caller child a .switching).pc := by
  obtain ⟨xs,hi⟩ := h.intact
  have hst := h.stage c
  rw [hpc] at hst
  obtain ⟨hout,hne⟩ := h.child_out hpc fun hb => by cases hb.2
  simp only [Tasks.spawnStep,goto_rest,setKernel_rest]
  have hl : Live (w.kernel.state child) := Or.inl hst.1
  rcases hi.switchTo hl hst.2 with he | ⟨ys,hh,hi'⟩
  · rw [he]
    exact h.goto_out hc
  · refine h.next hc ⟨ys,hi'⟩ (some child) (fun q hq => (hh.follows hl q).survives fun hs =>
        hh.still hi.sane.queued hs fun e => hq (by rw [e]))
      (fun q _ he => hh.arrives q he) (fun q hq => ?_) trivial (fun he => by cases he)
      (fun he => absurd rfl he) (fun _ hq => by cases hq) fun _ _ _ he => by cases he
    obtain rfl := Option.some.inj hq
    exact ⟨hout,fun p hp e => hp (h.apart p c child e (by rw [hpc]; rfl))⟩

theorem Sound.spawnStep (hpc : w.pc c = .spawning caller child sp) (a : Answer) :
    Sound (w.spawnStep c caller child a sp).kernel (w.spawnStep c caller child a sp).pc := by
  by_cases hl : sp = .launched
  · subst hl
    exact h.launchStep hc hpc a
  · by_cases hs : sp = .switching
    · subst hs
      exact h.switchStep hc hpc a
    · exact (h.handStep hc hpc a hl hs).2

end

/-! The steps of `sys_waitpid`. -/

/-- Only its parent has a zombie in hand. -/
theorem Sound.zombie_parent (h : Sound k pc) {z : Slot} (hz : k.state z = .zombie)
    (hp : (pc p).object = some z) : (k.pool z).parentPid = k.pid p ∧ pc p ≠ .out := by
  have hst := h.stage p
  cases hpc : pc p with
  | out | exiting => simp [hpc,TaskPc.object] at hp
  | spawning caller d sp =>
    simp only [hpc,TaskPc.object,Option.some.injEq] at hp
    subst hp
    rw [hpc] at hst
    refine ⟨?_,by simp⟩
    cases sp with
    | picked | dropping | destroying => cases (show k.state d = .unused from hst).symm.trans hz
    | wiped | numbered _ | initialized | queued | switching => cases hst.1.symm.trans hz
    | prepared | removed | loaded _ | framed _ | entered | adopted => cases hst.2.1.symm.trans hz
    | launched =>
      simp only [TaskStage,ChildStage] at hst
      split at hst
      · exact hst.2
      · cases hst.1.symm.trans hz
  | waiting wait rp =>
    rw [hpc] at hst hp
    refine ⟨?_,by simp⟩
    cases rp with
    | scan _ _ | look _ _ _ | setBlocked | setKind | setTarget | yield | reaped _ _ => cases hp
    | found z' =>
      obtain rfl := Option.some.inj hp
      exact hst.2
    | noted z' _ _ =>
      obtain rfl := Option.some.inj hp
      exact hst.2.1
    | released z' _ _ =>
      obtain rfl := Option.some.inj hp
      cases (show k.state z' = .unused from hst).symm.trans hz

theorem Sound.reaps (h : Sound k pc) (hc : k.current = some c) {z : Slot}
    (hobj : (pc c).object = some z) (hz : ¬Live (k.state z))
    (hf : (f (k.pool z)).state = .unused) (wait : Wait) (rp : ReapPc)
    (hrp : (TaskPc.waiting wait rp).object = some z ∨ (TaskPc.waiting wait rp).object = none)
    (hst : ReapStage (k.modify z f) c rp) :
    Puts k (k.modify z f) z ∧ Sound (k.modify z f) (Function.update pc c (.waiting wait rp)) := by
  obtain ⟨xs,hi⟩ := h.intact
  have hne : c ≠ z := by
    rintro rfl
    exact hz (hi.sane.current c hc)
  have haway : k.current ≠ some z := by
    rw [hc]
    exact fun e => hne (Option.some.inj e)
  have hx : z ∉ xs := hi.off_queue fun e => hz (Or.inl e)
  obtain ⟨hp,hi'⟩ := hi.modify hx haway (f:=f) fun hu => absurd hf hu
  have howner (p : Slot) (hpc : p ≠ c) : (pc p).object ≠ some z := fun e =>
    hpc (h.apart p c z e hobj)
  refine ⟨hp,h.next hc ⟨xs,hi'⟩ (some z) (fun q hq => hp.survives fun e => hq (by rw [e]))
    (fun q hq he => absurd (Option.some.inj (he.symm.trans hc)) hq) (fun q hq => ?_) hst
    (fun _ => hc) (fun _ => hi'.sane.current c hc) (fun q hq => ?_) fun _ _ _ he => by cases he⟩
  · obtain rfl := Option.some.inj hq
    refine ⟨?_,howner⟩
    by_contra hno
    exact hz (h.busy z hno)
  · rcases hrp with he | he
    · obtain rfl := Option.some.inj (he.symm.trans hq)
      exact howner
    · cases he.symm.trans hq

theorem Sound.yields (h : Sound k pc) (hc : k.current = some c) (hr : k.state c ≠ .ready)
    (wait : Wait) : Passes k (processYield k) ∧
      Sound (processYield k) (Function.update pc c (.waiting wait (.scan 1 false))) := by
  obtain ⟨xs,hi⟩ := h.intact
  have hp := hi.yield hc hr
  refine ⟨hp,h.next hc hp.intact none (fun q _ => hp.survives q) (fun q hq he => ?_) (by simp) trivial
    (fun he => by cases he) (fun _ => (hp.follows c).live.mpr (hi.sane.current c hc))
    (fun _ hq => by cases hq) fun _ _ _ he => by cases he⟩
  exact (hp.arrives q he).resolve_left fun e => hq (Option.some.inj (e.symm.trans hc))

theorem Sound.marks (h : Sound k pc) (hc : k.current = some c)
    (hf : (f (k.pool c)).pid = k.pid c ∧ (f (k.pool c)).parentPid = (k.pool c).parentPid)
    (hl : Live (f (k.pool c)).state) (wait : Wait) (rp : ReapPc)
    (hrp : (TaskPc.waiting wait rp).object = none ∧ (TaskPc.waiting wait rp).critical = false)
    (hst : ReapStage (k.modify c f) c rp) :
    (∀ q, Follows k (k.modify c f) q) ∧
      Sound (k.modify c f) (Function.update pc c (.waiting wait rp)) := by
  obtain ⟨xs,hi⟩ := h.intact
  obtain ⟨hmark,hothers⟩ := hi.mark hc hf hl
  refine ⟨fun q => (hothers q).1,h.next hc ⟨xs,hmark⟩ none (fun q _ => (hothers q).2)
    (fun q hq he => absurd (Option.some.inj (he.symm.trans hc)) hq) (by simp) hst
    (fun he => by rw [hrp.2] at he; cases he) (fun _ => hmark.sane.current c hc)
    (fun q hq => by rw [hrp.1] at hq; cases hq) fun _ _ _ he => by cases he⟩

theorem Sound.reapStep (h : Sound w.kernel w.pc) (hc : w.kernel.current = some c) {wait : Wait}
    {rp : ReapPc} (hpc : w.pc c = .waiting wait rp) (a : Answer) :
    Sound (w.reapStep c wait a rp).kernel (w.reapStep c wait a rp).pc := by
  have hst := h.stage c
  rw [hpc] at hst
  obtain ⟨xs,hi⟩ := h.intact
  have hgoto {rp' : ReapPc} (hst : ReapStage w.kernel c rp')
      (hobj : (TaskPc.waiting wait rp').object = none ∨
        (TaskPc.waiting wait rp').object = (w.pc c).object) :
      Sound w.kernel (Function.update w.pc c (.waiting wait rp')) := by
    refine h.goto hc hst (fun q hq p hp e => ?_) fun _ _ _ he => by cases he
    rcases hobj with he | he
    · cases he.symm.trans hq
    · exact hp (h.apart p c q e (he.symm.trans hq))
  cases rp with
  | scan pid live =>
    simp only [Tasks.reapStep]
    split
    · split <;> exact hgoto trivial (Or.inl rfl)
    · split
      · exact h.goto_out hc
      · exact hgoto trivial (Or.inl rfl)
  | look pid live d =>
    simp only [Tasks.reapStep]
    split
    · exact hgoto trivial (Or.inl rfl)
    · split
      · exact hgoto trivial (Or.inl rfl)
      · split
        · rename_i hpar _ hz
          rw [not_not] at hpar
          refine h.goto hc ⟨hz,hpar⟩ (fun q hq p hp e => ?_) fun _ _ _ he => by cases he
          obtain rfl := Option.some.inj hq
          -- whoever has the zombie in hand is its parent, and there is only one process with that pid
          obtain ⟨hpp,hbusy⟩ := h.zombie_parent hz e
          exact hp (hi.sane.registry.unique p c (h.busy p hbusy).used
            (hi.sane.current c hc).used (hpp.symm.trans hpar))
        · exact hgoto trivial (Or.inl rfl)
  | setBlocked =>
    exact (h.marks hc (f:=fun d => { d with state := .blocked }) ⟨rfl,rfl⟩ (by simp [Live])
      wait .setKind ⟨rfl,rfl⟩ fun _ => by simp).2
  | setKind =>
    refine (h.marks hc (f:=fun d => { d with blockKind := .waitpid }) ⟨rfl,rfl⟩
      (hi.sane.current c hc) wait .setTarget ⟨rfl,rfl⟩ fun _ => ?_).2
    simpa using hst hc
  | setTarget =>
    refine (h.marks hc (f:=fun d => { d with waitPid := wait.target }) ⟨rfl,rfl⟩
      (hi.sane.current c hc) wait .yield ⟨rfl,rfl⟩ fun _ => ?_).2
    simpa using hst hc
  | yield => exact (h.yields hc (hst hc) wait).2
  | found z => exact hgoto ⟨hst.1,hst.2,rfl⟩ (Or.inr (by rw [hpc]; rfl))
  | noted z pid status =>
    simp only [Tasks.reapStep]
    split
    · exact hgoto trivial (Or.inl rfl)
    · exact (h.reaps hc (by rw [hpc]; rfl) (by rw [hst.1]; simp [Live])
        (f:=fun d => { d with state := .unused }) rfl wait (.released z pid status) (Or.inl rfl)
        (by simp [ReapStage])).2
  | released z pid status =>
    have hu : w.kernel.state z = .unused := hst
    exact (h.reaps hc (by rw [hpc]; rfl) (by rw [hu]; simp [Live])
      (f:=fun d => { d with pid := 0 }) hu wait (.reaped pid status) (Or.inr rfl) trivial).2
  | reaped pid status =>
    simp only [Tasks.reapStep]
    split <;> exact h.goto_out hc

/-! Whole steps. -/

theorem Sound.exits (h : Sound k pc) (hc : k.current = some c) :
    Departs k (processExit k) c ∧ Sound (processExit k) (Function.update pc c .out) := by
  obtain ⟨xs,hi⟩ := h.intact
  have hd := hi.exit hc
  exact ⟨hd,h.next hc hd.intact none (fun q _ => hd.survives hc (hi.sane.current c hc) q)
    (fun q _ he => hd.arrives q he) (by simp) trivial (fun he => by cases he)
    (fun he => absurd rfl he) (fun _ hq => by cases hq) fun _ _ _ he => by cases he⟩

theorem Sound.advance (h : Sound w.kernel w.pc) (hc : w.kernel.current = some c) {a : Answer}
    (hs : w.advance c a = some w') : Sound w'.kernel w'.pc := by
  simp only [Tasks.advance] at hs
  split at hs
  · cases hs
  · cases hs
    exact (h.exits hc).2
  · cases hs
    exact h.spawnStep hc (by assumption) a
  · cases hs
    exact h.reapStep hc (by assumption) a

/-- A tick gets through only where nothing is at stake. -/
theorem Sound.tick (h : Sound w.kernel w.pc) {u : Bool} (hu : ¬(u = true ∧ w.free = false))
    (hok : Unbroken w (.tick u)) : timerPreemptHandler w.kernel u = w.kernel ∨
      (∀ p, (w.pc p).critical = false) ∧ Passes w.kernel (timerPreemptHandler w.kernel u) ∧
        Sound (timerPreemptHandler w.kernel u) w.pc := by
  obtain ⟨xs,hi⟩ := h.intact
  by_cases hcr : w.critical = true
  · left
    cases hc : w.kernel.procCurrent with
    | none => simp only [timerPreemptHandler,hc]
    | some c =>
      have hcc : (w.pc c).critical = true := by simpa [Tasks.critical,hc] using hcr
      have hfree : w.free = false := by
        simp only [Tasks.free,hc,Option.all_some,decide_eq_false_iff_not]
        intro he
        rw [he] at hcc
        cases hcc
      have hu' : u = false := by simpa [hfree] using hu
      simp only [timerPreemptHandler,hc]
      split
      · rfl
      · rw [if_pos ⟨hu',hok hcr⟩]
  · have hnot (p : Slot) : (w.pc p).critical = false := by
      by_contra hp
      rw [Bool.not_eq_false] at hp
      refine hcr ?_
      rw [Tasks.critical,hi.sane.same,h.critical p hp]
      exact hp
    rcases hi.tick u with he | ⟨hp,hrun⟩
    · exact Or.inl he
    · exact Or.inr ⟨hnot,hp,h.passes hnot hp hrun⟩

theorem call_some {f : Slot → Tasks} (h : w.call caller f = some w') : ∃ self,
    w.kernel.procCurrent = some self ∧ w.pc self = .out ∧ caller.Allowed w.kernel self ∧ w' = f self := by
  obtain ⟨self,hself,hs⟩ := Option.bind_eq_some_iff.mp h
  split at hs
  · rename_i hcall
    exact ⟨self,hself,hcall.1,hcall.2,(Option.some.inj hs).symm⟩
  · cases hs

/-- `get_free_pcb` finds a slot that nobody else has in hand. -/
theorem Sound.picks (h : Sound k pc) (hc : k.current = some c) (hout : pc c = .out)
    (hf : getFreePcb k = some child) (caller : Caller) :
    Sound k (Function.update pc c (.spawning caller child .picked)) := by
  obtain ⟨xs,hi⟩ := h.intact
  have hu := getFreePcb_spec hf
  refine h.goto hc hu (fun q hq p hp e => ?_) fun caller' d sp he _ => ?_
  · obtain rfl := Option.some.inj hq
    have hnot : (pc p).critical = false := by
      by_contra hcr
      exact hp (Option.some.inj ((h.critical p (by simpa using hcr)).symm.trans hc))
    have hst := h.stage p
    cases hpc : pc p with
    | out | exiting => simp [hpc,TaskPc.object] at e
    | spawning caller' d sp =>
      rw [hpc] at e hst hnot
      obtain rfl := Option.some.inj e
      by_cases hb : Born caller' sp
      · obtain ⟨rfl,rfl⟩ := hb
        exact hst.1 hu
      · cases sp with
        | prepared | removed | loaded _ | framed _ | entered | adopted => cases hst.2.1.symm.trans hu
        | launched => exact hb ⟨by simpa [TaskPc.critical] using hnot,rfl⟩
        | picked | wiped | numbered _ | initialized | dropping | queued | destroying | switching =>
          simp [TaskPc.critical] at hnot
    | waiting wait rp =>
      rw [hpc] at e hst hnot
      cases rp with
      | scan _ _ | look _ _ _ | setBlocked | setKind | setTarget | yield | reaped _ _ => cases e
      | found z =>
        obtain rfl := Option.some.inj e
        cases hst.1.symm.trans hu
      | noted z _ _ =>
        obtain rfl := Option.some.inj e
        cases hst.1.symm.trans hu
      | released z _ _ => simp [TaskPc.critical] at hnot
  · cases he
    refine ⟨?_,?_⟩
    · rintro rfl
      exact (hi.sane.current child hc).used hu
    · by_contra hno
      exact (h.busy child hno).used hu

theorem Sound.step {e : TaskEvent} (h : Sound w.kernel w.pc) (hok : Unbroken w e)
    (hs : w.step e = some w') : Sound w'.kernel w'.pc := by
  obtain ⟨xs,hi⟩ := h.intact
  simp only [Tasks.step] at hs
  split at hs
  · cases hs
  cases e with
  | tick u =>
    simp only at hs
    split at hs
    · cases hs
    · rename_i hu
      cases hs
      rcases h.tick hu hok with he | ⟨-,-,hs⟩
      · simp only [setKernel_rest,he]
        exact h
      · exact hs
  | spawn caller =>
    obtain ⟨self,hself,hout,-,rfl⟩ := call_some hs
    rw [hi.sane.same] at hself
    split
    · exact h
    · exact h.picks hself hout (by assumption) caller
  | waitpid pid nohang wantsStatus =>
    obtain ⟨self,hself,-,-,rfl⟩ := call_some hs
    rw [hi.sane.same] at hself
    exact h.goto hself trivial (fun _ hq => by cases hq) fun _ _ _ he => by cases he
  | exit status =>
    obtain ⟨self,hself,-,-,rfl⟩ := call_some hs
    rw [hi.sane.same] at hself
    exact h.goto hself trivial (fun _ hq => by cases hq) fun _ _ _ he => by cases he
  | advance a =>
    obtain ⟨self,hself,hs⟩ := Option.bind_eq_some_iff.mp hs
    rw [hi.sane.same] at hself
    exact h.advance hself hs

theorem boot_sound : Sound Tasks.boot.kernel Tasks.boot.pc where
  intact := ⟨[],boot_sane IsReady none,fun _ _ => rfl⟩
  critical _ hp := by cases hp
  busy _ hp := absurd rfl hp
  apart _ _ _ hp := by cases hp
  unborn _ _ _ _ hp := by cases hp
  stage _ := trivial

end Sched
end DonsOs
