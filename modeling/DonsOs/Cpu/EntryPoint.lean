import DonsOs.Cpu.Transparent

/-! Where a new program starts.
`process_create` builds the resume frame of a program before its image is read, with
`0x8000000000` in the slot of `rip`.  `sys_exec` puts the entry point of the image there; the
other three places that start a program only set `entry_point` in the PCB, which no resume looks
at. -/
namespace DonsOs
namespace Cpu

open Sched Stack Run

/-- The places that create a user process and load an image into it. -/
inductive Site where
  | sysExec | bootShell | usershell | elfload
deriving DecidableEq

/-- `frame[9]`, `frame[10]` and `frame[15]`, in this order. -/
def frameStores (rsp argc array entry : ℕ) : List (ℕ × ℕ) :=
  [(rsp+8*9,argc),(rsp+8*10,array),(rsp+8*15,entry)]

/-- What follows on the load of the image into `p`, from `scheduler_ready_queue_remove` on.  The
process is as one that was stopped in its first frame. -/
def adopt (m : Machine) (p : Slot) (parent : ℕ) (site : Site) (entry argc array : ℕ) : Machine :=
  let k := readyQueueRemove m.kernel p
  let m := match site with
    | .sysExec =>
      { m with
        mem := storeAll m.cr3 (frameStores (m.pcb p).rsp argc array entry) m.mem
        pcb := Function.update m.pcb p
          { m.pcb p with regs := Function.update (m.pcb p).regs .rip entry }
        kernel := readyQueueAdd
          { k.modify p fun c => { c with entryPoint := entry, parentPid := parent } with kbd := 0 } p }
    | .bootShell =>
      { m with kernel := readyQueueAdd (k.modify p fun c => { c with entryPoint := entry }) p }
    | .usershell | .elfload =>
      { m with
        kernel := readyQueueAdd
          { k.modify p fun c => { c with entryPoint := entry } with kbd := 0 } p }
  { m with
    stopped := Function.update m.stopped p
      (.tick (readFrame m.mem (m.pcb p).cr3 (m.pcb p).rsp) fun _ => 0) }

/-- The PCB that `process_create` returns. -/
def newborn (m : Machine) (entry : ℕ) : Option Slot :=
  (kernelStackSlotAlloc m).bind fun _ => (processCreate m.kernel entry .ok).1

/-- A place that starts a program, the load being successful. -/
def spawn (L : Layout) (m : Machine) (parent : ℕ) (site : Site) (entry argc array cr3 : ℕ) : Machine :=
  let made := create L m userCodeBase 0 0 cr3
  match newborn m userCodeBase with
  | none => made
  | some p => adopt made p parent site entry argc array

/-- The machine, with the programs that were started and have not run yet: where, and the
`e_entry` of their images. -/
structure Launcher where
  machine : Machine
  pending : Slot → Option (Site × ℕ)

inductive LaunchEvent where
  | cpu (e : Event)
  | spawn (site : Site) (entry argc array cr3 : ℕ)
  /-- The end of `usershell` and `elfload`. -/
  | switchTo (p : Slot)

/-- The PCB that an event of the machine hands out. -/
def handedOut (m : Machine) : Event → Option Slot
  | .create entry _ _ _ => newborn m entry
  | _ => none

/-- The machine has gone on to `m`: a program that runs now is not waiting to be dispatched, nor is
one whose PCB was handed out anew. -/
def Launcher.after (l : Launcher) (m : Machine) (out : Option Slot) : Launcher :=
  ⟨m,fun p => if m.kernel.procCurrent = some p ∨ out = some p then none else l.pending p⟩

/-- `suspend_self_for_diagnostic` and `scheduler_switch_to`, in the kernel shell. -/
def switchTo (m : Machine) (self next : Slot) : Option Machine :=
  contextSwitch { m with kernel := schedulerSwitchTo (m.kernel.setState self .blocked) next } self next

/-- An image whose `e_entry` is in the kernel's range is left out for `sys_exec`: its process
executes no user instruction at all. -/
def Launcher.step (L : Layout) (l : Launcher) : LaunchEvent → Option Launcher
  | .cpu e => (l.machine.step L e).map fun m => l.after m (handedOut l.machine e)
  | .spawn site entry argc array cr3 =>
    l.machine.kernel.procCurrent.bind fun self =>
      if entry ≠ 0 ∧ (site = .sysExec → entry < kernelBase) ∧
          ∀ p, l.machine.kernel.state p ≠ .unused → (l.machine.pcb p).cr3 ≠ cr3 then
        some ⟨spawn L l.machine (l.machine.kernel.pid self) site entry argc array cr3,fun p =>
          if newborn l.machine userCodeBase = some p then some (site,entry) else l.pending p⟩
      else none
  | .switchTo p =>
    l.machine.kernel.procCurrent.bind fun self =>
      -- the kernel shell has kernel code in its PCB and is not idle
      if l.machine.kernel.pid self ≠ 1 ∧ l.machine.regs .cs = 0x18 ∧
          kernelBase ≤ (l.machine.pcb self).regs .rip ∧ l.machine.kernel.state p = .ready ∧
          ((l.pending p).any fun s => s.1 = .usershell ∨ s.1 = .elfload) then
        (switchTo l.machine self p).map fun m => l.after m none
      else none

def Launcher.boot (L : Layout) (mem : Cell → ℕ) (parts : Part → ℕ) (cr3 idleCr3 : ℕ) : Launcher :=
  ⟨Cpu.boot L mem parts cr3 idleCr3,fun _ => none⟩

variable {L : Layout} {m m' : Machine} {p : Slot}

/-- The slot of a register. -/
def slotOf (r : Reg) : ℕ := frameRegs.idxOf r

theorem slotOf_lt (r : Reg) : slotOf r < 20 := by cases r <;> decide

theorem slotOf_injective : Function.Injective slotOf := by
  intro r r' h
  cases r <;> cases r' <;> first | rfl | exact absurd h (by decide)

theorem popAll_getD {α : Type} {f : ℕ → α} {mem : α → ℕ} {sp n i : ℕ} (hi : i < n) :
    (popAll f mem sp n).getD i 0 = mem (f (sp+8*i)) := by
  induction n generalizing sp i with
  | zero => omega
  | succ n ih =>
    cases i with
    | zero => rfl
    | succ i =>
      rw [popAll,List.getD_cons_succ,ih (by omega),show sp+8+8*i = sp+8*(i+1) by omega]

theorem readFrame_apply (mem : Cell → ℕ) (cr3 sp : ℕ) (r : Reg) :
    readFrame mem cr3 sp r = mem (cell cr3 (sp+8*slotOf r)) := popAll_getD (slotOf_lt r)

theorem readFrame_store (mem : Cell → ℕ) (cr3 sp w : ℕ) (r : Reg) :
    readFrame (Function.update mem (cell cr3 (sp+8*slotOf r)) w) cr3 sp =
      Function.update (readFrame mem cr3 sp) r w := by
  funext r'
  rw [readFrame_apply]
  by_cases hr : r' = r
  · simp [hr]
  · have hne : cell cr3 (sp+8*slotOf r') ≠ cell cr3 (sp+8*slotOf r) := by
      intro he
      have ha := cell_injective cr3 he
      exact hr (slotOf_injective (by omega))
    rw [Function.update_of_ne hne,Function.update_of_ne hr,readFrame_apply]

theorem Sound.reframe (h : Sound L m) (hp : m.Used p) (hne : m.kernel.procCurrent ≠ some p)
    (hsched : ∃ ys, Scheduled m'.kernel ys) (hproc : m'.kernel.procCurrent = m.kernel.procCurrent)
    (hused : ∀ q, m'.Used q ↔ m.Used q)
    (hmem : ∀ x, (∀ b, m.top p-procStackSize ≤ b → b < m.top p → x ≠ cell m.cr3 b) → m'.mem x = m.mem x)
    (hother : ∀ q, q ≠ p → m'.pcb q = m.pcb q) (hrsp : (m'.pcb p).rsp = (m.pcb p).rsp)
    (hspace : (m'.pcb p).cr3 = (m.pcb p).cr3) (htop : m'.top p = m.top p)
    (howner : m'.slotOwner = m.slotOwner) (hregs : m'.regs = m.regs) (hcr3 : m'.cr3 = m.cr3)
    (hrsp0 : m'.rsp0 = m.rsp0) (hpre : m'.preempted = m.preempted) {word : ℕ → ℕ}
    (hstop : m'.stopped = Function.update m.stopped p (.tick (m'.frame p) word))
    (hcs : m'.frame p .cs = 0x33) (hrip : m'.frame p .rip < kernelBase) : Sound L m' := by
  have hsame : ∀ q, m'.top q = m.top q ∧ (m'.pcb q).cr3 = (m.pcb q).cr3 := by
    intro q
    by_cases hq : q = p
    · rw [hq]
      exact ⟨htop,hspace⟩
    · rw [Machine.top,hother q hq]
      exact ⟨rfl,rfl⟩
  refine ⟨hsched,h.placed.keep hused howner (fun q => (hsame q).1) fun q _ => (hsame q).2,
    fun c hc => ?_,fun c hc => ?_,fun c hc => ?_,fun q hq hqc => ?_⟩
  · rw [hrsp0,(hsame c).1]
    exact h.rsp0 c (hproc ▸ hc)
  · rw [hregs,(hsame c).1]
    exact h.fits c (hproc ▸ hc)
  · rw [hcr3,(hsame c).2,hpre]
    exact h.space c (hproc ▸ hc)
  · by_cases hqp : q = p
    · subst hqp
      have hparked := h.parked q hp hne
      refine ⟨fun i hi => ?_,Or.inl ⟨hcs,hrip⟩,?_⟩
      · rw [htop,hrsp]
        exact hparked.own i hi
      · simp only [Resumes,hstop,Function.update_self]
        refine ⟨trivial,fun hk => ?_⟩
        rw [hcs] at hk
        cases hk
    · -- the frame is on the kernel stack of `p`, which is nobody else's
      have hq' := (hused q).mp hq
      obtain ⟨slot,hs,ht⟩ := h.placed.stack p hp
      obtain ⟨slot',hs',ht'⟩ := h.placed.stack q hq'
      have hslot : slot' ≠ slot := by
        rintro rfl
        exact hqp (Option.some.inj (hs'.symm.trans hs))
      rw [hproc] at hqc
      refine (h.parked q hq' hqc).keep (hother q hqp) (by simp [hstop,hqp]) fun a ha => ?_
      refine hmem _ fun b hlow hhigh => ?_
      have hown : Owns (L.stackTop slot) p b := by
        rw [← ht]
        exact Or.inl ⟨hlow,hhigh⟩
      have hge := (stackTop_ge L slot).1
      rw [ht'] at ha
      refine owns_disjoint L hqp hslot ha hown fun hb => ?_
      rw [ht] at hlow
      simp only [bootStackTop,procStackSize] at hge hlow
      omega

theorem storeAll_other {cr3 : ℕ} {stores : List (ℕ × ℕ)} {mem : Cell → ℕ} {x : Cell}
    (h : ∀ s ∈ stores, x ≠ cell cr3 s.1) : storeAll cr3 stores mem x = mem x := by
  induction stores generalizing mem with
  | nil => rfl
  | cons s stores ih =>
    rw [storeAll,ih fun t ht => h t (List.mem_cons_of_mem s ht),
      Function.update_of_ne (h s List.mem_cons_self)]

theorem readFrame_frameStores (mem : Cell → ℕ) (cr3 rsp argc array entry : ℕ) :
    readFrame (storeAll cr3 (frameStores rsp argc array entry) mem) cr3 rsp =
      Function.update (Function.update (Function.update (readFrame mem cr3 rsp) .rdi argc) .rsi array)
        .rip entry := by
  rw [← readFrame_store,← readFrame_store,← readFrame_store]
  rfl

/-- The rip of the frame that is left. -/
def frameRip (site : Site) (entry : ℕ) : ℕ := if site = .sysExec then entry else userCodeBase

/-- What `process_create` has done when it returns `p`. -/
structure Born (L : Layout) (m made : Machine) (p slot : Slot) (xs : List Slot) (cr3 : ℕ) : Prop where
  sched : Scheduled m.kernel xs
  unused : m.kernel.state p = .unused
  off : p ∉ xs
  kernel : made.kernel = readyQueueAdd (created m.kernel p userCodeBase) p
  pcb : made.pcb p = ⟨fun r => if r = .rip then userCodeBase else 0,L.stackTop slot-160,cr3,L.stackTop slot⟩
  frame : made.frame p = initialFrame (L.stackTop slot) userStackTop userCodeBase 0 0
  stopped : ∀ q, q ≠ p → made.stopped q = m.stopped q

theorem Sound.born (h : Sound L m) (hn : newborn m userCodeBase = some p) (cr3 : ℕ) :
    ∃ slot xs, Born L m (Cpu.create L m userCodeBase 0 0 cr3) p slot xs cr3 := by
  obtain ⟨slot,hslot,hn⟩ := Option.bind_eq_some_iff.mp hn
  obtain ⟨xs,hsched⟩ := h.sched
  rcases create_ok hsched.queued userCodeBase with hnone | ⟨p',hu,hp,he⟩
  · rw [hnone] at hn
    cases hn
  · obtain rfl : p' = p := by
      rw [he] at hn
      exact Option.some.inj hn
    have hpcb : (Cpu.create L m userCodeBase 0 0 cr3).pcb p' =
        ⟨fun r => if r = .rip then userCodeBase else 0,L.stackTop slot-160,cr3,L.stackTop slot⟩ := by
      simp [Cpu.create,hslot,he]
    refine ⟨slot,xs,hsched,hu,hp,by simp [Cpu.create,hslot,he],hpcb,?_,fun q hq => ?_⟩
    · have hmem : (Cpu.create L m userCodeBase 0 0 cr3).mem = pushAll (cell m.cr3) m.mem (L.stackTop slot)
          (frameWords (initialFrame (L.stackTop slot) userStackTop userCodeBase 0 0)) := by
        simp [Cpu.create,hslot,he]
      exact initial_frame slot rfl m.mem userStackTop userCodeBase 0 0 hpcb hmem
    · simp [Cpu.create,hslot,he,hq]

theorem Scheduled.adopt {k : Kernel} {xs : List Slot} (h : Scheduled k xs) (hu : k.state p = .unused)
    (hp : p ∉ xs) {f : Pcb → Pcb} (hpid : ∀ c, (f c).pid = c.pid) (hstate : ∀ c, (f c).state = c.state)
    (kbd : ℕ) :
    Scheduled (readyQueueAdd { (loading k p).modify p f with kbd := kbd } p) (xs++[p]) := by
  obtain ⟨hrun,hidle⟩ := h.unused hu
  have hpids := h.pids
  have hmod := (h.queued.loading waiting_isReady hp).modify (p:=p) (f:=f) fun hm => absurd hm hp
  have hq : Queued IsReady { (loading k p).modify p f with kbd := kbd } xs :=
    ⟨hmod.queue,hmod.nodup,hmod.inserted,hmod.states⟩
  refine h.change (p:=p) (fun q hq => by simp [hq]) (by simp) (by simp) hrun hidle ?_
    (hq.add hp rfl (by simp [hstate])) (fun q hq => by simpa using hq) ?_
  · have hnew : (readyQueueAdd { (loading k p).modify p f with kbd := kbd } p).pid p = k.nextPid := by
      simp [hpid,hstate]
    omega
  · have hnext : (readyQueueAdd { (loading k p).modify p f with kbd := kbd } p).nextPid = k.nextPid+1 := by
      simp
    omega

/-- What is known of a program that was started and has not run: its frame is that of user code
at `rip`. -/
def Poised (m : Machine) (p : Slot) (rip : ℕ) : Prop :=
  ∃ regs word, m.stopped p = .tick regs word ∧ regs .cs = 0x33 ∧ regs .rip = rip

variable {l l' : Launcher} {made : Machine} {slot : Slot} {xs : List Slot} {cr3 : ℕ}

section

variable (hb : Born L m made p slot xs cr3)
include hb

theorem Born.live :
    made.Used p ∧ made.kernel.procCurrent = m.kernel.procCurrent ∧ made.kernel.procCurrent ≠ some p := by
  have hproc : made.kernel.procCurrent = m.kernel.procCurrent := by rw [hb.kernel]; simp
  refine ⟨by rw [Machine.Used,hb.kernel]; simp,hproc,?_⟩
  rw [hproc]
  exact (hb.sched.unused hb.unused).1

theorem Born.requeue (h : Sound L made) {f : Pcb → Pcb}
    (hpid : ∀ c, (f c).pid = c.pid) (hstate : ∀ c, (f c).state = c.state) (n : ℕ) (mem : Cell → ℕ)
    (saved : Saved) (hmem : ∀ x, (∀ b, made.top p-procStackSize ≤ b → b < made.top p → x ≠ cell made.cr3 b) →
      mem x = made.mem x) (hrsp : saved.rsp = (made.pcb p).rsp)
    (hspace : saved.cr3 = (made.pcb p).cr3) (htop : saved.kernelStackTop = (made.pcb p).kernelStackTop)
    (hcs : readFrame mem saved.cr3 saved.rsp .cs = 0x33)
    (hrip : readFrame mem saved.cr3 saved.rsp .rip < kernelBase) :
    Sound L { made with
      kernel := readyQueueAdd { (loading m.kernel p).modify p f with kbd := n } p
      mem := mem
      pcb := Function.update made.pcb p saved
      stopped := Function.update made.stopped p
        (.tick (readFrame mem saved.cr3 saved.rsp) fun _ => 0) } := by
  obtain ⟨hused,hproc,hne⟩ := hb.live
  refine h.reframe hused hne ⟨_,hb.sched.adopt hb.unused hb.off hpid hstate n⟩ ?_ (fun q => ?_) hmem
    (fun q hq => Function.update_of_ne hq _ _) ?_ ?_ ?_ rfl rfl rfl rfl rfl
    (?_ : _ = Function.update made.stopped p (.tick _ fun _ => 0)) ?_ ?_
  · rw [hproc]
    simp
  · rw [Machine.Used,Machine.Used,hb.kernel]
    by_cases hq : q = p
    · simp [hq,hstate]
    · simp [hq]
  · simpa using hrsp
  · simpa using hspace
  · simpa [Machine.top] using htop
  · simp [Machine.frame]
  · simpa [Machine.frame] using hcs
  · simpa [Machine.frame] using hrip

/-- Without a store to its frame, a program starts at `0x8000000000`. -/
theorem Born.unpatched (h : Sound L made) {f : Pcb → Pcb}
    (hpid : ∀ c, (f c).pid = c.pid) (hstate : ∀ c, (f c).state = c.state) (n : ℕ) :
    made.frame p .cs = 0x33 ∧ made.frame p .rip = userCodeBase ∧ Sound L { made with
      kernel := readyQueueAdd { (loading m.kernel p).modify p f with kbd := n } p
      stopped := Function.update made.stopped p (.tick (made.frame p) fun _ => 0) } := by
  have huser : userCodeBase < kernelBase := by decide
  have hcs : made.frame p .cs = 0x33 := by
    rw [hb.frame]
    simp [initialFrame,huser]
  have hrip : made.frame p .rip = userCodeBase := by
    rw [hb.frame]
    simp [initialFrame,huser]
  have hsound := hb.requeue h hpid hstate n made.mem (made.pcb p) (fun _ _ => rfl) rfl rfl
    rfl hcs (hrip.trans_lt huser)
  rw [Function.update_eq_self] at hsound
  exact ⟨hcs,hrip,hsound⟩

/-- After the load, the frame says where the program starts, in all four places. -/
theorem adopt_sound (h : Sound L made) (parent : ℕ) {site : Site}
    {entry : ℕ} (hentry : site = .sysExec → entry < kernelBase) (argc array : ℕ) :
    Sound L (adopt made p parent site entry argc array) ∧
      Poised (adopt made p parent site entry argc array) p (frameRip site entry) := by
  have hload : readyQueueRemove made.kernel p = loading m.kernel p := by rw [hb.kernel,loading]
  cases site with
  | sysExec =>
    have hstack : (made.pcb p).rsp = made.top p-160 ∧ made.top p = L.stackTop slot := by
      rw [Machine.top,hb.pcb]
      exact ⟨rfl,rfl⟩
    have hge := stackTop_ge L slot
    rw [← hstack.2] at hge
    simp only [procStackSize,bootStackTop] at hge
    have hread : ∀ mem, readFrame mem (made.pcb p).cr3 (made.pcb p).rsp =
        readFrame mem made.cr3 (made.pcb p).rsp := fun mem => readFrame_congr fun i _ => by
      rw [cell_kernel (by omega) (made.pcb p).cr3 made.cr3]
    have hframe : readFrame (storeAll made.cr3 (frameStores (made.pcb p).rsp argc array entry) made.mem)
        (made.pcb p).cr3 (made.pcb p).rsp =
        Function.update (Function.update (Function.update (made.frame p) .rdi argc) .rsi array) .rip entry := by
      rw [hread,readFrame_frameStores,Machine.frame,hread]
    have hcs : made.frame p .cs = 0x33 := by
      rw [hb.frame]
      simp [initialFrame,show userCodeBase < kernelBase by decide]
    simp only [adopt,hload,Function.update_self]
    refine ⟨hb.requeue h (f:=fun c => { c with entryPoint := entry, parentPid := parent }) (fun _ => rfl)
      (fun _ => rfl) 0 (storeAll made.cr3 (frameStores (made.pcb p).rsp argc array entry) made.mem)
      { made.pcb p with regs := Function.update (made.pcb p).regs .rip entry }
      (fun x hx => storeAll_other fun s hs => ?_) rfl rfl rfl ?_ ?_,?_⟩
    · simp only [frameStores,List.mem_cons,List.not_mem_nil,or_false] at hs
      rcases hs with rfl | rfl | rfl <;> exact hx _ (by simp only [procStackSize]; omega) (by omega)
    · rw [hframe]
      simpa using hcs
    · rw [hframe]
      simpa using hentry rfl
    · rw [hframe]
      exact ⟨_,_,Function.update_self ..,by simpa using hcs,by simp [frameRip]⟩
  | bootShell =>
    simp only [adopt,hload]
    obtain ⟨hcs,hrip,hsound⟩ := hb.unpatched h (f:=fun c => { c with entryPoint := entry }) (fun _ => rfl)
      (fun _ => rfl) (loading m.kernel p).kbd
    exact ⟨hsound,made.frame p,_,Function.update_self ..,hcs,by simpa [frameRip] using hrip⟩
  | usershell | elfload =>
    simp only [adopt,hload]
    obtain ⟨hcs,hrip,hsound⟩ := hb.unpatched h (f:=fun c => { c with entryPoint := entry }) (fun _ => rfl)
      (fun _ => rfl) 0
    exact ⟨hsound,made.frame p,_,Function.update_self ..,hcs,by simpa [frameRip] using hrip⟩

end

theorem adopt_stopped (m : Machine) (p : Slot) (parent : ℕ) (site : Site) (entry argc array : ℕ) {q : Slot}
    (hq : q ≠ p) : (adopt m p parent site entry argc array).stopped q = m.stopped q := by
  cases site <;> simp [adopt,hq]

theorem adopt_procCurrent (m : Machine) (p : Slot) (parent : ℕ) (site : Site) (entry argc array : ℕ) :
    (adopt m p parent site entry argc array).kernel.procCurrent = m.kernel.procCurrent := by
  cases site <;> simp [adopt]

/-! ## Programs that wait to be dispatched -/

/-- `process_create` does not switch, and leaves the record of every process but its own. -/
theorem create_stays (h : Sound L m) (entry rdi rsi cr3 : ℕ) :
    (create L m entry rdi rsi cr3).kernel.procCurrent = m.kernel.procCurrent ∧
      ∀ q, newborn m entry ≠ some q → (create L m entry rdi rsi cr3).stopped q = m.stopped q := by
  obtain ⟨xs,hsched⟩ := h.sched
  cases hs : kernelStackSlotAlloc m with
  | none =>
    rcases create_noKernelStack hsched.queued entry with he | ⟨p,hu,hp,he⟩ <;>
      simp [create,hs,he]
  | some slot =>
    rcases create_ok hsched.queued entry with hnone | ⟨p,hu,hp,he⟩
    · generalize hr : processCreate m.kernel entry .ok = r at hnone
      obtain ⟨r₁,k⟩ := r
      obtain rfl : r₁ = none := hnone
      simp [create,hs,hr]
    · refine ⟨by simp [create,hs,he],fun q hq => ?_⟩
      have hqp : q ≠ p := by
        rintro rfl
        exact hq (by simp [newborn,hs,he])
      simp [create,hs,he,hqp]

theorem contextSwitch_stopped {prev next q : Slot} (hs : contextSwitch m prev next = some m') (hq : q ≠ prev) :
    m'.stopped q = m.stopped q := by
  simp only [contextSwitch] at hs
  split at hs <;> cases hs
  simp [saving,hq]

theorem handler_stopped (m : Machine) (userMode : Bool) (sp : ℕ) :
    (timerPreemptHandler m userMode sp).1.stopped = m.stopped := by
  unfold timerPreemptHandler
  split
  · rfl
  · split_ifs
    · rfl
    · rfl
    · simp only [saveFrame]
      split <;> rfl

/-- A step leaves the record of a process that is neither running nor handed out. -/
theorem step_stopped (h : Sound L m) {e : Event} (hs : m.step L e = some m') {q : Slot}
    (hq : m.kernel.procCurrent ≠ some q) (ho : handedOut m e ≠ some q) : m'.stopped q = m.stopped q := by
  simp only [Machine.step,Option.bind_eq_some_iff] at hs
  obtain ⟨c,hc,hs⟩ := hs
  have hqc : q ≠ c := fun he => hq (he ▸ hc)
  cases e with
  | run regs stores parts =>
    simp only at hs
    split at hs <;> cases hs
    rfl
  | tick scratch =>
    simp only at hs
    split at hs <;> cases hs
    simp [irq0Stub,handler_stopped,interrupted,hc,hqc]
  | block target =>
    simp only [block] at hs
    split at hs
    · split at hs
      · cases hs
      · split at hs
        · cases hs
          rfl
        · have hstop := contextSwitch_stopped hs hqc
          exact hstop
    · cases hs
  | wake p =>
    simp only at hs
    split at hs <;> cases hs
    rfl
  | create entry rdi rsi cr3 =>
    simp only at hs
    split at hs <;> cases hs
    exact (create_stays h entry rdi rsi cr3).2 q ho

theorem step_procCurrent (h : Sound L m) {e : Event} (hs : m.step L e = some m') (he : e.switches = false) :
    m'.kernel.procCurrent = m.kernel.procCurrent := by
  simp only [Machine.step,Option.bind_eq_some_iff] at hs
  obtain ⟨c,hc,hs⟩ := hs
  cases e with
  | run regs stores parts =>
    simp only at hs
    split at hs <;> cases hs
    rfl
  | wake p =>
    simp only at hs
    split at hs <;> cases hs
    simp [wake]
  | create entry rdi rsi cr3 =>
    simp only at hs
    split at hs <;> cases hs
    exact (create_stays h entry rdi rsi cr3).1
  | tick | block => cases he

theorem Sound.spawned (h : Sound L m) (parent : ℕ) {site : Site} {entry : ℕ}
    (hentry : site = .sysExec → entry < kernelBase) (argc array : ℕ) {cr3 : ℕ}
    (hcr3 : ∀ q, m.Used q → (m.pcb q).cr3 ≠ cr3) :
    Sound L (spawn L m parent site entry argc array cr3) ∧
      (spawn L m parent site entry argc array cr3).kernel.procCurrent = m.kernel.procCurrent ∧
      (∀ p, newborn m userCodeBase = some p → m.kernel.procCurrent ≠ some p ∧
        Poised (spawn L m parent site entry argc array cr3) p (frameRip site entry)) ∧
      ∀ q, newborn m userCodeBase ≠ some q →
        (spawn L m parent site entry argc array cr3).stopped q = m.stopped q := by
  have hmade : Sound L (Cpu.create L m userCodeBase 0 0 cr3) := h.create hcr3
  obtain ⟨hproc,hstop⟩ := create_stays h userCodeBase 0 0 cr3
  cases hn : newborn m userCodeBase with
  | none =>
    simp only [spawn,hn]
    exact ⟨hmade,hproc,by simp,fun q _ => hstop q (by simp [hn])⟩
  | some p =>
    obtain ⟨slot,xs,hb⟩ := h.born hn cr3
    obtain ⟨hsound,hpoised⟩ := adopt_sound hb hmade parent hentry argc array
    simp only [spawn,hn]
    refine ⟨hsound,(adopt_procCurrent ..).trans hproc,fun q hq => ?_,fun q hq => ?_⟩
    · obtain rfl := Option.some.inj hq
      exact ⟨hproc ▸ hb.live.2.2,hpoised⟩
    · have hqp : q ≠ p := fun he => hq (by rw [he])
      rw [adopt_stopped _ _ _ _ _ _ _ hqp]
      exact hstop q (by rw [hn]; exact hq)

theorem Scheduled.switchTo {k : Kernel} {c : Slot} (h : Scheduled k xs) (hc : k.procCurrent = some c)
    (hc1 : k.pid c ≠ 1) (hp : k.state p = .ready) (hpc : p ≠ c) :
    Yielded k (schedulerSwitchTo (k.setState c .blocked) p) c p := by
  have hoff := (h.off hc).1
  have hcur : (k.setState c .blocked).current ≠ some p := by
    rw [show (k.setState c .blocked).current = some c from h.same.trans hc]
    exact fun he => hpc (Option.some.inj he).symm
  have hq : Queued IsReady (k.setState c .blocked) xs := h.queued.modify fun hm => absurd hm hoff
  have hnoIdle : ∀ q ∈ xs, (k.setState c .blocked).pid q ≠ 1 := by
    intro q hm
    have hqc : q ≠ c := fun he => hoff (he ▸ hm)
    simpa [hqc] using h.noIdle q hm
  have hswitch := dispatch_switched hq hnoIdle hcur
  have hk : schedulerSwitchTo (k.setState c .blocked) p = dispatch (k.setState c .blocked) p := by
    rw [schedulerSwitchTo,if_neg hcur,if_neg (by simp [h.same.trans hc])]
  rw [hk]
  refine h.yielded hc hc1 hswitch hpc (by rw [hp]; decide) (fun q hq => ?_) ?_ ?_ rfl
  · simp [hq]
  · simp
  · simp

/-- What holds along every run: a program that waits to be dispatched has the frame of its place. -/
structure Launched (L : Layout) (l : Launcher) : Prop where
  sound : Sound L l.machine
  waits : ∀ p site entry, l.pending p = some (site,entry) →
    l.machine.kernel.procCurrent ≠ some p ∧ Poised l.machine p (frameRip site entry)

theorem Sound.switchTo (h : Sound L m) {c : Slot} (hc : m.kernel.procCurrent = some c)
    (hc1 : m.kernel.pid c ≠ 1) (hk : m.regs .cs = 0x18) (hrip : kernelBase ≤ (m.pcb c).regs .rip)
    (hp : m.kernel.state p = .ready) (hpc : p ≠ c) (hs : Cpu.switchTo m c p = some m') :
    Sound L m' ∧ ∀ q, m'.kernel.procCurrent = some q → Resumes m' q m'.regs := by
  obtain ⟨xs,hsched⟩ := h.sched
  exact h.contextSwitch hc (h.root hc hc1) hk (hsched.switchTo hc hc1 hp hpc) (Or.inr hrip) hs

/-- A program that waits stays in its frame until it runs. -/
theorem Launched.after (h : Launched L l) {m' : Machine} {out : Option Slot} (hs : Sound L m')
    (hstop : ∀ q, l.machine.kernel.procCurrent ≠ some q → out ≠ some q → m'.stopped q = l.machine.stopped q) :
    Launched L (l.after m' out) := by
  refine ⟨hs,fun p site entry hp => ?_⟩
  simp only [Launcher.after] at hp
  split at hp
  · cases hp
  · rename_i hne
    obtain ⟨hrun,hout⟩ := not_or.mp hne
    obtain ⟨hnot,regs,word,hpoised⟩ := h.waits p site entry hp
    exact ⟨hrun,regs,word,(hstop p hnot hout).trans hpoised.1,hpoised.2⟩

theorem Launched.other (h : Launched L l) {self : Slot} (hself : l.machine.kernel.procCurrent = some self)
    {f : Site × ℕ → Bool} (hp : (l.pending p).any f = true) : p ≠ self := by
  rintro rfl
  cases hw : l.pending p with
  | none => simp [hw] at hp
  | some s => exact (h.waits p s.1 s.2 hw).1 hself

theorem Launched.step (h : Launched L l) {e : LaunchEvent} (hs : l.step L e = some l') : Launched L l' := by
  cases e with
  | cpu e =>
    obtain ⟨m',hm,rfl⟩ := Option.map_eq_some_iff.mp hs
    exact h.after (h.sound.step hm) fun q => step_stopped h.sound hm
  | spawn site entry argc array cr3 =>
    obtain ⟨self,hself,hs⟩ := Option.bind_eq_some_iff.mp hs
    split at hs <;> cases hs
    rename_i hok
    obtain ⟨hsound,hproc,hnew,hold⟩ := h.sound.spawned (l.machine.kernel.pid self) hok.2.1 argc array hok.2.2
    refine ⟨hsound,fun p site' entry' hp => ?_⟩
    simp only at hp
    rw [hproc]
    split at hp
    · rename_i hn
      cases hp
      exact hnew p hn
    · rename_i hn
      obtain ⟨hnot,regs,word,hpoised⟩ := h.waits p site' entry' hp
      exact ⟨hnot,regs,word,(hold p hn).trans hpoised.1,hpoised.2⟩
  | switchTo p =>
    obtain ⟨self,hself,hs⟩ := Option.bind_eq_some_iff.mp hs
    split at hs
    · rename_i hok
      obtain ⟨m',hm,rfl⟩ := Option.map_eq_some_iff.mp hs
      obtain ⟨hpid,hcs,hrip,hready,hpend⟩ := hok
      refine h.after (h.sound.switchTo hself hpid hcs hrip hready (h.other hself hpend) hm).1 fun q hq _ => ?_
      have hstop := contextSwitch_stopped (q:=q) hm (fun he => hq (he ▸ hself))
      exact hstop
    · cases hs

theorem launched_boot (L : Layout) (mem : Cell → ℕ) (parts : Part → ℕ) (cr3 idleCr3 : ℕ) :
    Launched L (.boot L mem parts cr3 idleCr3) :=
  ⟨boot_sound L mem parts cr3 idleCr3,fun p site entry hp => by cases hp⟩

theorem run_launched {mem : Cell → ℕ} {parts : Part → ℕ} {cr3 idleCr3 : ℕ} {es : List LaunchEvent}
    (hr : run (Launcher.step L) (.boot L mem parts cr3 idleCr3) es = some l) : Launched L l :=
  run_keeps (Launched L) (fun _ _ _ h hs => h.step hs) (launched_boot L mem parts cr3 idleCr3) hr

/-- The step that makes a program run resumes it from the frame in which it has waited. -/
theorem Launched.dispatched (h : Launched L l) {e : LaunchEvent} (hs : l.step L e = some l')
    (hp : l'.machine.kernel.procCurrent = some p) (hne : l.machine.kernel.procCurrent ≠ some p) :
    Resumes l'.machine p l'.machine.regs ∧ l'.machine.stopped p = l.machine.stopped p := by
  cases e with
  | cpu e =>
    obtain ⟨m',hm,rfl⟩ := Option.map_eq_some_iff.mp hs
    cases he : e.switches with
    | false => exact absurd ((step_procCurrent h.sound hm he).symm.trans hp) hne
    | true =>
      have hout : handedOut l.machine e ≠ some p := by
        cases e with
        | tick | block => simp [handedOut]
        | _ => cases he
      exact ⟨h.sound.switched he hm p hp,step_stopped h.sound hm hne hout⟩
  | spawn site entry argc array cr3 =>
    obtain ⟨self,hself,hs⟩ := Option.bind_eq_some_iff.mp hs
    split at hs <;> cases hs
    rename_i hok
    have hproc := (h.sound.spawned (l.machine.kernel.pid self) hok.2.1 argc array hok.2.2).2.1
    exact absurd (hproc.symm.trans hp) hne
  | switchTo q =>
    obtain ⟨self,hself,hs⟩ := Option.bind_eq_some_iff.mp hs
    split at hs
    · rename_i hok
      obtain ⟨m',hm,rfl⟩ := Option.map_eq_some_iff.mp hs
      obtain ⟨hpid,hcs,hrip,hready,hpend⟩ := hok
      have hstop := contextSwitch_stopped (q:=p) hm (fun he => hne (he ▸ hself))
      exact ⟨(h.sound.switchTo hself hpid hcs hrip hready (h.other hself hpend) hm).2 p hp,hstop⟩
    · cases hs

end Cpu
end DonsOs
