import DonsOs.Drivers.Keyboard
import DonsOs.Sched.Mild

/-! Waiting for a key: `sys_read` on descriptor 0 against the keyboard interrupt.
The call looks into the ring and goes to sleep with interrupts off, and `sti; hlt` lets none in
before the processor has stopped.  Interrupts are taken between any two other steps; a tick may
switch to another process, which then goes on where it was interrupted. -/
namespace DonsOs
namespace Sched

open Run Drivers

/-- Where a process stands in `sys_read`, with the bytes it still wants. -/
inductive ReadPc where
  | out
  | loop (n : ℕ)
  | fetch (n : ℕ)
  | got (n : ℕ) (c : Char)
  | copy (n : ℕ) (c : Char)
  | empty (n : ℕ)
  | mark (n : ℕ)
  | arm (n : ℕ)
  | hlt (n : ℕ)
deriving DecidableEq

/-- Between `cli` and `sti`. -/
def ReadPc.masked : ReadPc → Bool
  | .fetch _ | .got _ _ | .empty _ | .mark _ | .arm _ => true
  | .out | .loop _ | .copy _ _ | .hlt _ => false

/-- An interrupt ends a `hlt`. -/
def ReadPc.wake : ReadPc → ReadPc
  | .hlt n => .loop n
  | pc => pc

theorem wake_masked (pc : ReadPc) : pc.wake.masked = pc.masked := by cases pc <;> rfl

theorem wake_ne_hlt (pc : ReadPc) (n : ℕ) : pc.wake ≠ .hlt n := by cases pc <;> simp [ReadPc.wake]

structure Readers where
  kernel : Kernel
  kb : Keyboard
  pc : Slot → ReadPc

/-- `sched` is a step of a process outside `sys_read`; `copied` says whether
`safe_copy_to_user` went through. -/
inductive ReadEvent where
  | key (status sc : BitVec 8)
  | tick (userMode : Bool)
  | flush
  | read (count : ℕ)
  | advance (copied : Bool)
  | sched (e : Event)

/-- The current process is where an interrupt can be taken. -/
def Readers.enabled (w : Readers) : Bool := w.kernel.procCurrent.all fun c => !(w.pc c).masked

/-- The current process is not in `sys_read`. -/
def Readers.free (w : Readers) : Bool := w.kernel.procCurrent.all fun c => w.pc c = .out

/-- Whoever is current goes on. -/
def Readers.resume (w : Readers) : Readers :=
  match w.kernel.procCurrent with
  | none => w
  | some c => { w with pc := Function.update w.pc c (w.pc c).wake }

/-- `irq1_handler`: a character that finds no room is dropped, and still wakes. -/
def Readers.key (w : Readers) (status sc : BitVec 8) : Readers :=
  match decodeKey w.kb status sc with
  | (none,kb) => { w with kb := kb }
  | (some c,kb) =>
    { w with
      kb := { kb with ring := (kbdBufferPut kb.ring c).2 }
      kernel := processWakeAllBlocked w.kernel }

def Readers.goto (w : Readers) (self : Slot) (pc : ReadPc) : Readers :=
  { w with pc := Function.update w.pc self pc }

/-- The next step of the current process in `sys_read`. -/
def Readers.advance (w : Readers) (self : Slot) (copied : Bool) : Option Readers :=
  match w.pc self with
  | .out => none
  | .loop 0 => some (w.goto self .out)
  | .loop (n+1) => some (w.goto self (.fetch (n+1)))
  | .fetch n =>
    match kbdBufferGet w.kb.ring with
    | (some c,ring) => some ({ w with kb := { w.kb with ring := ring } }.goto self (.got n c))
    | (none,_) => some (w.goto self (.empty n))
  | .got n c => some (w.goto self (.copy n c))
  | .copy n _ => some (w.goto self (if copied then .loop (n-1) else .out))
  | .empty n =>
    if w.kernel.pid self = 1 then some (w.goto self (.hlt n))
    else some ({ w with kernel := w.kernel.setState self .blocked }.goto self (.mark n))
  | .mark n =>
    some ({ w with kernel := w.kernel.modify self fun c => { c with blockKind := .none } }.goto
      self (.arm n))
  | .arm n => some (w.goto self (.hlt n))
  | .hlt _ => none

/-- Whether `sys_exec` gets as far as its `keyboard_buffer_flush`. -/
def execFlushes (k : Kernel) : Event → Bool
  | .exec alloc (some _) => (processCreate k userCodeBase alloc).1.isSome
  | _ => false

/-- The events that have no constructor of their own here. -/
def Event.plain : Event → Bool
  | .tick _ | .key | .read => false
  | .create _ _ | .exec _ _ | .waitpid _ _ | .yield | .exit | .switchTo _ | .block => true

/-- One step.  All of `sys_read` is kernel code, so a tick in it comes from kernel mode. -/
def Readers.step (w : Readers) (e : ReadEvent) : Option Readers :=
  if w.kernel.halted then none else
  match e with
  | .key status sc => if w.enabled then some (w.key status sc).resume else none
  | .tick userMode =>
    if w.enabled ∧ (userMode → w.free) then
      some { w with kernel := timerPreemptHandler w.kernel userMode }.resume
    else none
  | .flush =>
    if w.free then some { w with kb := { w.kb with ring := keyboardBufferFlush w.kb.ring } }
    else none
  | .read count => w.kernel.procCurrent.bind fun self =>
      if w.pc self = .out ∧ w.kernel.kernelShell ≠ some self ∧ count ≠ 0 then
        some (w.goto self (.loop count))
      else none
  | .advance copied => w.kernel.procCurrent.bind fun self => w.advance self copied
  | .sched e =>
    if w.free ∧ e.plain then
      (w.kernel.step e).map fun k => Readers.resume
        { w with
          kernel := k
          kb := if execFlushes w.kernel e then
            { w.kb with ring := keyboardBufferFlush w.kb.ring } else w.kb }
    else none

def Readers.boot (shell : Option Slot) : Readers := ⟨Sched.boot shell,keyboardInit,fun _ => .out⟩

/-! What other processes do to a sleeper. -/

/-- A process asleep after a change is one that was asleep before it, for the same reason. -/
def StaysAsleep (c c' : Pcb) : Prop :=
  c'.state = .blocked → c.state = .blocked ∧ c'.blockKind = c.blockKind ∧ c'.pid = c.pid

theorem staysAsleep_mild : Mild StaysAsleep where
  refl _ := fun h => ⟨h,rfl,rfl⟩
  trans h h' := fun hb => by
    obtain ⟨hb,hk,hp⟩ := h' hb
    obtain ⟨hb,hk',hp'⟩ := h hb
    exact ⟨hb,hk.trans hk',hp.trans hp'⟩
  state _ _ hs := fun h => absurd h hs
  wake _ := fun h => by cases h
  free _ := fun h => by cases h
  prepare _ _ := fun h => by cases h
  adopt _ _ _ := fun h => ⟨h,rfl,rfl⟩

variable {k k' : Kernel} {w w' : Readers} {p self : Slot}

theorem initialize_staysAsleep (k : Kernel) (p : Slot) :
    Keeps StaysAsleep k (processInitializePcb k p) := by
  refine ⟨Nat.le_succ _,rfl,fun q => ?_⟩
  by_cases hq : q = p
  · subst hq
    intro hb
    simp [processInitializePcb] at hb
  · have he : (processInitializePcb k p).pool q = k.pool q := by simp [processInitializePcb,hq]
    rw [he]
    exact staysAsleep_mild.refl _

theorem create_staysAsleep (k : Kernel) (entry : ℕ) (alloc : Alloc) :
    Keeps StaysAsleep k (processCreate k entry alloc).2 := by
  rcases create_keeps staysAsleep_mild k entry alloc with he | ⟨p,hk⟩
  · rw [he]
    exact .refl staysAsleep_mild k
  · exact (initialize_staysAsleep k p).trans staysAsleep_mild hk

/-- Only the process that makes the step can put itself to sleep, and idle never does. -/
theorem step_staysAsleep {e : Event} (he : e.plain) (hs : k.step e = some k') :
    k'.kernelShell = k.kernelShell ∧ ∀ p, StaysAsleep (k.pool p) (k'.pool p) ∨
      k.procCurrent = some p ∧ k'.pid p ≠ 1 := by
  have hkeep : ∀ {k'}, Keeps StaysAsleep k k' → k'.kernelShell = k.kernelShell ∧
      ∀ p, StaysAsleep (k.pool p) (k'.pool p) ∨ k.procCurrent = some p ∧ k'.pid p ≠ 1 :=
    fun h => ⟨h.kernelShell,fun p => Or.inl (h.pool p)⟩
  simp only [Kernel.step] at hs
  split at hs
  · cases hs
  cases e with
  | tick u => cases he
  | key => cases he
  | read => cases he
  | create entry alloc => cases hs; exact hkeep (create_staysAsleep k entry alloc)
  | exec alloc loaded =>
    obtain ⟨self,-,-,rfl⟩ := syscall_some hs
    exact hkeep ((create_staysAsleep k userCodeBase alloc).trans staysAsleep_mild
      (exec_keeps staysAsleep_mild k self alloc loaded))
  | waitpid pid nohang =>
    obtain ⟨self,hself,hsys,rfl⟩ := syscall_some hs
    rw [sysWaitpid]
    rcases waitScan_cases k self pid nohang with he | ⟨z,-,he⟩ | ⟨-,he⟩ <;> rw [he]
    · exact hkeep (.refl staysAsleep_mild k)
    · exact hkeep (keeps_reclaim staysAsleep_mild z)
    · have hy := keeps_yield staysAsleep_mild (k.modify self fun c =>
        { c with state := .blocked, blockKind := .waitpid, waitPid := waitTarget pid })
      dsimp only
      generalize processYield _ = k₁ at hy ⊢
      refine ⟨hy.kernelShell,fun p => ?_⟩
      have hyp := hy.pool p
      by_cases hps : p = self
      · subst hps
        rw [modify_pool,if_pos rfl] at hyp
        by_cases hb : (k₁.pool p).state = .blocked
        · have hpid := (hyp hb).2.2
          exact Or.inr ⟨hself,fun h => hsys.1 (hpid.symm.trans h)⟩
        · exact Or.inl fun h => absurd h hb
      · rw [modify_pool,if_neg hps] at hyp
        exact Or.inl hyp
  | yield => cases hs; exact hkeep (keeps_yield staysAsleep_mild k)
  | exit => cases hs; exact hkeep (keeps_exit staysAsleep_mild k)
  | switchTo next => cases hs; exact hkeep (keeps_switchTo staysAsleep_mild next)
  | block =>
    obtain ⟨self,hself,hsys,rfl⟩ := block_some hs
    refine ⟨rfl,fun p => ?_⟩
    by_cases hps : p = self
    · subst hps
      exact Or.inr ⟨hself,by simpa using hsys⟩
    · exact Or.inl (by simpa [hps] using staysAsleep_mild.refl (k.pool p))

/-- A key leaves nobody asleep for input but the kernel shell. -/
theorem wakeAll_awake (hb : (processWakeAllBlocked k).state p = .blocked) :
    k.kernelShell = some p ∨ (k.pool p).blockKind ≠ .none := by
  have hall : ∀ (is : List Slot) (k : Kernel), p ∈ is → (is.foldl wakeBlocked k).state p = .blocked →
      k.kernelShell = some p ∨ (k.pool p).blockKind ≠ .none := by
    intro is
    induction is with
    | nil => intro k hp; simp at hp
    | cons i is ih =>
      intro k hp hb
      have hrest := (keeps_wake staysAsleep_mild is (wakeBlocked k i)).pool p hb
      have hfirst := (keeps_wakeBlocked (k:=k) staysAsleep_mild i)
      obtain ⟨hbk,hkind,-⟩ := hfirst.pool p hrest.1
      rcases List.mem_cons.1 hp with rfl | hp
      · by_contra hno
        rw [not_or,not_not] at hno
        have hwoken : (wakeBlocked k p).state p ≠ .blocked := by
          rw [wakeBlocked,if_neg (fun h => hno.1 h.symm),if_pos ⟨hbk,hno.2⟩]
          simp
        exact hwoken hrest.1
      · have := ih (wakeBlocked k i) hp hb
        rwa [hfirst.kernelShell,hkind] at this
  exact hall _ k (List.mem_finRange p) hb

/-! The invariant. -/

/-- What is known of a process at each point of `sys_read`. -/
def ReadStage (w : Readers) (p : Slot) : ReadPc → Prop
  | .out | .loop _ | .fetch _ | .got _ _ | .copy _ _ => True
  | .empty _ => w.kb.ring.Empty
  | .mark _ => w.kb.ring.Empty ∧ w.kernel.state p = .blocked
  | .arm _ => w.kb.ring.Empty ∧ (w.kernel.pool p).blockKind = .none
  | .hlt _ => w.kernel.state p = .blocked → w.kb.ring.Empty ∧ (w.kernel.pool p).blockKind = .none

structure ReadInv (w : Readers) : Prop where
  shell : ∀ p, w.pc p ≠ .out → w.kernel.kernelShell ≠ some p
  idle : ∀ p, w.kernel.state p = .blocked → w.kernel.pid p ≠ 1
  alone : ∀ p, (w.pc p).masked → w.kernel.procCurrent = some p
  stage : ∀ p, ReadStage w p (w.pc p)

theorem ReadInv.unmasked (h : ReadInv w) (he : w.enabled) (p : Slot) : (w.pc p).masked = false := by
  by_contra hp
  have hp' : (w.pc p).masked = true := by simpa using hp
  simp [Readers.enabled,h.alone p hp',hp'] at he

theorem Readers.enabled_of_free (hf : w.free) : w.enabled := by
  cases hc : w.kernel.procCurrent with
  | none => simp [Readers.enabled,hc]
  | some c =>
    simp only [Readers.free,hc,Option.all_some,decide_eq_true_eq] at hf
    simp [Readers.enabled,hc,hf,ReadPc.masked]

theorem readStage_unmasked {pc : ReadPc} (hm : pc.masked = false)
    (hhlt : ∀ n, pc = .hlt n → ReadStage w p (.hlt n)) : ReadStage w p pc := by
  cases pc with
  | hlt n => exact hhlt n rfl
  | out => trivial
  | loop n => trivial
  | copy n c => trivial
  | fetch n => trivial
  | got n c => trivial
  | empty n => cases hm
  | mark n => cases hm
  | arm n => cases hm

section

variable (h : ReadInv w)
include h

theorem ReadInv.change (he : w.enabled) {kb : Keyboard}
    (hshell : k'.kernelShell = w.kernel.kernelShell)
    (hidle : ∀ p, k'.state p = .blocked → k'.pid p ≠ 1)
    (hhlt : ∀ p n, w.pc p = .hlt n → ReadStage ⟨k',kb,w.pc⟩ p (.hlt n)) :
    ReadInv ⟨k',kb,w.pc⟩ where
  shell p hp := by
    rw [hshell]
    exact h.shell p hp
  idle := hidle
  alone p hp := by
    have hno := h.unmasked he p
    exact absurd hp (by simp [hno])
  stage p := readStage_unmasked (h.unmasked he p) (hhlt p)

theorem ReadInv.goto (hself : w.kernel.procCurrent = some self) {kb : Keyboard}
    {pc : ReadPc} (hout : pc ≠ .out → w.kernel.kernelShell ≠ some self)
    (hshell : k'.kernelShell = w.kernel.kernelShell) (hcur : k'.procCurrent = w.kernel.procCurrent)
    (hidle : ∀ p, k'.state p = .blocked → k'.pid p ≠ 1)
    (hst : ReadStage ⟨k',kb,w.pc⟩ self pc)
    (hothers : ∀ p, p ≠ self → ∀ n, w.pc p = .hlt n → ReadStage ⟨k',kb,w.pc⟩ p (.hlt n)) :
    ReadInv (Readers.goto ⟨k',kb,w.pc⟩ self pc) where
  shell p hp := by
    simp only [Readers.goto,hshell] at hp ⊢
    by_cases hps : p = self
    · subst hps
      exact hout (by simpa using hp)
    · exact h.shell p (by simpa [hps] using hp)
  idle := hidle
  alone p hp := by
    simp only [Readers.goto,hcur] at hp ⊢
    by_cases hps : p = self
    · rw [hps,hself]
    · exact h.alone p (by simpa [hps] using hp)
  stage p := by
    by_cases hps : p = self
    · subst hps
      simp only [Readers.goto,Function.update_self]
      cases pc <;> exact hst
    · have hpc : (Readers.goto ⟨k',kb,w.pc⟩ self pc).pc p = w.pc p := by simp [Readers.goto,hps]
      rw [hpc]
      have halone := h.alone p
      rw [hself] at halone
      have hnm : (w.pc p).masked = false := by
        by_contra hm
        exact hps (Option.some.inj (halone (by simpa using hm))).symm
      exact readStage_unmasked hnm (hothers p hps)

theorem ReadInv.resume (hm : ∀ p, (w.pc p).masked = false) : ReadInv w.resume := by
  unfold Readers.resume
  split
  · exact h
  · rename_i c hc
    refine h.goto hc (fun hout => h.shell c fun he => hout (by rw [he]; rfl)) rfl rfl h.idle ?_
      fun p _ n hp => by simpa only [hp] using h.stage p
    exact readStage_unmasked ((wake_masked _).trans (hm c)) fun n hn => absurd hn (wake_ne_hlt _ n)

/-- Whoever has not been put to sleep by the change. -/
theorem ReadInv.idle_awake
    (hpool : ∀ p, StaysAsleep (w.kernel.pool p) (k'.pool p) ∨ k'.pid p ≠ 1) (p : Slot)
    (hb : k'.state p = .blocked) : k'.pid p ≠ 1 := by
  rcases hpool p with hp | hp
  · obtain ⟨hb',-,hpid⟩ := hp hb
    rw [Kernel.pid,hpid]
    exact h.idle p hb'
  · exact hp

theorem ReadInv.key (he : w.enabled) (status sc : BitVec 8) : ReadInv (w.key status sc).resume := by
  unfold Readers.key
  split
  · rename_i kb hd
    have hring : kb.ring = w.kb.ring := by rw [← decodeKey_ring w.kb status sc,hd]
    refine ReadInv.resume (h.change he rfl h.idle fun p n hp hb => ?_) (h.unmasked he)
    have hst := h.stage p
    rw [hp] at hst
    simpa only [hring] using hst hb
  · have hk : Keeps StaysAsleep w.kernel (processWakeAllBlocked w.kernel) :=
      keeps_wake staysAsleep_mild _ w.kernel
    refine ReadInv.resume (h.change he hk.kernelShell ?_ fun p n hp hb => ?_) (h.unmasked he)
    · exact h.idle_awake fun p => Or.inl (hk.pool p)
    · -- whoever was asleep for input has been woken
      have hst := h.stage p
      rw [hp] at hst
      obtain ⟨hbk,-⟩ := hk.pool p hb
      rcases wakeAll_awake hb with hs | hkind
      · exact absurd hs (h.shell p (by simp [hp]))
      · exact absurd (hst hbk).2 hkind

/-- Other steps leave the ring as it is or empty. -/
theorem ReadInv.others (he : w.enabled) {kb : Keyboard}
    (hshell : k'.kernelShell = w.kernel.kernelShell) (hring : w.kb.ring.Empty → kb.ring.Empty)
    (hpool : ∀ p, StaysAsleep (w.kernel.pool p) (k'.pool p) ∨ w.pc p = .out ∧ k'.pid p ≠ 1) :
    ReadInv ⟨k',kb,w.pc⟩ := by
  refine h.change he hshell (h.idle_awake fun p => (hpool p).imp_right And.right)
    fun p n hp hb => ?_
  have hst := h.stage p
  rw [hp] at hst
  rcases hpool p with hs | ⟨hout,-⟩
  · obtain ⟨hbk,hkind,-⟩ := hs hb
    obtain ⟨hempty,hnone⟩ := hst hbk
    exact ⟨hring hempty,hkind.trans hnone⟩
  · rw [hp] at hout
    cases hout

theorem ReadInv.advance (hself : w.kernel.procCurrent = some self) {copied : Bool}
    (hs : w.advance self copied = some w') : ReadInv w' := by
  have hst := h.stage self
  have hsleep : ∀ p, p ≠ self → ∀ n, w.pc p = .hlt n → ReadStage w p (.hlt n) := fun p _ n hp => by
    simpa only [hp] using h.stage p
  have hshell : w.pc self ≠ .out → w.kernel.kernelShell ≠ some self := h.shell self
  unfold Readers.advance at hs
  cases hpc : w.pc self with
  | out => simp [hpc] at hs
  | hlt n => simp [hpc] at hs
  | loop n =>
    cases n with
    | zero =>
      simp only [hpc,Option.some.injEq] at hs
      exact hs ▸ h.goto hself (fun h => absurd rfl h) rfl rfl h.idle trivial hsleep
    | succ n =>
      simp only [hpc,Option.some.injEq] at hs
      exact hs ▸ h.goto hself (fun _ => hshell (by simp [hpc])) rfl rfl h.idle trivial hsleep
  | fetch n =>
    simp only [hpc] at hs
    have hget := get_none_iff w.kb.ring
    split at hs
    · -- a character was there, so nobody is asleep
      rename_i c ring hr
      simp only [hr,reduceCtorEq,false_iff] at hget
      simp only [Option.some.injEq] at hs
      refine hs ▸ h.goto hself (fun _ => hshell (by simp [hpc])) rfl rfl h.idle trivial ?_
      exact fun p hp n hn hb => absurd (hsleep p hp n hn hb).1 hget
    · rename_i ring hr
      simp only [hr,true_iff] at hget
      simp only [Option.some.injEq] at hs
      exact hs ▸ h.goto hself (fun _ => hshell (by simp [hpc])) rfl rfl h.idle hget hsleep
  | got n c =>
    simp only [hpc,Option.some.injEq] at hs
    exact hs ▸ h.goto hself (fun _ => hshell (by simp [hpc])) rfl rfl h.idle trivial hsleep
  | copy n c =>
    simp only [hpc,Option.some.injEq] at hs
    refine hs ▸ h.goto hself (fun _ => hshell (by simp [hpc])) rfl rfl h.idle ?_ hsleep
    split <;> trivial
  | empty n =>
    rw [hpc] at hst
    simp only [hpc] at hs
    split at hs
    · rename_i hidle
      simp only [Option.some.injEq] at hs
      refine hs ▸ h.goto hself (fun _ => hshell (by simp [hpc])) rfl rfl h.idle ?_ hsleep
      exact fun hb => absurd hidle (h.idle self hb)
    · rename_i hidle
      simp only [Option.some.injEq] at hs
      refine hs ▸ h.goto hself (fun _ => hshell (by simp [hpc])) rfl rfl ?_ ⟨hst,by simp⟩ ?_
      · intro p hb
        by_cases hp : p = self
        · simpa [hp] using hidle
        · simpa [hp] using h.idle p (by simpa [hp] using hb)
      · exact fun p hp n hn hb => by simpa [hp] using hsleep p hp n hn (by simpa [hp] using hb)
  | mark n =>
    rw [hpc] at hst
    simp only [hpc,Option.some.injEq] at hs
    refine hs ▸ h.goto hself (fun _ => hshell (by simp [hpc])) rfl rfl ?_ ⟨hst.1,by simp⟩ ?_
    · intro p hb
      by_cases hp : p = self
      · simpa [hp] using h.idle self hst.2
      · simpa [hp] using h.idle p (by simpa [hp] using hb)
    · exact fun p hp n hn hb => by simpa [hp] using hsleep p hp n hn (by simpa [hp] using hb)
  | arm n =>
    rw [hpc] at hst
    simp only [hpc,Option.some.injEq] at hs
    exact hs ▸ h.goto hself (fun _ => hshell (by simp [hpc])) rfl rfl h.idle (fun _ => hst) hsleep

theorem ReadInv.step {e : ReadEvent} (hs : w.step e = some w') : ReadInv w' := by
  simp only [Readers.step] at hs
  split at hs
  · cases hs
  cases e with
  | key status sc =>
    simp only [Option.ite_none_right_eq_some,Option.some.injEq] at hs
    obtain ⟨he,rfl⟩ := hs
    exact h.key he status sc
  | tick u =>
    simp only [Option.ite_none_right_eq_some,Option.some.injEq] at hs
    obtain ⟨⟨he,-⟩,rfl⟩ := hs
    have hk := keeps_tick staysAsleep_mild w.kernel u
    exact (h.others he hk.kernelShell id fun p => Or.inl (hk.pool p)).resume (h.unmasked he)
  | flush =>
    simp only [Option.ite_none_right_eq_some,Option.some.injEq] at hs
    obtain ⟨hf,rfl⟩ := hs
    exact h.others (Readers.enabled_of_free hf) rfl (fun _ => flush_empty _)
      fun p => Or.inl (staysAsleep_mild.refl _)
  | read count =>
    simp only [Option.bind_eq_some_iff] at hs
    obtain ⟨self,hself,hs⟩ := hs
    simp only [Option.ite_none_right_eq_some,Option.some.injEq] at hs
    obtain ⟨⟨-,hshell,-⟩,rfl⟩ := hs
    exact h.goto hself (fun _ => hshell) rfl rfl h.idle trivial fun p _ n hp => by
      simpa only [hp] using h.stage p
  | advance copied =>
    simp only [Option.bind_eq_some_iff] at hs
    obtain ⟨self,hself,hs⟩ := hs
    exact h.advance hself hs
  | sched e =>
    simp only [Option.ite_none_right_eq_some,Option.map_eq_some_iff] at hs
    obtain ⟨⟨hf,hplain⟩,k',hk,rfl⟩ := hs
    have he := Readers.enabled_of_free hf
    obtain ⟨hshell,hpool⟩ := step_staysAsleep hplain hk
    refine (h.others he hshell (fun hempty => ?_) fun p => ?_).resume (h.unmasked he)
    · split
      · exact flush_empty _
      · exact hempty
    · refine (hpool p).imp_right fun ⟨hp,hpid⟩ => ⟨?_,hpid⟩
      simpa [Readers.free,hp] using hf

end

theorem boot_readInv (shell : Option Slot) : ReadInv (Readers.boot shell) where
  shell _ hp := absurd rfl hp
  idle p hb := by
    by_cases hp : p = 0 <;> simp [Readers.boot,Sched.boot,hp] at hb
  alone _ hp := by simp [Readers.boot,ReadPc.masked] at hp
  stage _ := trivial

/-- Whatever keys, ticks, flushes and other processes come between: a process that sleeps at the
`hlt` of `sys_read` has no input waiting for it. -/
theorem no_lost_key (shell : Option Slot) {es : List ReadEvent}
    (hr : run Readers.step (Readers.boot shell) es = some w) {n : ℕ} (hpc : w.pc p = .hlt n)
    (hb : w.kernel.state p = .blocked) : w.kb.ring.Empty ∧ (kbdBufferGet w.kb.ring).1 = none := by
  have hinv := run_keeps ReadInv (fun _ _ _ h hs => h.step hs) (boot_readInv shell) hr
  have hst := hinv.stage p
  rw [hpc] at hst
  exact ⟨(hst hb).1,(get_none_iff _).2 (hst hb).1⟩

/-- A process is started, reads with an empty ring and goes to sleep. -/
def firstSleep : List ReadEvent :=
  [.sched (.create userCodeBase .ok),.tick false,.read 1,.advance true,.advance true,.advance true,
    .advance true,.advance true]

theorem no_lost_key_first : ∃ w, run Readers.step (Readers.boot none) firstSleep = some w ∧
    w.kernel.state 1 = .blocked ∧ w.kb.ring.Empty ∧ (kbdBufferGet w.kb.ring).1 = none := by
  have hrun : (run Readers.step (Readers.boot none) firstSleep).map (fun w =>
      (w.pc 1,w.kernel.state 1)) = some (.hlt 1,.blocked) := by decide +kernel
  obtain ⟨w,hw,he⟩ := Option.map_eq_some_iff.mp hrun
  simp only [Prod.mk.injEq] at he
  exact ⟨w,hw,he.2,no_lost_key none hw he.1 he.2⟩

end Sched
end DonsOs
