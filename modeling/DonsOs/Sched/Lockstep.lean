import DonsOs.Sched.Table

/-! The current process and its kernel stack.
The two `current_process` variables, `TSS.RSP0` and `g_syscall_stack_top` are set by separate
calls.  They stay in step as long as whoever is given the CPU has a kernel stack, and only
`scheduler_switch_to` is ever called for a process that may have lost it. -/
namespace DonsOs
namespace Sched
namespace Table

open LinkedQueue Run

variable {t t' : Table} {xs ys : List Slot} {c next p : Slot}

/-- `p` may be given the CPU by the scheduler itself. -/
def Wants (k : Kernel) (xs : List Slot) (p : Slot) : Prop :=
  p ∈ xs ∨ k.state p = .blocked ∨ k.pid p = 1 ∧ k.state p ≠ .unused

/-- Whoever may be given the CPU has a kernel stack, and a free PCB has none. -/
structure Equipped (t : Table) (xs : List Slot) : Prop where
  queued : Queued MayWait t.kernel xs
  unmarked : ∀ p, (t.kernel.pool p).blockKind = .none
  noIdle : ∀ p ∈ xs, t.kernel.pid p ≠ 1
  fresh : 2 ≤ t.kernel.nextPid
  wants : ∀ p, Wants t.kernel xs p → t.kernelStackTop p ≠ 0
  unused : ∀ p, t.kernel.state p = .unused → t.kernelStackTop p = 0
  noSlot : ∀ p, t.kernelStackSlot p = none → t.kernelStackTop p = 0

structure Lockstep (t : Table) (xs : List Slot) : Prop extends Equipped t xs where
  same : t.kernel.procCurrent = t.kernel.current
  pointers : ∀ c, t.kernel.current = some c → t.kernelStackTop c ≠ 0 ∧
    t.rsp0 = t.kernelStackTop c ∧ t.syscallStackTop = t.kernelStackTop c

theorem Equipped.handover (h : Equipped t xs)
    (hrun : ∀ q, t.kernel.current = some q → t.kernel.state q = .running →
      t.kernelStackTop q ≠ 0)
    (hh : Handover MayWait t.kernel t'.kernel xs next ys)
    (htop : t'.kernelStackTop = t.kernelStackTop) (hslot : t'.kernelStackSlot = t.kernelStackSlot)
    (hptr : t'.rsp0 = t.kernelStackTop next ∧ t'.syscallStackTop = t.kernelStackTop next)
    (hn : t.kernelStackTop next ≠ 0) : Lockstep t' ys where
  queued := hh.queued
  unmarked p := by rw [hh.frame p]; exact h.unmarked p
  noIdle p hp := by
    rw [hh.pid p]
    rcases hh.joined p hp with hm | ⟨-,-,hne⟩
    · exact h.noIdle p hm
    · exact hne
  fresh := hh.nextPid ▸ h.fresh
  wants p hp := by
    rw [htop]
    by_cases hpn : p = next
    · rwa [hpn]
    rcases hp with hm | hb | ⟨hpid,hu⟩
    · rcases hh.joined p hm with hm | ⟨hc,hr,-⟩
      · exact h.wants p (Or.inl hm)
      · exact hrun p hc hr
    · rcases hh.others p hpn with he | ⟨-,-,he⟩
      · exact h.wants p (Or.inr (Or.inl (he ▸ hb)))
      · simp [he] at hb
    · refine h.wants p (Or.inr (Or.inr ⟨hh.pid p ▸ hpid,?_⟩))
      rcases hh.others p hpn with he | ⟨-,hr,-⟩
      · exact he ▸ hu
      · simp [hr]
  unused p hp := by
    rw [htop]
    have hpn : p ≠ next := by
      rintro rfl
      simp [hh.running] at hp
    rcases hh.others p hpn with he | ⟨-,-,he⟩
    · exact h.unused p (he ▸ hp)
    · simp [he] at hp
  noSlot p hp := by
    rw [htop]
    exact h.noSlot p (hslot ▸ hp)
  same := by rw [hh.current,hh.procCurrent]
  pointers c hc := by
    rw [hh.current] at hc
    rw [← Option.some.inj hc,htop]
    exact ⟨hn,hptr⟩

section

variable (h : Lockstep t xs)
include h

theorem Lockstep.current_top (q : Slot) (hq : t.kernel.current = some q) :
    t.kernelStackTop q ≠ 0 := (h.pointers q hq).1

theorem Lockstep.locked (hl : Locked t t')
    (hh : Handover MayWait t.kernel t'.kernel xs next ys) (hn : t.kernelStackTop next ≠ 0) :
    Lockstep t' ys := by
  refine h.toEquipped.handover (fun q hq _ => h.current_top q hq) hh hl.kernelStackTop
    hl.kernelStackSlot ?_ hn
  rcases hl.pointers with ⟨hc,hr,hs⟩ | ⟨q,hq,hr,hs⟩
  · rw [hh.current] at hc
    rw [hr,hs]
    exact (h.pointers next hc.symm).2
  · rw [hh.current] at hq
    rw [Option.some.inj hq]
    exact ⟨hr,hs⟩

theorem Lockstep.touch (p : Slot) (hq : Queued MayWait t'.kernel ys)
    (hpool : ∀ q, q ≠ p → t'.kernel.pool q = t.kernel.pool q)
    (hcur : t'.kernel.current = t.kernel.current)
    (hproc : t'.kernel.procCurrent = t.kernel.procCurrent)
    (hn : t.kernel.nextPid ≤ t'.kernel.nextPid) (hys : ∀ q ∈ ys, q ∈ xs ∨ q = p)
    (htop : ∀ q, q ≠ p → t'.kernelStackTop q = t.kernelStackTop q)
    (hslot : ∀ q, q ≠ p → t'.kernelStackSlot q = t.kernelStackSlot q)
    (hptr : t'.rsp0 = t.rsp0 ∧ t'.syscallStackTop = t.syscallStackTop)
    (hmark : (t'.kernel.pool p).blockKind = .none) (hidle : p ∈ ys → t'.kernel.pid p ≠ 1)
    (hwants : Wants t'.kernel ys p → t'.kernelStackTop p ≠ 0)
    (hunused : t'.kernel.state p = .unused → t'.kernelStackTop p = 0)
    (hnone : t'.kernelStackSlot p = none → t'.kernelStackTop p = 0)
    (hself : t.kernel.current = some p → t'.kernelStackTop p = t.kernelStackTop p) :
    Lockstep t' ys where
  queued := hq
  unmarked q := by
    by_cases hqp : q = p
    · rwa [hqp]
    · rw [hpool q hqp]
      exact h.unmarked q
  noIdle q hm := by
    by_cases hqp : q = p
    · exact hqp ▸ hidle (hqp ▸ hm)
    · rw [Kernel.pid,hpool q hqp]
      exact h.noIdle q ((hys q hm).resolve_right hqp)
  fresh := h.fresh.trans hn
  wants q hw := by
    by_cases hqp : q = p
    · rw [hqp] at hw ⊢
      exact hwants hw
    · simp only [Wants,Kernel.state,Kernel.pid,hpool q hqp] at hw
      rw [htop q hqp]
      exact h.wants q (hw.imp_left fun hm => (hys q hm).resolve_right hqp)
  unused q hu := by
    by_cases hqp : q = p
    · rw [hqp] at hu ⊢
      exact hunused hu
    · rw [Kernel.state,hpool q hqp] at hu
      rw [htop q hqp]
      exact h.unused q hu
  noSlot q hs := by
    by_cases hqp : q = p
    · rw [hqp] at hs ⊢
      exact hnone hs
    · rw [htop q hqp]
      exact h.noSlot q (hslot q hqp ▸ hs)
  same := by rw [hcur,hproc,h.same]
  pointers d hd := by
    rw [hcur] at hd
    have htd : t'.kernelStackTop d = t.kernelStackTop d := by
      by_cases hdp : d = p
      · rw [hdp]
        exact hself (hdp ▸ hd)
      · exact htop d hdp
    rw [htd,hptr.1,hptr.2]
    exact h.pointers d hd

/-- The stack pointers move only with the current process. -/
theorem Lockstep.kept (hl : Locked t t') (hc : t'.kernel.current = t.kernel.current) :
    t'.rsp0 = t.rsp0 ∧ t'.syscallStackTop = t.syscallStackTop := by
  rcases hl.pointers with ⟨-,hr,hs⟩ | ⟨q,hq,hr,hs⟩
  · exact ⟨hr,hs⟩
  · obtain ⟨-,hr',hs'⟩ := h.pointers q (hc ▸ hq)
    exact ⟨hr.trans hr'.symm,hs.trans hs'.symm⟩

theorem Lockstep.still (hl : Locked t t') (hk : t'.kernel = t.kernel) : Lockstep t' xs where
  queued := hk ▸ h.queued
  unmarked := hk ▸ h.unmarked
  noIdle := hk ▸ h.noIdle
  fresh := hk ▸ h.fresh
  wants p := by rw [hk,hl.kernelStackTop]; exact h.wants p
  unused p := by rw [hk,hl.kernelStackTop]; exact h.unused p
  noSlot p := by rw [hl.kernelStackSlot,hl.kernelStackTop]; exact h.noSlot p
  same := hk ▸ h.same
  pointers c hc := by
    obtain ⟨hr,hs⟩ := h.kept hl (by rw [hk])
    rw [hl.kernelStackTop,hr,hs]
    exact h.pointers c (hk ▸ hc)

theorem Lockstep.tick (u : Bool) : ∃ ys, Lockstep (t.timerPreemptHandler u) ys := by
  have hl := tick_locked t u
  have hk := t.timerPreemptHandler_kernel u
  rcases tick_handover waiting_mayWait h.queued h.same u with he | ⟨next,ys,hh,hn⟩
  · exact ⟨xs,h.still hl (hk.trans he)⟩
  · rw [← hk] at hh
    refine ⟨ys,h.locked hl hh (h.wants next ?_)⟩
    rcases hn with hm | hi
    · exact Or.inl hm
    · exact Or.inr (Or.inr (findByPid_spec hi))

theorem Lockstep.switchTo (hn : t.kernelStackTop next ≠ 0) :
    ∃ ys, Lockstep (t.schedulerSwitchTo next) ys := by
  have hl := switchTo_locked t next
  have hk := t.schedulerSwitchTo_kernel next
  have hi : t.kernel.pid next = 1 → next ∉ xs := fun hp hm => h.noIdle next hm hp
  rcases switchTo_handover waiting_mayWait h.queued hi with he | ⟨ys,hh⟩
  · exact ⟨xs,h.still hl (hk.trans he)⟩
  · rw [← hk] at hh
    exact ⟨ys,h.locked hl hh hn⟩

theorem Lockstep.yield : ∃ ys, Lockstep t.processYield ys := by
  have hl := yield_locked t
  have hk := t.processYield_kernel
  rcases yield_handover waiting_mayWait h.queued with he | ⟨c,hc,hp,⟨ys,ha⟩ | ⟨next,ys,hh,hn⟩⟩
  · exact ⟨xs,h.still hl (hk.trans he)⟩
  · rw [← hk] at ha
    have htop : t.processYield.kernelStackTop = t.kernelStackTop := hl.kernelStackTop
    refine ⟨ys,h.touch c ha.queued ha.others ha.current ha.procCurrent ha.nextPid.ge ha.joined
      (fun q _ => by rw [htop]) (fun q _ => by rw [hl.kernelStackSlot]) (h.kept hl ha.current) ?_
      (fun _ => by rwa [ha.pid c]) (fun _ => ?_) (fun hu => ?_) (fun hs => ?_) fun _ => by rw [htop]⟩
    · rw [ha.pool]
      exact h.unmarked c
    · rw [htop]
      exact h.current_top c hc
    · rcases ha.state with he | ⟨-,he⟩
      · rw [htop]
        exact h.unused c (he ▸ hu)
      · rw [he] at hu
        cases hu
    · rw [htop]
      exact h.noSlot c (hl.kernelStackSlot ▸ hs)
  · rw [← hk] at hh
    refine ⟨ys,h.locked hl hh (h.wants next ?_)⟩
    rcases hn with hm | hi
    · exact Or.inl hm
    · exact Or.inr (Or.inr (findByPid_spec hi))

end

/-- What `process_create` hands out. -/
structure Child (t : Table) (child : Slot) : Prop where
  state : t.kernel.state child = .ready
  pid : t.kernel.pid child ≠ 1
  top : t.kernelStackTop child ≠ 0
  slot : t.kernelStackSlot child ≠ none
  current : t.kernel.current ≠ some child

section

variable (h : Lockstep t xs)
include h

theorem Lockstep.not_unused (hu : t.kernel.state p = .unused) :
    t.kernel.current ≠ some p := fun hc => h.current_top p hc (h.unused p hu)

theorem Lockstep.create (entry : ℕ) (userStack : Bool) :
    ∃ ys, Lockstep (t.processCreate entry userStack).2 ys ∧
      ∀ child, (t.processCreate entry userStack).1 = some child →
        Child (t.processCreate entry userStack).2 child := by
  have hfresh := h.fresh
  rcases t.create_cases entry userStack with ⟨-,he⟩ | ⟨p,hf,hcases⟩
  · rw [he]
    exact ⟨xs,h,by simp⟩
  have hu := getFreePcb_spec hf
  have hcur := h.not_unused hu
  have hp : p ∉ xs := h.queued.not_mem (by rw [hu]; exact waiting_mayWait.notUnused)
  have hk := started_kernel h.queued hp entry
  have hq := h.queued.created hp entry
  rcases hcases with ⟨-,he⟩ | ⟨-,-,he⟩ | ⟨-,i,-,he⟩ <;> rw [he]
  · rw [← hk] at hq
    refine ⟨xs,h.touch p hq (fun q hqp => by simp [hk,hqp]) (by simp [hk]) (by simp [hk])
      (by simp [hk]) (fun q => Or.inl) (fun q hqp => by simp [hqp]) (fun q hqp => by simp [hqp])
      ⟨rfl,rfl⟩ (by simp [hk]) (fun hm => absurd hm hp) ?_ (by simp) (by simp)
      (fun hc => absurd hc hcur),by simp⟩
    rintro (hm | hb | ⟨hpid,-⟩)
    · exact absurd hm hp
    · simp [hk] at hb
    · simp only [hk,Kernel.pid,created_pool,if_true] at hpid
      omega
  · have hx : ((t.started p entry).exhausted p).kernel = (created t.kernel p entry).modify p
        fun c => { c with state := .unused, pid := 0 } := by simp only [exhausted,countDown_kernel,hk]
    have hm := hq.modify (p:=p) (f:=fun c => { c with state := .unused, pid := 0 })
      fun hm => absurd hm hp
    rw [← hx] at hm
    refine ⟨xs,h.touch p hm (fun q hqp => by simp [hx,hqp]) (by simp [hx]) (by simp [hx])
      (by simp [hx]) (fun q => Or.inl) (fun q hqp => ?_) (fun q hqp => ?_) ⟨rfl,rfl⟩ (by simp [hx])
      (fun hm => absurd hm hp) ?_ (fun _ => ?_) (fun _ => ?_) (fun hc => absurd hc hcur),by simp⟩
    · simp [exhausted,countDown,hqp]
    · simp [exhausted,countDown,hqp]
    · rintro (hm | hb | ⟨-,hused⟩)
      · exact absurd hm hp
      · simp [hx] at hb
      · simp [hx] at hused
    · simp [exhausted,countDown]
    · simp [exhausted,countDown]
  · have hx : (((t.started p entry).give i p).stacked p i).kernel =
        readyQueueAdd (created t.kernel p entry) p := by
      simp only [stacked,give,hk,wipe_created h.queued hp]
    have ha := hq.add hp waiting_mayWait.ready (by simp [waiting_mayWait.ready])
    rw [← hx] at ha
    have htop : (((t.started p entry).give i p).stacked p i).kernelStackTop p ≠ 0 := by
      simp only [stacked,Function.update_self,procStackSize]
      omega
    refine ⟨xs++[p],h.touch p ha (fun q hqp => by simp [hx,hqp]) (by simp [hx]) (by simp [hx])
      (by simp [hx]) (by simp) (fun q hqp => ?_) (fun q hqp => ?_) ⟨rfl,rfl⟩ (by simp [hx])
      (fun _ => ?_) (fun _ => htop) (by simp [hx]) ?_ (fun hc => absurd hc hcur),?_⟩
    · simp [stacked,give,hqp]
    · simp [stacked,give,hqp]
    · simp only [hx,Kernel.pid,add_pool,created_pool,if_true]
      simp
      omega
    · simp [stacked]
    · rintro child ⟨⟩
      refine ⟨by simp [hx],?_,htop,by simp [stacked],by simpa [hx] using hcur⟩
      simp [hx]
      omega

theorem Lockstep.remove (p : Slot) :
    Lockstep { t with kernel := readyQueueRemove t.kernel p } (xs.erase p) :=
  h.touch p (h.queued.remove p) (fun _ _ => rfl) rfl rfl le_rfl
    (fun _ hm => Or.inl (List.mem_of_mem_erase hm)) (fun _ _ => rfl) (fun _ _ => rfl) ⟨rfl,rfl⟩
    (h.unmarked p) (fun hm => absurd rfl (h.queued.nodup.mem_erase_iff.mp hm).1)
    (fun hw => h.wants p (hw.imp_left List.mem_of_mem_erase)) (h.unused p) (h.noSlot p) fun _ => rfl

theorem Lockstep.destroy (hp : p ∉ xs) (hc : t.kernel.current ≠ some p) :
    Lockstep (t.processDestroy p) xs := by
  by_cases hu : t.kernel.state p = .unused
  · rw [processDestroy,if_pos hu]
    exact h
  have hq := h.queued.destroy hp
  have hk : Sched.processDestroy t.kernel p = readyQueueRemove
      (t.kernel.modify p fun c => { c with state := .unused, pid := 0 }) p := by
    simp [Sched.processDestroy,hu,h.same,hc]
  have he : t.processDestroy p = countDown { t.kernelStackSlotFree p with
      kernel := Sched.processDestroy t.kernel p } := by rw [processDestroy,if_neg hu]
  rw [he]
  refine h.touch p hq (fun q hqp => by simp [hk,hqp]) (by simp [hk]) (by simp [hk]) (by simp [hk])
    (fun q => Or.inl) (fun q hqp => free_kernelStackTop_ne t hqp) (fun q hqp => ?_) ?_ ?_
    (fun hm => absurd hm hp) ?_ (fun _ => free_kernelStackTop (h.noSlot p))
    (fun _ => free_kernelStackTop (h.noSlot p)) (fun hcur => absurd hcur hc)
  · simp [countDown,hqp]
  · simp [countDown]
  · simpa [hk] using h.unmarked p
  · rintro (hm | hb | ⟨-,hused⟩)
    · exact absurd hm hp
    · simp [hk] at hb
    · simp [hk] at hused

theorem Lockstep.launch (hp : p ∉ xs) (hchild : Child t p) (entry parent : ℕ) :
    Lockstep { t with kernel := readyQueueAdd { t.kernel.modify p fun c =>
      { c with entryPoint := entry, parentPid := parent } with kbd := 0 } p } (xs++[p]) := by
  have hready := hchild.state
  have hm := h.queued.modify (p:=p) (f:=fun c => { c with entryPoint := entry, parentPid := parent })
    fun hm => absurd hm hp
  have hm' : Queued MayWait { t.kernel.modify p fun c => { c with entryPoint := entry, parentPid := parent } with kbd := 0 } xs :=
    ⟨hm.queue,hm.nodup,hm.inserted,hm.states⟩
  have ha := hm'.add hp waiting_mayWait.ready fun _ => by simp [MayWait,hready]
  simp only [Kernel.state] at hready
  refine h.touch p ha (fun q hqp => by simp [hqp]) (by simp) (by simp) (by simp) (by simp)
    (fun _ _ => rfl) (fun _ _ => rfl) ⟨rfl,rfl⟩ ?_ (fun _ => ?_) (fun _ => hchild.top) (fun hu => ?_)
    (fun hs => absurd hs hchild.slot) fun _ => rfl
  · simpa [hready] using h.unmarked p
  · simpa [hready] using hchild.pid
  · simp [hready] at hu

theorem Lockstep.exec (self : Slot) (userStack : Bool) (loaded : Option ℕ) :
    ∃ ys, Lockstep (t.sysExec self userStack loaded) ys := by
  obtain ⟨ys,hy,hchild⟩ := h.create userCodeBase userStack
  simp only [sysExec]
  generalize t.processCreate userCodeBase userStack = made at hy hchild
  obtain ⟨_ | child,t₁⟩ := made
  · exact ⟨ys,hy⟩
  · have hc := hchild child rfl
    have hoff : child ∉ ys.erase child := fun hm => (hy.queued.nodup.mem_erase_iff.mp hm).1 rfl
    have hrem := hy.remove child
    cases loaded with
    | none => exact ⟨_,hrem.destroy hoff hc.current⟩
    | some entry => exact ⟨_,hrem.launch hoff ⟨hc.state,hc.pid,hc.top,hc.slot,hc.current⟩ entry _⟩

theorem Lockstep.block (hc : t.kernel.current = some c) :
    Lockstep { t with kernel := t.kernel.setState c .blocked } xs := by
  have hq : Queued MayWait (t.kernel.setState c .blocked) xs :=
    h.queued.modify fun _ => Or.inr rfl
  refine h.touch c hq (fun q hq => by simp [hq]) rfl rfl le_rfl
    (fun q => Or.inl) (fun _ _ => rfl) (fun _ _ => rfl) ⟨rfl,rfl⟩ ?_ (fun hm => ?_)
    (fun _ => h.current_top c hc) (by simp) (h.noSlot c) fun _ => rfl
  · simpa using h.unmarked c
  · simpa using h.noIdle c hm

end

theorem leave_stacks (hs : t.kernelStackSlot c = none → t.kernelStackTop c = 0) :
    (∀ q, q ≠ c → (t.leave c).kernelStackTop q = t.kernelStackTop q ∧
      (t.leave c).kernelStackSlot q = t.kernelStackSlot q) ∧
    ((t.kernel.pool c).parentPid ≠ 0 ∧ (t.leave c).kernelStackTop c = t.kernelStackTop c ∧
        (t.leave c).kernelStackSlot c = t.kernelStackSlot c ∨
      (t.kernel.pool c).parentPid = 0 ∧ (t.leave c).kernelStackTop c = 0) := by
  by_cases hp : (t.kernel.pool c).parentPid = 0
  · have he : t.leave c = countDown
        { ({ t with kernel := retire t.kernel c } : Table).kernelStackSlotFree c with
          kernel := Sched.processReclaim (retire t.kernel c) c } := by
      simp [leave,processReclaim,hp]
    rw [he]
    refine ⟨fun q hq => ⟨free_kernelStackTop_ne _ hq,?_⟩,Or.inr ⟨hp,free_kernelStackTop hs⟩⟩
    simp [countDown,hq]
  · have he : t.leave c = { t with kernel := Sched.leave t.kernel c } := by
      simp [leave,Sched.leave,hp]
    rw [he]
    exact ⟨fun _ _ => ⟨rfl,rfl⟩,Or.inl ⟨hp,rfl,rfl⟩⟩

theorem Lockstep.left (h : Lockstep t xs) (hc : t.kernel.current = some c)
    (hy : Queued MayWait (t.leave c).kernel ys) (hl : Left t.kernel (t.leave c).kernel c xs ys) :
    Equipped (t.leave c) ys := by
  obtain ⟨hothers,hself⟩ := leave_stacks (h.noSlot c)
  -- nobody waits for a child here, so no parent is woken
  have hawaits (q : Slot) : ¬Awaits t.kernel q (t.kernel.pool c) := fun ha => by
    have hm := ha.2.2.1
    rw [h.unmarked q] at hm
    cases hm
  have hpool (q : Slot) (hq : q ≠ c) : (t.leave c).kernel.pool q = t.kernel.pool q :=
    (hl.others q hq).resolve_right fun hw => hawaits q hw.1
  have hmem (q : Slot) (hq : q ∈ ys) : q ∈ xs ∧ q ≠ c :=
    (hl.joined q hq).resolve_right fun hw => hawaits q hw.1
  refine ⟨hy,fun q => ?_,fun q hq => ?_,hl.nextPid ▸ h.fresh,fun q hq => ?_,fun q hq => ?_,
    fun q hq => ?_⟩
  · by_cases hqc : q = c
    · rw [hqc]
      rcases hl.self with ⟨-,he⟩ | ⟨-,he⟩ <;> rw [he] <;> exact h.unmarked c
    · rw [hpool q hqc]
      exact h.unmarked q
  · rw [Kernel.pid,hpool q (hmem q hq).2]
    exact h.noIdle q (hmem q hq).1
  · by_cases hqc : q = c
    · rw [hqc] at hq ⊢
      rcases hself with ⟨-,ht,-⟩ | ⟨hp,-⟩
      · rw [ht]
        exact h.current_top c hc
      · have hpc : (t.leave c).kernel.pool c = { t.kernel.pool c with state := .unused, pid := 0 } :=
          (hl.self.resolve_left fun hz => hz.1 hp).2
        rcases hq with hm | hb | ⟨-,hu⟩
        · exact absurd rfl (hmem c hm).2
        · rw [Kernel.state,hpc] at hb
          cases hb
        · exact absurd (by rw [Kernel.state,hpc]) hu
    · rw [(hothers q hqc).1]
      simp only [Wants,Kernel.state,Kernel.pid,hpool q hqc] at hq
      exact h.wants q (hq.imp_left fun hm => (hmem q hm).1)
  · by_cases hqc : q = c
    · rw [hqc] at hq ⊢
      rcases hself with ⟨hp,-⟩ | ⟨-,ht⟩
      · have hz := (hl.self.resolve_right fun hz => hp hz.1).2
        rw [Kernel.state,hz] at hq
        cases hq
      · exact ht
    · rw [(hothers q hqc).1]
      rw [Kernel.state,hpool q hqc] at hq
      exact h.unused q hq
  · by_cases hqc : q = c
    · rw [hqc] at hq ⊢
      rcases hself with ⟨-,ht,hs⟩ | ⟨-,ht⟩
      · rw [ht]
        exact h.noSlot c (hs ▸ hq)
      · exact ht
    · rw [(hothers q hqc).1]
      exact h.noSlot q ((hothers q hqc).2 ▸ hq)

/-- With the queue reset nothing but a blocked kernel shell is left to run. -/
theorem Equipped.reset (h : Equipped t []) :
    Equipped { t with kernel := schedulerReset t.kernel } [] :=
  ⟨h.queued.reset,h.unmarked,by simp,h.fresh,h.wants,h.unused,h.noSlot⟩

theorem Lockstep.exit (h : Lockstep t xs) : ∃ ys, Lockstep t.processExit ys := by
  cases hc : t.kernel.current with
  | none =>
    have he : t.processExit = { t with kernel := { t.kernel with halted := true } } := by
      simp only [processExit,hc]
    rw [he]
    exact ⟨xs,⟨⟨h.queued.queue,h.queued.nodup,h.queued.inserted,h.queued.states⟩,h.unmarked,
      h.noIdle,h.fresh,h.wants,h.unused,h.noSlot⟩,h.same,h.pointers⟩
  | some c =>
    have hno : ∀ parent, Awaits t.kernel parent (t.kernel.pool c) → parent ∉ xs := fun q ha => by
      have hm := ha.2.2.1
      rw [h.unmarked q] at hm
      cases hm
    obtain ⟨ys,hy,hl,hcases⟩ := exit_handover waiting_mayWait h.queued hc hno
    rw [← leave_kernel] at hy hl hcases
    rw [← processExit_kernel] at hcases
    have heq := h.left hc hy hl
    have hon := exit_handedOn t hc
    have hdead (q : Slot) (hq : (t.leave c).kernel.current = some q) :
        (t.leave c).kernel.state q ≠ .running := by
      rw [hl.current,hc] at hq
      rw [← Option.some.inj hq]
      rcases hl.self with ⟨-,he⟩ | ⟨-,he⟩ <;> rw [Kernel.state,he] <;> simp
    have hptr (next : Slot) (hn : t.processExit.kernel.current = some next) :
        t.processExit.rsp0 = (t.leave c).kernelStackTop next ∧
          t.processExit.syscallStackTop = (t.leave c).kernelStackTop next := by
      rcases hon.pointers with hno | ⟨q,hq,hr,hs⟩
      · rw [hn] at hno
        cases hno
      · rw [Option.some.inj (hn.symm.trans hq)]
        exact ⟨hr,hs⟩
    rcases hcases with ⟨next,zs,rfl,hh⟩ | ⟨rfl,⟨-,he⟩ | ⟨shell,-,hb,hh⟩⟩
    · exact ⟨zs,heq.handover (fun q hq hr => absurd hr (hdead q hq)) hh hon.kernelStackTop
        hon.kernelStackSlot (hptr next hh.current) (heq.wants next (Or.inl (by simp)))⟩
    · have hq := hy.reset
      refine ⟨[],⟨?_,?_,by simp,?_,?_,?_,?_⟩,?_,?_⟩
      · rw [he]
        exact ⟨hq.queue,hq.nodup,hq.inserted,hq.states⟩
      · rw [he]
        exact heq.unmarked
      · rw [he]
        exact heq.fresh
      · rw [he,hon.kernelStackTop]
        exact heq.wants
      · rw [he,hon.kernelStackTop]
        exact heq.unused
      · rw [hon.kernelStackSlot,hon.kernelStackTop]
        exact heq.noSlot
      · rw [he]
        rfl
      · rw [he]
        intro d hd
        cases hd
    · exact ⟨[],heq.reset.handover (fun q hq => by cases hq) hh hon.kernelStackTop hon.kernelStackSlot
        (hptr shell hh.current) (heq.wants shell (Or.inr (Or.inl hb)))⟩

/-- Only a process with a kernel stack is switched to; the run consists of ticks, creations,
execs, yields, exits, switches and suspensions. -/
def Standing (t : Table) : Call → Prop
  | .switchTo next => t.kernelStackTop next ≠ 0
  | .waitpid _ _ | .reclaim _ | .destroy _ => False
  | .tick _ | .create _ _ | .exec _ _ | .yield | .exit | .block => True

theorem Lockstep.step {e : Call} (h : Lockstep t xs) (hok : Standing t e)
    (hs : t.step e = some t') : ∃ ys, Lockstep t' ys := by
  simp only [Table.step] at hs
  split at hs
  · cases hs
  cases e with
  | tick u => cases hs; exact h.tick u
  | create entry userStack =>
    cases hs
    obtain ⟨ys,hy,-⟩ := h.create entry userStack
    exact ⟨ys,hy⟩
  | exec userStack loaded =>
    obtain ⟨self,-,-,rfl⟩ := syscall_some hs
    exact h.exec self userStack loaded
  | waitpid _ _ => exact hok.elim
  | yield => cases hs; exact h.yield
  | exit => cases hs; exact h.exit
  | switchTo next => cases hs; exact h.switchTo hok
  | block =>
    simp only [Option.bind_eq_some_iff] at hs
    obtain ⟨self,hself,hs⟩ := hs
    split at hs
    · cases hs
    · cases hs
      exact ⟨xs,h.block (h.same ▸ hself)⟩
  | reclaim _ => exact hok.elim
  | destroy _ => exact hok.elim

/-- Both `current_process` variables and both stack pointers agree. -/
def InStep (t : Table) : Prop :=
  t.kernel.procCurrent = t.kernel.current ∧ ∀ c, t.kernel.current = some c →
    t.kernelStackTop c ≠ 0 ∧ t.rsp0 = t.kernelStackTop c ∧ t.syscallStackTop = t.kernelStackTop c

theorem init_lockstep (stackPool : ℕ) (kernelShell : Option Slot) :
    Lockstep (init stackPool kernelShell) [] := by
  have htop := init_kernelStackTop stackPool kernelShell
  have hk := init_kernel stackPool kernelShell
  refine ⟨⟨?_,?_,by simp,?_,fun p hp => ?_,fun p hp => ?_,fun p hp => ?_⟩,?_,fun c hc => ?_⟩
  · rw [hk]
    exact boot_queued MayWait kernelShell
  · rw [hk]
    intro p
    by_cases h0 : p = 0 <;> simp [boot,h0]
  · rw [hk]
    exact le_rfl
  · rw [hk] at hp
    by_cases h0 : p = 0
    · simp [htop,h0,procStackSize]
    · simp [Wants,boot,h0] at hp
  · rw [hk] at hp
    by_cases h0 : p = 0
    · simp [boot,h0] at hp
    · simp [htop,h0]
  · by_cases h0 : p = 0
    · simp [init_kernelStackSlot,h0] at hp
    · simp [htop,h0]
  · rw [hk]
    rfl
  · rw [hk] at hc
    obtain rfl : (0 : Slot) = c := by simpa [boot] using hc
    exact ⟨by simp [htop,procStackSize],rfl,rfl⟩

/-- The kernel shell creates a kernel process; a tick runs that process to its end, where it
gives up its PCB; then the shell suspends itself and switches to the process it created. -/
def lateSwitch : List Call :=
  [.create kernelBase true,.switchTo 1,.create kernelBase true,.tick false,.exit,.block,.switchTo 2]

theorem late_switch_loses_stack :
    ∃ t, run Table.step (init 0 (some 1)) lateSwitch = some t ∧ ¬InStep t := by
  have hfacts : (run Table.step (init 0 (some 1)) lateSwitch).map
      (fun t => decide (t.kernel.current = some 2 ∧ t.kernelStackTop 2 = 0)) = some true := by
    decide +kernel
  obtain ⟨t,ht,hf⟩ := Option.map_eq_some_iff.mp hfacts
  obtain ⟨hc,htop⟩ := of_decide_eq_true hf
  exact ⟨t,ht,fun hin => (hin.2 2 hc).1 htop⟩

instance (t : Table) : (e : Call) → Decidable (Standing t e)
  | .switchTo next => inferInstanceAs (Decidable (t.kernelStackTop next ≠ 0))
  | .waitpid _ _ | .reclaim _ | .destroy _ => isFalse id
  | .tick _ | .create _ _ | .exec _ _ | .yield | .exit | .block => isTrue trivial

/-- In every run that switches only to processes with a kernel stack, both current processes
and both stack pointers agree in the state reached. -/
theorem current_in_step (stackPool : ℕ) (kernelShell : Option Slot) {es : List Call} {t : Table}
    (hes : Admits Table.step Standing (init stackPool kernelShell) es)
    (hrun : run Table.step (init stackPool kernelShell) es = some t) : InStep t := by
  obtain ⟨xs,h⟩ := run_invariant (fun t => ∃ xs, Lockstep t xs)
    (fun _ _ _ ⟨_,h⟩ hok hs => h.step hok hs) ⟨[],init_lockstep stackPool kernelShell⟩ hes hrun
  exact ⟨h.same,h.pointers⟩

/-- A process starts another one, which is dispatched and exits. -/
theorem current_in_step_exec :
    ∃ t, run Table.step (init 0 none) [.create userCodeBase true,.tick false,
        .exec true (some userCodeBase),.tick true,.exit] = some t ∧ InStep t := by
  have hes : Admits Table.step Standing (init 0 none) [.create userCodeBase true,.tick false,
      .exec true (some userCodeBase),.tick true,.exit] := by decide +kernel
  have hsome : (run Table.step (init 0 none) [.create userCodeBase true,.tick false,
      .exec true (some userCodeBase),.tick true,.exit]).isSome := by decide +kernel
  obtain ⟨t,ht⟩ := Option.isSome_iff_exists.mp hsome
  exact ⟨t,ht,current_in_step 0 none hes ht⟩

end Table
end Sched
end DonsOs
