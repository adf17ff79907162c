import DonsOs.Sched.Table
import DonsOs.Sched.Dispatch

/-! The books of the process table.
PCBs, kernel stack slots, pids and the process counter change in separate steps of
`process_create`, `process_reclaim` and `process_destroy`.  As long as only processes that are
neither current nor queued are reclaimed, they agree: every owner of a stack slot is a process
that knows it, so there is a free slot for every free PCB. -/
namespace DonsOs
namespace Sched

open LinkedQueue Run

/-- The PCBs in use. -/
def Kernel.used (k : Kernel) : Finset Slot := Finset.univ.filter fun p => k.state p ≠ .unused

@[simp] theorem mem_used {k : Kernel} {p : Slot} : p ∈ k.used ↔ k.state p ≠ .unused := by
  simp [Kernel.used]

namespace Table

variable {t t' : Table} {xs ys : List Slot} {c next p : Slot}

structure Books (t : Table) : Prop where
  count : t.processCount.toNat = t.kernel.used.card
  owners : ∀ i p, t.slotOwner i = some p →
    t.kernel.state p ≠ .unused ∧ t.kernelStackSlot p = some i
  held : ∀ p i, t.kernel.state p ≠ .unused → t.kernelStackSlot p = some i → t.slotOwner i = some p

/-- Two slots never have the same owner, so if all were taken all PCBs would be. -/
theorem Books.slot_left (h : Books t) (hp : t.kernel.state p = .unused) :
    ∃ i, t.slotOwner i = none := by
  by_contra hno
  have hall (i : StackSlot) : ∃ q, t.slotOwner i = some q :=
    Option.ne_none_iff_exists'.mp fun hi => hno ⟨i,hi⟩
  choose owner howner using hall
  have hinj : Function.Injective owner := by
    intro i j he
    have hi := (h.owners i (owner i) (howner i)).2
    rw [he,(h.owners j (owner j) (howner j)).2] at hi
    exact (Option.some.inj hi).symm
  obtain ⟨i,hi⟩ := Finite.surjective_of_injective hinj p
  exact (h.owners i p (hi ▸ howner i)).1 hp

theorem Books.same (h : Books t)
    (hu : ∀ q, t'.kernel.state q ≠ .unused ↔ t.kernel.state q ≠ .unused)
    (ho : t'.slotOwner = t.slotOwner) (hs : t'.kernelStackSlot = t.kernelStackSlot)
    (hc : t'.processCount = t.processCount) : Books t' where
  count := by
    have hused : t'.kernel.used = t.kernel.used := by
      ext q
      simp only [mem_used,hu]
    rw [hc,hused,h.count]
  owners i p hi := by
    rw [hu,hs]
    exact h.owners i p (ho ▸ hi)
  held p i hp hi := by
    rw [ho]
    exact h.held p i ((hu p).mp hp) (hs ▸ hi)

theorem toNat_succ {n : UInt64} {m : ℕ} (h : n.toNat = m) (hm : m < 32) : (n+1).toNat = m+1 := by
  rw [UInt64.toNat_add,h]
  simp
  omega

theorem toNat_pred {n : UInt64} {m : ℕ} (h : n.toNat = m+1) : (n-1).toNat = m := by
  have hle : (1 : UInt64) ≤ n := by
    rw [UInt64.le_iff_toNat_le,h]
    simp
  rw [UInt64.toNat_sub_of_le _ _ hle,h]
  simp

section

variable (h : Books t)
include h

theorem Books.free (hp : t.kernel.state p ≠ .unused) (hp' : t'.kernel.state p = .unused)
    (hu : ∀ q, q ≠ p → (t'.kernel.state q ≠ .unused ↔ t.kernel.state q ≠ .unused))
    (ho : t'.slotOwner = (t.kernelStackSlotFree p).slotOwner)
    (hs : t'.kernelStackSlot = (t.kernelStackSlotFree p).kernelStackSlot)
    (hc : t'.processCount = t.processCount-1) : Books t' := by
  have hmem : p ∈ t.kernel.used := mem_used.mpr hp
  -- the slot of `p` is owned by `p`, and no other one is
  have howner (i : StackSlot) (q : Slot) :
      t'.slotOwner i = some q ↔ t.slotOwner i = some q ∧ q ≠ p := by
    rw [ho]
    cases hslot : t.kernelStackSlot p with
    | none =>
      simp only [kernelStackSlotFree,hslot]
      refine ⟨fun hi => ⟨hi,?_⟩,fun hi => hi.1⟩
      rintro rfl
      have := (h.owners i q hi).2
      rw [hslot] at this
      cases this
    | some slot =>
      have hown := h.held p slot hp hslot
      simp only [kernelStackSlotFree,hslot,if_pos hown,Function.update_apply]
      by_cases hi : i = slot
      · subst hi
        simp [hown,eq_comm]
      · simp only [if_neg hi]
        refine ⟨fun hq => ⟨hq,?_⟩,fun hq => hq.1⟩
        rintro rfl
        have := (h.owners i q hq).2
        rw [hslot] at this
        exact hi (Option.some.inj this).symm
  have hslots (q : Slot) (hq : q ≠ p) : t'.kernelStackSlot q = t.kernelStackSlot q := by
    rw [hs,free_kernelStackSlot,if_neg hq]
  refine ⟨?_,fun i q hi => ?_,fun q i hq hi => ?_⟩
  · have hused : t'.kernel.used = t.kernel.used.erase p := by
      ext q
      by_cases hq : q = p
      · simp [hq,hp']
      · simp only [mem_used,Finset.mem_erase,ne_eq,hq,not_false_eq_true,true_and]
        exact hu q hq
    rw [hc,hused,Finset.card_erase_of_mem hmem]
    refine toNat_pred ?_
    have := Finset.card_pos.mpr ⟨p,hmem⟩
    rw [h.count]
    omega
  · obtain ⟨hi,hq⟩ := (howner i q).mp hi
    rw [hslots q hq]
    exact ⟨(hu q hq).mpr (h.owners i q hi).1,(h.owners i q hi).2⟩
  · have hne : q ≠ p := by
      rintro rfl
      exact hq hp'
    rw [hslots q hne] at hi
    exact (howner i q).mpr ⟨h.held q i ((hu q hne).mp hq) hi,hne⟩

theorem Books.drop (hp : t.kernel.state p ≠ .unused) {k : Kernel} (hp' : k.state p = .unused)
    (hu : ∀ q, q ≠ p → (k.state q ≠ .unused ↔ t.kernel.state q ≠ .unused)) :
    Books (countDown { t.kernelStackSlotFree p with kernel := k }) :=
  h.free hp hp' hu rfl rfl (by simp [countDown])

theorem Books.reclaim (p : Slot) : Books (t.processReclaim p) := by
  by_cases hu : t.kernel.state p = .unused
  · rw [processReclaim,if_pos hu]
    exact h
  · rw [processReclaim,if_neg hu,reclaim_eq hu]
    exact h.drop hu (by simp) fun q hq => by simp [hq]

theorem Books.destroy (p : Slot) : Books (t.processDestroy p) := by
  by_cases hu : t.kernel.state p = .unused
  · rw [processDestroy,if_pos hu]
    exact h
  · rw [processDestroy,if_neg hu]
    refine h.drop hu ?_ fun q hq => ?_ <;> simp only [Sched.processDestroy,if_neg hu] <;> split
    · simp
    · simp
    · simp [hq]
    · simp [hq]

theorem Books.take (hp : t.kernel.state p = .unused) (hp' : t'.kernel.state p ≠ .unused)
    (hu : ∀ q, q ≠ p → (t'.kernel.state q ≠ .unused ↔ t.kernel.state q ≠ .unused))
    (hslots : ∀ q, q ≠ p → t'.kernelStackSlot q = t.kernelStackSlot q)
    (ho : t'.slotOwner = t.slotOwner ∧ t'.kernelStackSlot p = none ∨
      ∃ i, t.slotOwner i = none ∧ t'.slotOwner = Function.update t.slotOwner i (some p) ∧
        t'.kernelStackSlot p = some i)
    (hc : t'.processCount = t.processCount+1) : Books t' := by
  have hmem : p ∉ t.kernel.used := by simpa using hp
  have hold (i : StackSlot) (q : Slot) (hi : t.slotOwner i = some q) : q ≠ p := by
    rintro rfl
    exact (h.owners i q hi).1 hp
  refine ⟨?_,fun i q hi => ?_,fun q i hq hi => ?_⟩
  · have hused : t'.kernel.used = insert p t.kernel.used := by
      ext q
      by_cases hq : q = p
      · simpa [hq] using hp'
      · simp only [mem_used,Finset.mem_insert,hq,false_or]
        exact hu q hq
    rw [hc,hused,Finset.card_insert_of_notMem hmem]
    refine toNat_succ h.count ?_
    have hlt := Finset.card_lt_univ_of_notMem hmem
    simpa using hlt
  · rcases ho with ⟨ho,-⟩ | ⟨j,hj,ho,hs⟩ <;> rw [ho] at hi
    · have hq := hold i q hi
      rw [hslots q hq]
      exact ⟨(hu q hq).mpr (h.owners i q hi).1,(h.owners i q hi).2⟩
    · by_cases hij : i = j
      · subst hij
        rw [Function.update_self] at hi
        rw [← Option.some.inj hi]
        exact ⟨hp',hs⟩
      · rw [Function.update_of_ne hij] at hi
        have hq := hold i q hi
        rw [hslots q hq]
        exact ⟨(hu q hq).mpr (h.owners i q hi).1,(h.owners i q hi).2⟩
  · by_cases hqp : q = p
    · subst hqp
      rcases ho with ⟨-,hs⟩ | ⟨j,-,ho,hs⟩ <;> rw [hs] at hi
      · cases hi
      · rw [ho,← Option.some.inj hi,Function.update_self]
    · rw [hslots q hqp] at hi
      have hown := h.held q i ((hu q hqp).mp hq) hi
      rcases ho with ⟨ho,-⟩ | ⟨j,hj,ho,-⟩ <;> rw [ho]
      · exact hown
      · rw [Function.update_of_ne]
        · exact hown
        · rintro rfl
          rw [hj] at hown
          cases hown

theorem Books.create (hq : Queued IsReady t.kernel xs) (entry : ℕ)
    (userStack : Bool) : Books (t.processCreate entry userStack).2 := by
  rcases t.create_cases entry userStack with ⟨-,he⟩ | ⟨p,hf,hcases⟩
  · rw [he]
    exact h
  have hu := getFreePcb_spec hf
  have hp : p ∉ xs := hq.not_mem (by rw [hu]; exact waiting_isReady.notUnused)
  have hk := started_kernel hq hp entry
  rcases hcases with ⟨-,he⟩ | ⟨-,hno,-⟩ | ⟨-,i,hi,he⟩
  · rw [he]
    refine h.take hu (by simp only [hk]; simp) (fun q hqp => by simp only [hk]; simp [hqp])
      (fun q hqp => by simp [hqp]) (Or.inl ⟨rfl,by simp⟩) rfl
  · obtain ⟨i,hi⟩ := h.slot_left hu
    exact absurd hi (hno i)
  · rw [he]
    have hx : (((t.started p entry).give i p).stacked p i).kernel =
        readyQueueAdd (created t.kernel p entry) p := by
      simp only [stacked,give,hk,wipe_created hq hp]
    refine h.take hu (by simp only [hx]; simp) (fun q hqp => by simp only [hx]; simp [hqp])
      (fun q hqp => by simp [stacked,give,hqp]) (Or.inr ⟨i,hi,rfl,by simp [stacked]⟩) rfl

theorem Books.exec (hq : Queued IsReady t.kernel xs) (self : Slot)
    (userStack : Bool) (loaded : Option ℕ) : Books (t.sysExec self userStack loaded) := by
  have hmade := h.create hq userCodeBase userStack
  simp only [sysExec]
  generalize t.processCreate userCodeBase userStack = made at hmade
  obtain ⟨_ | child,t₁⟩ := made
  · exact hmade
  · have hrem : Books { t₁ with kernel := readyQueueRemove t₁.kernel child } :=
      hmade.same (fun _ => Iff.rfl) rfl rfl rfl
    cases loaded with
    | none => exact hrem.destroy child
    | some entry =>
      refine hrem.same (fun q => ?_) rfl rfl rfl
      by_cases hqc : q = child
      · subst hqc
        by_cases hr : (t₁.kernel.pool q).state = .running <;> simp [hr]
      · simp [hqc]

theorem Books.locked (hl : Locked t t')
    (hu : ∀ q, t'.kernel.state q ≠ .unused ↔ t.kernel.state q ≠ .unused) : Books t' :=
  h.same hu hl.slotOwner hl.kernelStackSlot hl.processCount

theorem Books.leave (hu : t.kernel.state c ≠ .unused)
    (hl : Left t.kernel (Sched.leave t.kernel c) c xs ys) : Books (t.leave c) := by
  by_cases hp : (t.kernel.pool c).parentPid = 0
  · have he : t.leave c = ({ t with kernel := retire t.kernel c } : Table).processReclaim c := by
      simp [Table.leave,hp]
    have hret : Books { t with kernel := retire t.kernel c } := by
      refine h.same (fun q => ?_) rfl rfl rfl
      by_cases hq : q = c
      · simpa [hq] using hu
      · simp [hq]
    rw [he]
    exact hret.reclaim c
  · have he : t.leave c = { t with kernel := Sched.leave t.kernel c } := by
      simp [Table.leave,Sched.leave,hp]
    rw [he]
    refine h.same (fun q => ?_) rfl rfl rfl
    by_cases hq : q = c
    · subst hq
      have hz := (hl.self.resolve_right fun hz => hp hz.1).2
      simpa [hz] using hu
    · rcases hl.others q hq with heq | ⟨ha,-,heq⟩
      · simp [heq]
      · have hb := ha.2.1
        simp only [Kernel.state] at hb
        simp [heq,hb]

end

/-! The invariant of runs. -/

theorem isReady_live (s : ProcState) (h : IsReady s) : Live s := by
  rw [h]
  simp [Live]

/-- The current process is off the queue. -/
def Off (k : Kernel) : Prop := ∀ c, k.current = some c → k.inserted c = false

theorem Off.handover {k k' : Kernel} (hh : Handover IsReady k k' xs next ys) : Off k' := by
  intro c hc
  rw [hh.current] at hc
  rw [← Option.some.inj hc,Bool.eq_false_iff]
  intro hi
  have hs := hh.queued.states next ((hh.queued.inserted next).mp hi)
  rw [hh.running] at hs
  cases hs

theorem Off.change {k k' : Kernel} (h : Off k) (hcur : k'.current = k.current)
    (hins : ∀ q, q ≠ p → k'.inserted q = k.inserted q) (hp : k.current ≠ some p) : Off k' := by
  intro c hc
  rw [hcur] at hc
  rw [hins c fun e => hp (e ▸ hc)]
  exact h c hc

theorem Off.filled {k k' : Kernel} {S : ProcState → Prop} {starved : Prop} {parent : ℕ} (h : Off k)
    (hs : Sane S k xs) (hf : Filled S starved k k' xs p parent ys) : Off k' :=
  h.change hf.current hf.inserted fun hc => (hs.current p hc).used hf.unused

structure Tidy (t : Table) (xs : List Slot) : Prop where
  sane : Sane IsReady t.kernel xs
  off : Off t.kernel
  books : Books t

theorem Tidy.handover (h : Tidy t xs) (hl : Locked t t')
    (hh : Handover IsReady t.kernel t'.kernel xs next ys) (hn : Live (t.kernel.state next)) :
    ∃ zs, Tidy t' zs := by
  obtain ⟨zs,hf,-,hs⟩ := h.sane.handover hh hn
  exact ⟨zs,hs,Off.handover hh,h.books.locked hl fun q => (hf q).used⟩

theorem Tidy.still (h : Tidy t xs) (hl : Locked t t') (hk : t'.kernel = t.kernel) :
    Tidy t' xs := ⟨hk ▸ h.sane,hk ▸ h.off,h.books.locked hl fun q => by rw [hk]⟩

theorem Tidy.tick (h : Tidy t xs) (u : Bool) : ∃ ys, Tidy (t.timerPreemptHandler u) ys := by
  have hl := tick_locked t u
  have hk := t.timerPreemptHandler_kernel u
  rcases tick_handover waiting_isReady h.sane.queued h.sane.same u with he | ⟨next,ys,hh,hn⟩
  · exact ⟨xs,h.still hl (hk.trans he)⟩
  · rw [← hk] at hh
    refine h.handover hl hh ?_
    rcases hn with hm | hi
    · exact isReady_live _ (h.sane.queued.states next hm)
    · exact h.sane.registry.idle_live hi

theorem Tidy.yield (h : Tidy t xs) (hc : t.kernel.current = some c)
    (hb : t.kernel.state c = .blocked) : ∃ ys, Tidy t.processYield ys := by
  have hl := yield_locked t
  have hk := t.processYield_kernel
  obtain ⟨zs,hf,-,hs⟩ := h.sane.yield waiting_isReady isReady_live
  rw [← hk] at hf hs
  rcases yield_handover waiting_isReady h.sane.queued with he | ⟨d,hd,-,⟨ys,ha⟩ | ⟨next,ys,hh,hn⟩⟩
  · exact ⟨xs,h.still hl (hk.trans he)⟩
  · rw [← hk] at ha
    obtain rfl : c = d := Option.some.inj (hc.symm.trans hd)
    have hst : t.processYield.kernel.state c = .blocked := by
      rcases ha.state with he | ⟨hr,-⟩
      · rw [he,hb]
      · rw [hb] at hr
        cases hr
    refine ⟨zs,hs,fun d hd => ?_,h.books.locked hl fun q => (hf q).used⟩
    rw [ha.current,hc] at hd
    rw [← Option.some.inj hd,Bool.eq_false_iff]
    intro hi
    have hr := ha.queued.states c ((ha.queued.inserted c).mp hi)
    rw [hst] at hr
    cases hr
  · rw [← hk] at hh
    exact ⟨zs,hs,Off.handover hh,h.books.locked hl fun q => (hf q).used⟩

theorem Tidy.create (h : Tidy t xs) (entry : ℕ) (userStack : Bool) :
    ∃ ys, Tidy (t.processCreate entry userStack).2 ys := by
  have hbooks := h.books.create h.sane.queued entry userStack
  have hk := congrArg Prod.snd (t.processCreate_kernel entry userStack)
  have hnext : Next IsReady False t.kernel
      (Sched.processCreate t.kernel entry (t.alloc entry userStack)).2 :=
    h.sane.create waiting_isReady entry _
  have hoff : Off (Sched.processCreate t.kernel entry (t.alloc entry userStack)).2 := by
    rcases create_filled waiting_isReady h.sane.queued entry (t.alloc entry userStack) with
      he | ⟨p,ys,hf⟩
    · rw [he]
      exact h.off
    · exact h.off.filled h.sane hf
  rw [hk] at hnext hoff
  obtain ⟨-,ys,-,hs⟩ := hnext
  exact ⟨ys,hs,hoff,hbooks⟩

theorem Tidy.exec (h : Tidy t xs) {self : Slot} (hself : t.kernel.current = some self)
    (userStack : Bool) (loaded : Option ℕ) : ∃ ys, Tidy (t.sysExec self userStack loaded) ys := by
  have hbooks := h.books.exec h.sane.queued self userStack loaded
  have hk := t.sysExec_kernel self userStack loaded
  have hnext : Next IsReady False t.kernel
      (Sched.sysExec t.kernel self (t.alloc userCodeBase userStack) loaded) :=
    h.sane.exec waiting_isReady hself _ loaded
  have hoff : Off (Sched.sysExec t.kernel self (t.alloc userCodeBase userStack) loaded) := by
    rcases exec_filled waiting_isReady h.sane.queued (h.sane.same.trans hself)
      (h.sane.current self hself).used (t.alloc userCodeBase userStack) loaded with he | ⟨p,ys,hf⟩
    · rw [he]
      exact h.off
    · exact h.off.filled h.sane hf
  rw [← hk] at hnext hoff
  obtain ⟨-,ys,-,hs⟩ := hnext
  exact ⟨ys,hs,hoff,hbooks⟩

theorem registry_free {k k' : Kernel} (h : Registry k)
    (hpool : ∀ q, q ≠ p → k'.pool q = k.pool q) (hp : k'.state p = .unused)
    (hn : k'.nextPid = k.nextPid) : Registry k' := by
  have hne (q : Slot) (hq : k'.state q ≠ .unused) : q ≠ p := fun e => hq (e ▸ hp)
  refine ⟨fun q r hq hr he => ?_,fun q hq => ?_,hn ▸ h.fresh,fun q hq he => ?_⟩
  · have hpq := hpool q (hne q hq)
    have hpr := hpool r (hne r hr)
    simp only [Kernel.state,Kernel.pid,hpq,hpr] at hq hr he
    exact h.unique q r hq hr he
  · have hpq := hpool q (hne q hq)
    simp only [Kernel.state,Kernel.pid,hpq,hn] at hq ⊢
    exact h.range q hq
  · have hpq := hpool q (hne q hq)
    simp only [Kernel.state,Kernel.pid,hpq] at hq he ⊢
    exact h.idle q hq he

theorem Tidy.reclaim (h : Tidy t xs) (hc : t.kernel.current ≠ some p) (hx : p ∉ xs) :
    Tidy (t.processReclaim p) xs := by
  by_cases hu : t.kernel.state p = .unused
  · rw [processReclaim,if_pos hu]
    exact h
  have hk : (t.processReclaim p).kernel =
      t.kernel.modify p fun c => { c with state := .unused, pid := 0 } := by
    rw [processReclaim_kernel,reclaim_eq hu]
  refine ⟨⟨?_,?_,fun d hd => ?_,?_⟩,?_,h.books.reclaim p⟩ <;> rw [hk] at *
  · exact h.sane.queued.modify fun hm => absurd hm hx
  · exact h.sane.same
  · have hne : d ≠ p := fun e => hc (e ▸ hd)
    simpa [hne] using h.sane.current d hd
  · exact registry_free (p:=p) h.sane.registry (fun q hq => by simp [hq]) (by simp) rfl
  · exact h.off

theorem Tidy.destroy (h : Tidy t xs) (hc : t.kernel.current ≠ some p) :
    ∃ ys, Tidy (t.processDestroy p) ys := by
  by_cases hu : t.kernel.state p = .unused
  · rw [processDestroy,if_pos hu]
    exact ⟨xs,h⟩
  have hk : (t.processDestroy p).kernel = readyQueueRemove
      (t.kernel.modify p fun c => { c with state := .unused, pid := 0 }) p := by
    rw [processDestroy_kernel]
    simp [Sched.processDestroy,hu,h.sane.same,hc]
  have hoff : p ∉ xs.erase p := fun hm => (h.sane.queued.nodup.mem_erase_iff.mp hm).1 rfl
  refine ⟨xs.erase p,⟨?_,?_,fun d hd => ?_,?_⟩,?_,h.books.destroy p⟩ <;> rw [hk] at *
  · have hrem := h.sane.queued.remove p
    have hset := hrem.modify (p:=p) (f:=fun c => { c with state := .unused, pid := 0 })
      fun hm => absurd hm hoff
    exact ⟨hset.queue,hset.nodup,hset.inserted,hset.states⟩
  · exact h.sane.same
  · have hne : d ≠ p := fun e => hc (e ▸ hd)
    simpa [hne] using h.sane.current d hd
  · exact registry_free (p:=p) h.sane.registry (fun q hq => by simp [hq]) (by simp) rfl
  · exact h.off.change (p:=p) rfl (fun q hq => by simp [hq]) hc

theorem Tidy.waitpid (h : Tidy t xs) {self : Slot} (hself : t.kernel.current = some self)
    (pid : ℤ) (nohang : Bool) : ∃ ys, Tidy (t.sysWaitpid self pid nohang) ys := by
  simp only [sysWaitpid]
  cases hscan : scanChildren t.kernel self (waitTarget pid) (List.range' 1 999) false with
  | mk found live =>
    cases found with
    | some z =>
      have hz := (scanChildren_some hscan).1
      refine ⟨xs,h.reclaim (fun hc => ?_) (h.sane.queued.not_mem (by simp [IsReady,hz]))⟩
      have hl := h.sane.current z hc
      simp [Live,hz] at hl
    | none =>
      by_cases hr : live = false ∨ nohang = true
      · simp only [if_pos hr]
        exact ⟨xs,h⟩
      · simp only [if_neg hr]
        -- the caller is off the queue, so it may go to sleep
        have hx : self ∉ xs := h.sane.queued.off (h.off self hself)
        obtain ⟨ys,hf,-,hs⟩ := h.sane.sleep hself
          (f:=fun c => { c with state := .blocked, blockKind := .waitpid, waitPid := waitTarget pid })
          ⟨rfl,rfl,rfl⟩ fun hm => absurd hm hx
        have hsleep : Tidy { t with kernel := t.kernel.modify self fun c =>
            { c with state := .blocked, blockKind := .waitpid, waitPid := waitTarget pid } } ys :=
          ⟨hs,h.off,h.books.same (fun q => (hf q).used) rfl rfl rfl⟩
        exact hsleep.yield hself (by simp)

theorem Tidy.exit (h : Tidy t xs) : ∃ ys, Tidy t.processExit ys := by
  have hk := t.processExit_kernel
  have hp : ∀ c, t.kernel.current = some c → ∀ parent, Awaits t.kernel parent (t.kernel.pool c) →
      parent ∉ xs := fun c _ parent ha => h.sane.queued.not_mem (by simp [IsReady,ha.2.1])
  have hnext : Next IsReady True t.kernel (Sched.processExit t.kernel) :=
    h.sane.exit waiting_isReady isReady_live trivial hp
  obtain ⟨-,zs,-,hs⟩ := hnext
  rw [← hk] at hs
  cases hc : t.kernel.current with
  | none =>
    have he : t.processExit = { t with kernel := { t.kernel with halted := true } } := by
      simp only [processExit,hc]
    rw [he] at hs ⊢
    exact ⟨zs,hs,h.off,h.books.same (fun _ => Iff.rfl) rfl rfl rfl⟩
  | some c =>
    obtain ⟨ys,hy,hl,hcases⟩ := exit_handover waiting_isReady h.sane.queued hc (hp c hc)
    have hleft := h.books.leave (h.sane.current c hc).used hl
    have hon := exit_handedOn t hc
    have hbooks (hu : ∀ q, t.processExit.kernel.state q ≠ .unused ↔
        (Sched.leave t.kernel c).state q ≠ .unused) : Books t.processExit :=
      hleft.same (by rwa [leave_kernel]) hon.slotOwner hon.kernelStackSlot hon.processCount
    rw [← hk] at hcases
    rcases hcases with ⟨next,ws,rfl,hh⟩ | ⟨-,⟨-,he⟩ | ⟨shell,-,hb,hh⟩⟩
    · have hn := isReady_live _ (hy.states next (by simp))
      exact ⟨zs,hs,Off.handover hh,hbooks fun q => (hh.follows hn q).used⟩
    · refine ⟨zs,hs,?_,hbooks fun q => ?_⟩
      · rw [he]
        intro d hd
        cases hd
      · rw [he]
        rfl
    · have hn : Live ((schedulerReset (Sched.leave t.kernel c)).state shell) :=
        Or.inr (Or.inr hb)
      exact ⟨zs,hs,Off.handover hh,hbooks fun q => (hh.follows hn q).used⟩

/-- `process_reclaim` is for a process that is neither current nor queued, `process_destroy`
for one that is not current; the run consists of these, creations, execs, exits, waits and
ticks. -/
def Regular (t : Table) : Call → Prop
  | .reclaim p => t.kernel.current ≠ some p ∧ t.kernel.inserted p = false
  | .destroy p => t.kernel.current ≠ some p
  | .yield | .switchTo _ | .block => False
  | .tick _ | .create _ _ | .exec _ _ | .waitpid _ _ | .exit => True

theorem Tidy.step {e : Call} (h : Tidy t xs) (hok : Regular t e) (hs : t.step e = some t') :
    ∃ ys, Tidy t' ys := by
  simp only [Table.step] at hs
  split at hs
  · cases hs
  cases e with
  | tick u => cases hs; exact h.tick u
  | create entry userStack => cases hs; exact h.create entry userStack
  | exec userStack loaded =>
    obtain ⟨self,hself,-,rfl⟩ := syscall_some hs
    exact h.exec (h.sane.same ▸ hself) userStack loaded
  | waitpid pid nohang =>
    obtain ⟨self,hself,-,rfl⟩ := syscall_some hs
    exact h.waitpid (h.sane.same ▸ hself) pid nohang
  | yield => exact hok.elim
  | exit => cases hs; exact h.exit
  | switchTo _ => exact hok.elim
  | block => exact hok.elim
  | reclaim p => cases hs; exact ⟨xs,h.reclaim hok.1 (h.sane.queued.off hok.2)⟩
  | destroy p => cases hs; exact h.destroy hok

theorem init_tidy (stackPool : ℕ) (kernelShell : Option Slot) :
    Tidy (init stackPool kernelShell) [] := by
  have hk := init_kernel stackPool kernelShell
  have hstate (p : Slot) : (boot kernelShell).state p ≠ .unused ↔ p = 0 := by
    by_cases h0 : p = 0 <;> simp [boot,h0]
  refine ⟨?_,?_,?_,fun i p hi => ?_,fun p i hp hi => ?_⟩
  · rw [hk]
    exact boot_sane IsReady kernelShell
  · rw [hk]
    exact fun _ _ => rfl
  · have hused : (init stackPool kernelShell).kernel.used = {0} := by
      ext p
      rw [hk,mem_used,hstate,Finset.mem_singleton]
    rw [hused]
    rfl
  · rw [init_slotOwner] at hi
    split at hi
    · rename_i h0
      rw [← Option.some.inj hi,hk,hstate,init_kernelStackSlot,h0]
      exact ⟨rfl,rfl⟩
    · cases hi
  · rw [hk,hstate] at hp
    subst hp
    rw [init_kernelStackSlot,if_pos rfl] at hi
    rw [init_slotOwner,← Option.some.inj hi]
    rfl

/-- Pids in use are non-zero and distinct, the counter counts the PCBs in use, every owner of
a stack slot is a process that knows it, no two processes share one, and `process_create`
finds a slot for every free PCB. -/
structure Accounted (t : Table) : Prop where
  nonzero : ∀ p, t.kernel.state p ≠ .unused → t.kernel.pid p ≠ 0
  distinct : ∀ p q, t.kernel.state p ≠ .unused → t.kernel.state q ≠ .unused →
    t.kernel.pid p = t.kernel.pid q → p = q
  count : t.processCount.toNat = t.kernel.used.card
  owners : ∀ i p, t.slotOwner i = some p →
    t.kernel.state p ≠ .unused ∧ t.kernelStackSlot p = some i
  unshared : ∀ p q i, t.kernel.state p ≠ .unused → t.kernel.state q ≠ .unused →
    t.kernelStackSlot p = some i → t.kernelStackSlot q = some i → p = q
  slotLeft : ∀ p entry, getFreePcb t.kernel = some p →
    ((t.started p entry).kernelStackSlotAlloc p).1 ≠ none

theorem Tidy.accounted (h : Tidy t xs) : Accounted t where
  nonzero p hp := Nat.ne_of_gt (h.sane.registry.range p hp).1
  distinct := h.sane.registry.unique
  count := h.books.count
  owners := h.books.owners
  unshared p q i hp hq hi hj :=
    Option.some.inj ((h.books.held p i hp hi).symm.trans (h.books.held q i hq hj))
  slotLeft p entry hf := by
    obtain ⟨i,hi⟩ := h.books.slot_left (getFreePcb_spec hf)
    rcases slotAlloc_cases (t.started p entry) p with ⟨hno,-⟩ | ⟨j,-,he⟩
    · exact absurd hi (hno i)
    · rw [he]
      simp

/-- A process on the queue is reclaimed and then dispatched by the exit of the current one. -/
def reclaimQueued : List Call :=
  [.create userCodeBase true,.create userCodeBase true,.tick false,.reclaim 2,.exit]

theorem reclaim_queued_breaks_table :
    ∃ t, run Table.step (init 0 none) reclaimQueued = some t ∧
      ∃ p, t.kernel.state p ≠ .unused ∧ t.kernel.pid p = 0 := by
  have hfacts : (run Table.step (init 0 none) reclaimQueued).map
      (fun t => decide (t.kernel.state 2 ≠ .unused ∧ t.kernel.pid 2 = 0)) = some true := by
    decide +kernel
  obtain ⟨t,ht,hf⟩ := Option.map_eq_some_iff.mp hfacts
  exact ⟨t,ht,2,of_decide_eq_true hf⟩

instance (t : Table) : (e : Call) → Decidable (Regular t e)
  | .reclaim p => inferInstanceAs
      (Decidable (t.kernel.current ≠ some p ∧ t.kernel.inserted p = false))
  | .destroy p => inferInstanceAs (Decidable (t.kernel.current ≠ some p))
  | .yield | .switchTo _ | .block => isFalse id
  | .tick _ | .create _ _ | .exec _ _ | .waitpid _ _ | .exit => isTrue trivial

/-- In every run that reclaims only processes off the CPU and off the queue, the process
table is in order in the state reached. -/
theorem process_table_accounted (stackPool : ℕ) (kernelShell : Option Slot) {es : List Call}
    {t : Table} (hes : Admits Table.step Regular (init stackPool kernelShell) es)
    (hrun : run Table.step (init stackPool kernelShell) es = some t) : Accounted t := by
  obtain ⟨xs,h⟩ := run_invariant (fun t => ∃ xs, Tidy t xs)
    (fun _ _ _ ⟨_,h⟩ hok hs => h.step hok hs) ⟨[],init_tidy stackPool kernelShell⟩ hes hrun
  exact h.accounted

/-- A child is spawned, exits and is reaped; a creation fails and a process is destroyed. -/
theorem process_table_accounted_reap :
    ∃ t, run Table.step (init 0 none) [.create userCodeBase true,.tick false,
        .exec true (some userCodeBase),.tick true,.exit,.waitpid (-1) false,
        .create userCodeBase false,.create userCodeBase true,.destroy 3] = some t ∧
      Accounted t := by
  have hes : Admits Table.step Regular (init 0 none) [.create userCodeBase true,.tick false,
      .exec true (some userCodeBase),.tick true,.exit,.waitpid (-1) false,
      .create userCodeBase false,.create userCodeBase true,.destroy 3] := by decide +kernel
  have hsome : (run Table.step (init 0 none) [.create userCodeBase true,.tick false,
      .exec true (some userCodeBase),.tick true,.exit,.waitpid (-1) false,
      .create userCodeBase false,.create userCodeBase true,.destroy 3]).isSome := by decide +kernel
  obtain ⟨t,ht⟩ := Option.isSome_iff_exists.mp hsome
  exact ⟨t,ht,process_table_accounted 0 none hes ht⟩

end Table
end Sched
end DonsOs
