import DonsOs.Sched.Integrity

/-! What the scheduler does to a PCB, one PCB at a time.
Whatever the queue looks like, the functions below only move a process to a state other than
`BLOCKED`, take it out of a wait, give its PCB back or hand a fresh one out.  A relation between
the old and the new contents of a PCB that allows these changes holds across all of them. -/
namespace DonsOs
namespace Sched

/-- The changes of a PCB that scheduling makes. -/
structure Mild (R : Pcb → Pcb → Prop) : Prop where
  refl : ∀ c, R c c
  trans : ∀ {a b c}, R a b → R b c → R a c
  state : ∀ c {s}, s ≠ .blocked → R c { c with state := s }
  wake : ∀ c, R c { c with state := .ready, blockKind := .none, waitPid := 0 }
  free : ∀ c, R c { c with state := .unused, pid := 0 }
  prepare : ∀ c entry, R c { c with entryPoint := entry, state := .ready }
  adopt : ∀ c entry parent, R c { c with entryPoint := entry, parentPid := parent }

/-- Every PCB changes as `R` allows. -/
structure Keeps (R : Pcb → Pcb → Prop) (k k' : Kernel) : Prop where
  nextPid : k.nextPid ≤ k'.nextPid
  kernelShell : k'.kernelShell = k.kernelShell
  pool : ∀ q, R (k.pool q) (k'.pool q)

variable {R : Pcb → Pcb → Prop} {k k₁ k' : Kernel} {p self : Slot}

section
variable (m : Mild R)
include m

theorem Keeps.refl (k : Kernel) : Keeps R k k := ⟨le_rfl,rfl,fun _ => m.refl _⟩

theorem Keeps.trans (h : Keeps R k k₁) (h' : Keeps R k₁ k') : Keeps R k k' :=
  ⟨h.nextPid.trans h'.nextPid,h'.kernelShell.trans h.kernelShell,
    fun q => m.trans (h.pool q) (h'.pool q)⟩

theorem Keeps.of_pool (hpool : k'.pool = k.pool) (hn : k'.nextPid = k.nextPid)
    (hs : k'.kernelShell = k.kernelShell) : Keeps R k k' :=
  ⟨hn.ge,hs,fun q => by rw [hpool]; exact m.refl _⟩

theorem keeps_modify (p : Slot) {f : Pcb → Pcb} (hf : ∀ c, R c (f c)) : Keeps R k (k.modify p f) := by
  refine ⟨le_rfl,rfl,fun q => ?_⟩
  by_cases hq : q = p
  · subst hq
    simpa using hf (k.pool q)
  · simpa [hq] using m.refl _

theorem keeps_setState (p : Slot) {s : ProcState} (hs : s ≠ .blocked) : Keeps R k (k.setState p s) :=
  keeps_modify m p fun c => m.state c hs

theorem Keeps.add (h : Keeps R k k₁) (p : Slot) : Keeps R k (readyQueueAdd k₁ p) := by
  have hstate : Keeps R k₁ (if k₁.state p = .running then k₁.setState p .ready else k₁) := by
    split
    · exact keeps_setState m p (by decide)
    · exact .refl m k₁
  rw [readyQueueAdd]
  exact (h.trans m hstate).trans m (.of_pool m rfl rfl rfl)

theorem keeps_remove (p : Slot) : Keeps R k (readyQueueRemove k p) := .of_pool m rfl rfl rfl

theorem keeps_setCurrent (p : Slot) : Keeps R k (schedulerSetCurrent k p) := .of_pool m rfl rfl rfl

theorem keeps_next (k : Kernel) : Keeps R k (readyQueueNext k).2 := by
  simp only [readyQueueNext]
  split
  · exact .refl m k
  · exact .of_pool m rfl rfl rfl

theorem keeps_switchTo (next : Slot) : Keeps R k (schedulerSwitchTo k next) := by
  rw [schedulerSwitchTo]
  split_ifs with hc hi
  · exact .refl m k
  · exact .refl m k
  · refine ⟨(dispatch_rest k next).2.1.ge,(dispatch_rest k next).2.2.1,fun q => ?_⟩
    rw [dispatch_pool hc]
    split
    · rename_i he
      rw [he]
      exact m.state _ (by decide)
    · split
      · exact m.state _ (by decide)
      · exact m.refl _

theorem keeps_yield (k : Kernel) : Keeps R k (processYield k) := by
  cases hc : k.current with
  | none => simp only [processYield,hc]; exact .refl m k
  | some c =>
    simp only [processYield,hc]
    by_cases hp : k.pid c = 1
    · rw [if_pos hp]
      exact .refl m k
    rw [if_neg hp]
    generalize hk : (if k.state c = .running then readyQueueAdd (k.setState c .ready) c else k) = k₁
    have hr : Keeps R k k₁ := by
      rw [← hk]
      split
      · exact (keeps_setState m c (by decide)).add m c
      · exact .refl m k
    have hnext := hr.trans m (keeps_next m k₁)
    generalize readyQueueNext k₁ = r at hnext ⊢
    obtain ⟨_ | next,k₂⟩ := r <;> simp only at hnext ⊢
    · split
      · exact (hnext.add m c).trans m (keeps_switchTo m c)
      · split
        · exact hnext
        · exact hnext.trans m (keeps_switchTo m _)
    · exact hnext.trans m (keeps_switchTo m next)

theorem keeps_reclaim (p : Slot) : Keeps R k (processReclaim k p) := by
  rw [processReclaim]
  split
  · exact .refl m k
  · exact keeps_modify m p m.free

theorem keeps_destroy (p : Slot) : Keeps R k (processDestroy k p) := by
  rw [processDestroy]
  split
  · exact .refl m k
  · have hr : Keeps R k (readyQueueRemove (k.modify p fun c => { c with state := .unused, pid := 0 }) p) :=
      (keeps_modify m p m.free).trans m (keeps_remove m p)
    simp only
    split
    · exact hr.trans m (.of_pool m rfl rfl rfl)
    · exact hr

theorem keeps_wakeParent (c : Slot) : Keeps R k (processWakeParentIfWaiting k c) := by
  rw [processWakeParentIfWaiting]
  split
  · exact .refl m k
  · exact (keeps_modify m _ m.wake).add m _

theorem keeps_leave (c : Slot) : Keeps R k (leave k c) := by
  have hret : Keeps R k (retire k c) := by
    have hr : Keeps R k (readyQueueRemove (k.setState c .terminated) c) :=
      (keeps_setState m c (by decide)).trans m (keeps_remove m c)
    simp only [retire]
    split
    · exact hr.trans m (.of_pool m rfl rfl rfl)
    · exact hr
  simp only [leave]
  split
  · exact hret.trans m ((keeps_setState m c (by decide)).trans m (keeps_wakeParent m c))
  · exact hret.trans m (keeps_reclaim m c)

theorem keeps_resume (c : Slot) : Keeps R k (resumeKernelShell k c) := by
  have hreset : Keeps R k (schedulerReset k) := .of_pool m rfl rfl rfl
  have hhalt : Keeps R k { schedulerReset k with halted := true } := .of_pool m rfl rfl rfl
  simp only [resumeKernelShell]
  split
  · split
    · split
      · exact hreset.trans m ((keeps_setState m _ (by decide)).trans m (keeps_switchTo m _))
      · exact hhalt
    · exact hhalt
  · exact hhalt

theorem keeps_exit (k : Kernel) : Keeps R k (processExit k) := by
  rw [processExit]
  split
  · exact .of_pool m rfl rfl rfl
  · rename_i c _
    have hnext := (keeps_leave (k:=k) m c).trans m (keeps_next m (leave k c))
    generalize readyQueueNext (leave k c) = r at hnext ⊢
    obtain ⟨_ | next,k₁⟩ := r <;> simp only at hnext ⊢
    · exact hnext.trans m (keeps_resume m c)
    · exact hnext.trans m ((keeps_setCurrent m next).trans m (keeps_setState m next (by decide)))

theorem keeps_tick (k : Kernel) (u : Bool) : Keeps R k (timerPreemptHandler k u) := by
  cases hc : k.procCurrent with
  | none => simp only [timerPreemptHandler,hc]; exact .refl m k
  | some c =>
    have hnext := keeps_next m k
    simp only [timerPreemptHandler,hc]
    generalize readyQueueNext k = r at hnext ⊢
    obtain ⟨o,k₁⟩ := r
    simp only at hnext ⊢
    split
    · exact .refl m k
    · split
      · exact .refl m k
      · split
        · exact hnext
        · refine hnext.trans m (Keeps.trans m ?_ (keeps_setCurrent m _))
          refine Keeps.trans m ?_ (keeps_setState m _ (by decide))
          split
          · exact (keeps_setState m c (by decide)).add m c
          · exact .refl m k₁

theorem keeps_wakeBlocked (i : Slot) : Keeps R k (wakeBlocked k i) := by
  rw [wakeBlocked]
  split_ifs
  · exact .refl m k
  · exact (keeps_setState m i (by decide)).add m i
  · exact .refl m k

theorem keeps_wake (is : List Slot) (k : Kernel) : Keeps R k (is.foldl wakeBlocked k) := by
  induction is generalizing k with
  | nil => exact .refl m k
  | cons i is ih => exact (keeps_wakeBlocked m i).trans m (ih (wakeBlocked k i))

theorem keeps_key (k : Kernel) : Keeps R k (irq1Handler k) := by
  rw [irq1Handler]
  refine Keeps.trans m ?_ (keeps_wake m (List.finRange 32) _)
  split
  · exact .of_pool m rfl rfl rfl
  · exact .refl m k

/-- A fresh PCB is wiped first; after that `process_create` is as mild as the rest. -/
theorem create_keeps (k : Kernel) (entry : ℕ) (alloc : Alloc) :
    (processCreate k entry alloc).2 = k ∨
      ∃ p, Keeps R (processInitializePcb k p) (processCreate k entry alloc).2 := by
  rw [processCreate]
  split
  · exact Or.inl rfl
  · rename_i p _
    have hready : Keeps R (processInitializePcb k p) ((processInitializePcb k p).modify p fun c =>
        { c with entryPoint := entry, state := .ready }) := keeps_modify m p fun c => m.prepare c entry
    refine Or.inr ⟨p,?_⟩
    simp only
    split_ifs
    · exact hready
    · exact hready.trans m (keeps_modify m p m.free)
    · refine Keeps.add m ?_ p
      exact hready.trans m (.of_pool m rfl rfl rfl)

theorem exec_keeps (k : Kernel) (self : Slot) (alloc : Alloc) (loaded : Option ℕ) :
    Keeps R (processCreate k userCodeBase alloc).2 (sysExec k self alloc loaded) := by
  rw [sysExec]
  generalize processCreate k userCodeBase alloc = r
  obtain ⟨_ | child,k₁⟩ := r
  · exact .refl m k₁
  · have hr : Keeps R k₁ (readyQueueRemove k₁ child) := keeps_remove m child
    cases loaded with
    | none => exact hr.trans m (keeps_destroy m child)
    | some entry =>
      have hmod : Keeps R (readyQueueRemove k₁ child) ((readyQueueRemove k₁ child).modify child fun c =>
          { c with entryPoint := entry, parentPid := (readyQueueRemove k₁ child).pid self }) :=
        keeps_modify m child fun c => m.adopt c entry _
      refine Keeps.add m ((hr.trans m hmod).trans m ?_) child
      exact .of_pool m rfl rfl rfl

end

end Sched
end DonsOs
