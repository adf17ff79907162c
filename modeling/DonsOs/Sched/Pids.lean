import DonsOs.Sched.Mild

/-! Pids.
A pid is handed out once, by `process_initialize_pcb`, and a PCB keeps it until it is given back.
Unlike the facts about the queue, this holds along every run. -/
namespace DonsOs
namespace Sched

open Run

/-- Pids are handed out once. -/
structure Numbered (k : Kernel) : Prop where
  unique : ∀ p q, k.pid p ≠ 0 → k.pid p = k.pid q → p = q
  range : ∀ p, k.pid p < k.nextPid

/-- A PCB has the pid it had, or none. -/
def SamePid (c c' : Pcb) : Prop := c'.pid = c.pid ∨ c'.pid = 0

theorem samePid_mild : Mild SamePid where
  refl _ := Or.inl rfl
  trans h h' := by
    rcases h' with he | he
    · rw [SamePid,he]
      exact h
    · exact Or.inr he
  state _ _ _ := Or.inl rfl
  wake _ := Or.inl rfl
  free _ := Or.inr rfl
  prepare _ _ := Or.inl rfl
  adopt _ _ _ := Or.inl rfl

variable {k k' : Kernel} {p : Slot}

theorem Numbered.keeps (h : Numbered k) (hr : Keeps SamePid k k') : Numbered k' := by
  have hsame : ∀ q, k'.pid q ≠ 0 → k'.pid q = k.pid q := fun q hq => (hr.pool q).resolve_right hq
  refine ⟨fun p q hp he => ?_,fun q => ?_⟩
  · have hp' := hsame p hp
    have hq' := hsame q (he ▸ hp)
    exact h.unique p q (hp' ▸ hp) (hp'.symm.trans (he.trans hq'))
  · have hq := h.range q
    have hn := hr.nextPid
    have hq' : k'.pid q = k.pid q ∨ k'.pid q = 0 := hr.pool q
    omega

theorem initialize_pid (k : Kernel) (p q : Slot) :
    (processInitializePcb k p).pid q = if q = p then k.nextPid else k.pid q := by
  by_cases hq : q = p <;> simp [processInitializePcb,hq]

theorem Numbered.fresh (h : Numbered k) (p : Slot) : Numbered (processInitializePcb k p) := by
  have hpid := initialize_pid k p
  have hn : (processInitializePcb k p).nextPid = k.nextPid+1 := rfl
  refine ⟨fun a b ha he => ?_,fun q => ?_⟩
  · have hra := h.range a
    have hrb := h.range b
    rw [hpid] at ha he
    rw [hpid] at he
    split_ifs at ha he with h1 h2 h2
    · rw [h1,h2]
    · omega
    · omega
    · exact h.unique a b ha he
  · have hq := h.range q
    rw [hpid,hn]
    split <;> omega

/-- An event hands out one pid, or none. -/
theorem step_samePid {e : Event} (hs : k.step e = some k') :
    Keeps SamePid k k' ∨ ∃ p, Keeps SamePid (processInitializePcb k p) k' := by
  have hsleep (self : Slot) {f : Pcb → Pcb} (hf : ∀ c, (f c).pid = c.pid) :
      Keeps SamePid k (k.modify self f) := keeps_modify samePid_mild self fun c => Or.inl (hf c)
  simp only [Kernel.step] at hs
  split at hs
  · cases hs
  cases e with
  | tick u => cases hs; exact Or.inl (keeps_tick samePid_mild k u)
  | key => cases hs; exact Or.inl (keeps_key samePid_mild k)
  | create entry alloc =>
    cases hs
    rcases create_keeps samePid_mild k entry alloc with he | hk
    · rw [he]
      exact Or.inl (.refl samePid_mild k)
    · exact Or.inr hk
  | exec alloc loaded =>
    obtain ⟨self,-,-,rfl⟩ := syscall_some hs
    have hexec := exec_keeps samePid_mild k self alloc loaded
    rcases create_keeps samePid_mild k userCodeBase alloc with he | ⟨p,hk⟩
    · rw [he] at hexec
      exact Or.inl hexec
    · exact Or.inr ⟨p,hk.trans samePid_mild hexec⟩
  | read =>
    obtain ⟨self,-,-,rfl⟩ := syscall_some hs
    refine Or.inl ?_
    simp only [sysRead]
    split
    · exact .of_pool samePid_mild rfl rfl rfl
    · split
      · exact .refl samePid_mild k
      · exact hsleep self fun _ => rfl
  | waitpid pid nohang =>
    obtain ⟨self,-,-,rfl⟩ := syscall_some hs
    refine Or.inl ?_
    rcases waitScan_cases k self pid nohang with he | ⟨z,-,he⟩ | ⟨-,he⟩ <;> simp only [sysWaitpid,he]
    · exact .refl samePid_mild k
    · exact keeps_reclaim samePid_mild z
    · refine Keeps.trans samePid_mild ?_ (keeps_yield samePid_mild _)
      exact hsleep self fun _ => rfl
  | yield => cases hs; exact Or.inl (keeps_yield samePid_mild k)
  | exit => cases hs; exact Or.inl (keeps_exit samePid_mild k)
  | switchTo next => cases hs; exact Or.inl (keeps_switchTo samePid_mild next)
  | block =>
    obtain ⟨self,-,-,rfl⟩ := block_some hs
    exact Or.inl (hsleep self fun _ => rfl)

theorem Numbered.step (h : Numbered k) {e : Event} (hs : k.step e = some k') : Numbered k' := by
  rcases step_samePid hs with hk | ⟨p,hk⟩
  · exact h.keeps hk
  · exact (h.fresh p).keeps hk

theorem boot_numbered (shell : Option Slot) : Numbered (boot shell) := by
  have hpid : ∀ p, (boot shell).pid p = if p = 0 then 1 else 0 := by
    intro p
    by_cases hp : p = 0 <;> simp [boot,hp]
  refine ⟨fun p q hp he => ?_,fun p => ?_⟩
  · rw [hpid] at hp he
    rw [hpid] at he
    split_ifs at hp he with h1 h2
    · rw [h1,h2]
    · exact absurd rfl hp
  · have hn : (boot shell).nextPid = 2 := rfl
    rw [hpid,hn]
    split <;> omega

theorem Numbered.find (h : Numbered k) (hu : k.state p ≠ .unused) (h0 : k.pid p ≠ 0) :
    processFindByPid k (k.pid p) = some p :=
  findByPid_of_unique hu fun q _ he => (h.unique p q h0 he.symm).symm

theorem run_numbered {shell : Option Slot} {es : List Event} (hr : run Kernel.step (boot shell) es = some k) :
    Numbered k :=
  run_keeps Numbered (fun _ _ _ h hs => h.step hs) (boot_numbered shell) hr

/-! No pid is handed out again. -/

/-- Of the pids that `k` has handed out, those in use in `k'` are where they were. -/
def Continues (k k' : Kernel) : Prop :=
  k.nextPid ≤ k'.nextPid ∧ ∀ q, k'.pid q ≠ 0 → k'.pid q < k.nextPid → k'.pid q = k.pid q

theorem Continues.step {k₁ : Kernel} (h : Continues k k₁) {e : Event} (hs : k₁.step e = some k') :
    Continues k k' := by
  have hold : k₁.nextPid ≤ k'.nextPid ∧
      ∀ q, k'.pid q ≠ 0 → k'.pid q = k₁.pid q ∨ k'.pid q = k₁.nextPid := by
    rcases step_samePid hs with hk | ⟨p,hk⟩
    · exact ⟨hk.nextPid,fun q hq => Or.inl ((hk.pool q).resolve_right hq)⟩
    · refine ⟨(Nat.le_succ _).trans hk.nextPid,fun q hq => ?_⟩
      have he : k'.pid q = (processInitializePcb k₁ p).pid q := (hk.pool q).resolve_right hq
      rw [he,initialize_pid]
      split
      · exact Or.inr rfl
      · exact Or.inl rfl
  refine ⟨h.1.trans hold.1,fun q hq hlt => ?_⟩
  have hn := h.1
  rcases hold.2 q hq with he | he
  · rw [he] at hq hlt ⊢
    exact h.2 q hq hlt
  · omega

theorem run_continues {es : List Event} (hr : run Kernel.step k es = some k') : Continues k k' :=
  run_keeps (Continues k) (fun _ _ _ h hs => h.step hs) ⟨le_rfl,fun _ _ _ => rfl⟩ hr

end Sched
end DonsOs
