import DonsOs.Sched.Handover
import DonsOs.Sched.Integrity

/-! What an event does to the process table.
Every scheduling function treats at most one PCB in a way of its own: it gives it out, frees
it or turns it into a zombie.  All other processes keep their pids and parents, and only move
between the states of a live process.  The facts about the table that every run keeps follow
from this alone. -/
namespace DonsOs
namespace Sched

open LinkedQueue

/-- A process that can still run. -/
def Live (s : ProcState) : Prop := s = .ready ∨ s = .running ∨ s = .blocked

instance (s : ProcState) : Decidable (Live s) := inferInstanceAs (Decidable (_ ∨ _))

theorem Live.used {s : ProcState} (h : Live s) : s ≠ .unused := by
  rintro rfl
  simp [Live] at h

/-- The PCB in slot `q` belongs to the same process, as live as before. -/
structure Follows (k k' : Kernel) (q : Slot) : Prop where
  pid : k'.pid q = k.pid q
  parentPid : (k'.pool q).parentPid = (k.pool q).parentPid
  state : k'.state q = k.state q ∨ Live (k.state q) ∧ Live (k'.state q)

variable {S : ProcState → Prop} {k k₁ k' : Kernel} {xs ys : List Slot} {c next p q : Slot}

theorem Follows.of_eq (h : k'.pool q = k.pool q) : Follows k k' q := by
  constructor <;> simp [h]

theorem Follows.live (h : Follows k k' q) : Live (k'.state q) ↔ Live (k.state q) := by
  rcases h.state with he | ⟨hl,hl'⟩
  · rw [he]
  · exact ⟨fun _ => hl,fun _ => hl'⟩

theorem Follows.used (h : Follows k k' q) : k'.state q ≠ .unused ↔ k.state q ≠ .unused := by
  rcases h.state with he | ⟨hl,hl'⟩
  · rw [he]
  · exact ⟨fun _ => hl.used,fun _ => hl'.used⟩

theorem Follows.dead (h : Follows k k' q) (hd : ¬Live (k.state q)) : k'.state q = k.state q :=
  h.state.resolve_right fun hl => hd hl.1

theorem Follows.trans (h : Follows k k₁ q) (h' : Follows k₁ k' q) : Follows k k' q where
  pid := h'.pid.trans h.pid
  parentPid := h'.parentPid.trans h.parentPid
  state := by
    rcases h'.state with he | hl
    · rw [he]
      exact h.state
    · exact Or.inr ⟨h.live.mp hl.1,hl.2⟩

theorem Handover.follows (h : Handover S k k' xs next ys) (hn : Live (k.state next)) (q : Slot) :
    Follows k k' q := by
  refine ⟨h.pid q,by rw [h.frame q],?_⟩
  by_cases hq : q = next
  · subst hq
    exact Or.inr ⟨hn,by simp [Live,h.running]⟩
  · rcases h.others q hq with he | ⟨-,hr,hs⟩
    · exact Or.inl he
    · exact Or.inr ⟨by simp [Live,hr],by simp [Live,hs]⟩

theorem Alone.follows (h : Alone S k k' xs c ys) (hc : Live (k.state c)) (q : Slot) :
    Follows k k' q := by
  by_cases hq : q = c
  · subst hq
    refine ⟨h.pid q,by rw [h.pool],?_⟩
    rcases h.state with hs | ⟨-,hs⟩
    · exact Or.inl hs
    · exact Or.inr ⟨hc,by simp [Live,hs]⟩
  · exact Follows.of_eq (h.others q hq)

theorem Woken.follows {is : List Slot} (h : Woken S k k' is xs ys) (q : Slot) :
    Follows k k' q := by
  rcases h.pool q with ⟨he,-⟩ | ⟨hs,-,he⟩
  · exact Follows.of_eq he
  · exact ⟨by simp [he],by rw [he],Or.inr ⟨by simp [Live,hs.2.1],by simp [Live,he]⟩⟩

theorem follows_sleep {f : Pcb → Pcb} (hc : Live (k.state c))
    (hf : (f (k.pool c)).pid = k.pid c ∧ (f (k.pool c)).parentPid = (k.pool c).parentPid ∧
      (f (k.pool c)).state = .blocked) (q : Slot) : Follows k (k.modify c f) q := by
  by_cases hq : q = c
  · subst hq
    exact ⟨by simp [hf.1],by simp [hf.2.1],Or.inr ⟨hc,by simp [Live,hf.2.2]⟩⟩
  · exact Follows.of_eq (by simp [hq])

/-- What becomes of the one PCB that an event treats in a way of its own; `exits` says
whether the event is an exit. -/
inductive Fate (exits : Prop) (k k' : Kernel) (p : Slot) : Prop
  | follows (h : Follows k k' p) (hn : k'.nextPid = k.nextPid)
  | born (hu : k.state p = .unused) (hl : Live (k'.state p)) (hpid : k'.pid p = k.nextPid)
      (hpar : (k'.pool p).parentPid = 0 ∨
        ∃ self, k.current = some self ∧ (k'.pool p).parentPid = k.pid self)
      (hn : k'.nextPid = k.nextPid+1)
  | freed (hu : k.state p = .unused ∨ k.state p = .zombie) (hu' : k'.state p = .unused)
      (hn : k.nextPid ≤ k'.nextPid)
  | exited (he : exits) (hc : k.current = some p) (hl : Live (k.state p))
      (hpar : (k.pool p).parentPid = 0) (hu' : k'.state p = .unused) (hn : k'.nextPid = k.nextPid)
  | zombie (he : exits) (hc : k.current = some p) (hl : Live (k.state p))
      (hpar : (k.pool p).parentPid ≠ 0)
      (hpid : k'.pid p = k.pid p) (hpar' : (k'.pool p).parentPid = (k.pool p).parentPid)
      (hz : k'.state p = .zombie) (hn : k'.nextPid = k.nextPid)

structure Effect (exits : Prop) (k k' : Kernel) (p : Slot) : Prop where
  others : ∀ q, q ≠ p → Follows k k' q
  fate : Fate exits k k' p

variable {exits : Prop}

theorem Effect.of_follows (h : ∀ q, Follows k k' q) (hn : k'.nextPid = k.nextPid) (p : Slot) :
    Effect exits k k' p := ⟨fun q _ => h q,.follows (h p) hn⟩

theorem Effect.andThen (h : Effect exits k k₁ p) (h' : ∀ q, Follows k₁ k' q)
    (hn : k'.nextPid = k₁.nextPid) : Effect exits k k' p := by
  refine ⟨fun q hq => (h.others q hq).trans (h' q),?_⟩
  cases h.fate with
  | follows hf hn₁ => exact .follows (hf.trans (h' p)) (hn.trans hn₁)
  | born hu hl hpid hpar hn₁ =>
    refine .born hu ((h' p).live.mpr hl) ((h' p).pid.trans hpid) ?_ (hn.trans hn₁)
    rwa [(h' p).parentPid]
  | freed hu hu' hn₁ =>
    refine .freed hu ?_ (hn ▸ hn₁)
    rw [(h' p).dead (by simp [Live,hu']),hu']
  | exited he hc hl hpar hu' hn₁ =>
    refine .exited he hc hl hpar ?_ (hn.trans hn₁)
    rw [(h' p).dead (by simp [Live,hu']),hu']
  | zombie he hc hl hpar hpid hpar' hz hn₁ =>
    refine .zombie he hc hl hpar ((h' p).pid.trans hpid) ((h' p).parentPid.trans hpar') ?_
      (hn.trans hn₁)
    rw [(h' p).dead (by simp [Live,hz]),hz]

theorem Effect.nextPid_le (h : Effect exits k k' p) : k.nextPid ≤ k'.nextPid := by
  cases h.fate with
  | follows _ hn => omega
  | born _ _ _ _ hn => omega
  | freed _ _ hn => exact hn
  | exited _ _ _ _ _ hn => omega
  | zombie _ _ _ _ _ _ _ hn => omega

/-- A PCB in use after an event was in use before and keeps its pid, or has got the next
one. -/
theorem Effect.used (h : Effect exits k k' p) (hu : k'.state q ≠ .unused) :
    k.state q ≠ .unused ∧ k'.pid q = k.pid q ∨
      q = p ∧ k'.pid q = k.nextPid ∧ k'.nextPid = k.nextPid+1 := by
  by_cases hq : q = p
  · subst hq
    cases h.fate with
    | follows hf _ => exact Or.inl ⟨hf.used.mp hu,hf.pid⟩
    | born _ _ hpid _ hn => exact Or.inr ⟨rfl,hpid,hn⟩
    | freed _ hu' _ => exact absurd hu' hu
    | exited _ _ _ _ hu' _ => exact absurd hu' hu
    | zombie _ _ hl _ hpid _ _ _ => exact Or.inl ⟨hl.used,hpid⟩
  · exact Or.inl ⟨(h.others q hq).used.mp hu,(h.others q hq).pid⟩

/-- Pids in use are distinct and below the counter; idle lives as long as it is in the
table and has no parent. -/
structure Registry (k : Kernel) : Prop where
  unique : ∀ p q, k.state p ≠ .unused → k.state q ≠ .unused → k.pid p = k.pid q → p = q
  range : ∀ p, k.state p ≠ .unused → 0 < k.pid p ∧ k.pid p < k.nextPid
  fresh : 2 ≤ k.nextPid
  idle : ∀ p, k.state p ≠ .unused → k.pid p = 1 → Live (k.state p) ∧ (k.pool p).parentPid = 0

theorem Registry.find (h : Registry k) (hu : k.state p ≠ .unused) :
    processFindByPid k (k.pid p) = some p :=
  findByPid_of_unique hu fun q hq => h.unique q p hq hu

theorem Registry.idle_live (h : Registry k) (hf : processFindByPid k 1 = some p) :
    Live (k.state p) :=
  (h.idle p (findByPid_spec hf).2 (findByPid_spec hf).1).1

theorem Effect.registry (h : Effect exits k k' p) (hr : Registry k) : Registry k' where
  unique q r hq hr' he := by
    rcases h.used hq with ⟨hu,hp⟩ | ⟨rfl,hp,-⟩ <;> rcases h.used hr' with ⟨hu',hp'⟩ | ⟨hrp,hp',-⟩
    · rw [hp,hp'] at he
      exact hr.unique q r hu hu' he
    · have := (hr.range q hu).2
      omega
    · have := (hr.range r hu').2
      omega
    · exact hrp.symm
  range q hq := by
    have hle := h.nextPid_le
    have hfresh := hr.fresh
    rcases h.used hq with ⟨hu,hp⟩ | ⟨rfl,hp,hn⟩
    · have := hr.range q hu
      omega
    · omega
  fresh := hr.fresh.trans h.nextPid_le
  idle q hq hp := by
    have hfresh := hr.fresh
    by_cases hqp : q = p
    · subst hqp
      cases h.fate with
      | follows hf _ =>
        obtain ⟨hl,hpar⟩ := hr.idle q (hf.used.mp hq) (hf.pid ▸ hp)
        exact ⟨hf.live.mpr hl,hf.parentPid ▸ hpar⟩
      | born _ _ hpid _ _ => omega
      | freed _ hu' _ => exact absurd hu' hq
      | exited _ _ _ _ hu' _ => exact absurd hu' hq
      | zombie _ _ hl hpar hpid _ _ _ => exact absurd (hr.idle q hl.used (hpid ▸ hp)).2 hpar
    · have hf := h.others q hqp
      obtain ⟨hl,hpar⟩ := hr.idle q (hf.used.mp hq) (hf.pid ▸ hp)
      exact ⟨hf.live.mpr hl,hf.parentPid ▸ hpar⟩

/-- What every scheduling function relies on: an intact queue, a live current process on
which both files agree, and a sound table. -/
structure Sane (S : ProcState → Prop) (k : Kernel) (xs : List Slot) : Prop where
  queued : Queued S k xs
  same : k.procCurrent = k.current
  current : ∀ c, k.current = some c → Live (k.state c)
  registry : Registry k

/-- The state after an event, and what the event did. -/
def Next (S : ProcState → Prop) (exits : Prop) (k k' : Kernel) : Prop :=
  ∃ p ys, Effect exits k k' p ∧ Sane S k' ys

/-- An event that only moves the CPU and the queue. -/
def Moves (S : ProcState → Prop) (k k' : Kernel) : Prop :=
  ∃ ys, (∀ q, Follows k k' q) ∧ k'.nextPid = k.nextPid ∧ Sane S k' ys

theorem Moves.after (h : Moves S k k') : Next S exits k k' := by
  obtain ⟨ys,hf,hn,hs⟩ := h
  exact ⟨0,ys,Effect.of_follows hf hn 0,hs⟩

theorem Moves.trans (h : Moves S k k₁) (h' : Moves S k₁ k') : Moves S k k' := by
  obtain ⟨-,hf,hn,-⟩ := h
  obtain ⟨ys,hf',hn',hs⟩ := h'
  exact ⟨ys,fun q => (hf q).trans (hf' q),hn'.trans hn,hs⟩

theorem Sane.moved (h : Sane S k xs) (he : Effect exits k k' p) (hq : Queued S k' ys)
    (hsame : k'.procCurrent = k'.current) (hcur : ∀ c, k'.current = some c → Live (k'.state c)) :
    Next S exits k k' := ⟨p,ys,he,hq,hsame,hcur,he.registry h.registry⟩

theorem Sane.follows (h : Sane S k xs) (hf : ∀ q, Follows k k' q) (hn : k'.nextPid = k.nextPid)
    (hq : Queued S k' ys) (hsame : k'.procCurrent = k'.current)
    (hcur : ∀ c, k'.current = some c → Live (k'.state c)) : Moves S k k' := by
  have heff : Effect False k k' 0 := Effect.of_follows hf hn 0
  exact ⟨ys,hf,hn,hq,hsame,hcur,heff.registry h.registry⟩

theorem Sane.stay (h : Sane S k xs) (hf : ∀ q, Follows k k' q) (hn : k'.nextPid = k.nextPid)
    (hq : Queued S k' ys) (hc : k'.current = k.current) (hc' : k'.procCurrent = k.procCurrent) :
    Moves S k k' :=
  h.follows hf hn hq (by rw [hc,hc',h.same]) fun c hcur =>
    (hf c).live.mpr (h.current c (hc ▸ hcur))

theorem Sane.same_state (h : Sane S k xs) : Moves S k k :=
  h.stay (fun _ => Follows.of_eq rfl) rfl h.queued rfl rfl

theorem Sane.handover (h : Sane S k xs) (hh : Handover S k k' xs next ys)
    (hn : Live (k.state next)) : Moves S k k' := by
  refine h.follows (hh.follows hn) hh.nextPid hh.queued (by rw [hh.current,hh.procCurrent])
    fun c hc => ?_
  rw [hh.current] at hc
  rw [← Option.some.inj hc]
  exact (hh.follows hn next).live.mpr hn

section Events

variable (w : Waiting S) (hS : ∀ s, S s → Live s)
include w hS

theorem Sane.tick (h : Sane S k xs) (u : Bool) : Moves S k (timerPreemptHandler k u) := by
  rcases tick_handover w h.queued h.same u with he | ⟨next,ys,hh,hn⟩
  · rw [he]
    exact h.same_state
  · refine h.handover hh ?_
    rcases hn with hm | hi
    · exact hS _ (h.queued.states next hm)
    · exact h.registry.idle_live hi

omit hS in
theorem Sane.switchTo (h : Sane S k xs) (hn : Live (k.state next))
    (hi : k.pid next = 1 → next ∉ xs) : Moves S k (schedulerSwitchTo k next) := by
  rcases switchTo_handover w h.queued hi with he | ⟨ys,hh⟩
  · rw [he]
    exact h.same_state
  · exact h.handover hh hn

theorem Sane.yield (h : Sane S k xs) : Moves S k (processYield k) := by
  rcases yield_handover w h.queued with he | ⟨c,hc,-,⟨ys,ha⟩ | ⟨next,ys,hh,hn⟩⟩
  · rw [he]
    exact h.same_state
  · exact h.stay (ha.follows (h.current c hc)) ha.nextPid ha.queued ha.current ha.procCurrent
  · refine h.handover hh ?_
    rcases hn with hm | hi
    · exact hS _ (h.queued.states next hm)
    · exact h.registry.idle_live hi

omit hS in
theorem Sane.key (h : Sane S k xs) (hi : ∀ i, Sleeping k i → i ∉ xs) :
    Moves S k (irq1Handler k) := by
  obtain ⟨ys,hw⟩ := key_woken w h.queued hi
  exact h.stay hw.follows hw.nextPid hw.queued hw.current hw.procCurrent

omit w hS in
theorem Sane.sleep (h : Sane S k xs) (hc : k.current = some c) {f : Pcb → Pcb}
    (hf : (f (k.pool c)).pid = k.pid c ∧ (f (k.pool c)).parentPid = (k.pool c).parentPid ∧
      (f (k.pool c)).state = .blocked) (hx : c ∈ xs → S .blocked) : Moves S k (k.modify c f) := by
  refine h.stay (follows_sleep (h.current c hc) hf) rfl (h.queued.modify fun hm => ?_) rfl rfl
  rw [hf.2.2]
  exact hx hm

omit w hS in
theorem Sane.filled {starved : Prop} {parent : ℕ} (h : Sane S k xs)
    (hf : Filled S starved k k' xs p parent ys)
    (hpar : parent = 0 ∨ ∃ self, k.current = some self ∧ parent = k.pid self) : Next S exits k k' := by
  have hne (c : Slot) (hc : k.current = some c) : c ≠ p := by
    rintro rfl
    exact (h.current c hc).used hf.unused
  refine h.moved ⟨fun q hqp => Follows.of_eq (hf.others q hqp),?_⟩ hf.queued
    (by rw [hf.current,hf.procCurrent,h.same]) fun c hc => ?_
  · rcases hf.fate with ⟨⟨hu,-⟩,-⟩ | ⟨⟨hr,hpid⟩,-⟩
    · exact .freed (Or.inl hf.unused) hu (by rw [hf.nextPid]; omega)
    · refine .born hf.unused (by simp [Live,hr]) hpid ?_ hf.nextPid
      rcases hf.child with h0 | he
      · exact Or.inl h0
      · rwa [he]
  · rw [hf.current] at hc
    rw [Kernel.state,hf.others c (hne c hc)]
    exact h.current c hc

omit hS in
theorem Sane.create (h : Sane S k xs) (entry : ℕ) (alloc : Alloc) :
    Next S exits k (processCreate k entry alloc).2 := by
  rcases create_filled w h.queued entry alloc with he | ⟨p,ys,hf⟩
  · rw [he]
    exact h.same_state.after
  · exact h.filled hf (Or.inl rfl)

omit hS in
theorem Sane.exec (h : Sane S k xs) {self : Slot} (hself : k.current = some self) (alloc : Alloc)
    (loaded : Option ℕ) : Next S exits k (sysExec k self alloc loaded) := by
  rcases exec_filled w h.queued (h.same.trans hself) (h.current self hself).used alloc loaded with
    he | ⟨p,ys,hf⟩
  · rw [he]
    exact h.same_state.after
  · exact h.filled hf (Or.inr ⟨self,hself,rfl⟩)

omit w hS in
theorem Sane.reap (h : Sane S k xs) {z : Slot} (hz : k.state z = .zombie) (hx : z ∉ xs) :
    Next S exits k (processReclaim k z) := by
  have hq := h.queued.reclaim hx
  rw [reclaim_eq (by rw [hz]; decide)] at hq ⊢
  refine h.moved (p:=z) ⟨fun q hqz => Follows.of_eq (by simp [hqz]),
    .freed (Or.inr hz) (by simp) le_rfl⟩ hq h.same fun c hc => ?_
  have hcz : c ≠ z := by
    rintro rfl
    simpa [Live,hz] using h.current c hc
  simpa [hcz] using h.current c hc

omit w hS in
theorem Sane.left (h : Sane S k xs) (hc : k.current = some c) (hl : Left k k' c xs ys) (he : exits) :
    Effect exits k k' c := by
  refine ⟨fun q hq => ?_,?_⟩
  · rcases hl.others q hq with heq | ⟨ha,-,heq⟩
    · exact Follows.of_eq heq
    · exact ⟨by simp [heq],by rw [heq],Or.inr ⟨by simp [Live,ha.2.1],by simp [Live,heq]⟩⟩
  · rcases hl.self with ⟨hpar,heq⟩ | ⟨hpar,heq⟩
    · exact .zombie he hc (h.current c hc) hpar (by simp [heq]) (by rw [heq]) (by simp [heq])
        hl.nextPid
    · exact .exited he hc (h.current c hc) hpar (by simp [heq]) hl.nextPid

theorem Sane.exit (h : Sane S k xs) (he : exits)
    (hp : ∀ c, k.current = some c → ∀ parent, Awaits k parent (k.pool c) → parent ∉ xs) :
    Next S exits k (processExit k) := by
  cases hc : k.current with
  | none =>
    have heq : processExit k = { k with halted := true } := by simp only [processExit,hc]
    rw [heq]
    have hstay : Moves S k { k with halted := true } := h.stay (fun _ => Follows.of_eq rfl) rfl
      ⟨h.queued.queue,h.queued.nodup,h.queued.inserted,h.queued.states⟩ rfl rfl
    exact hstay.after
  | some c =>
    obtain ⟨ys,hy,hl,hcases⟩ := exit_handover w h.queued hc (hp c hc)
    have heff := h.left hc hl he
    rcases hcases with ⟨next,zs,rfl,hh⟩ | ⟨rfl,⟨-,heq⟩ | ⟨shell,-,hb,hh⟩⟩
    · have hfol := hh.follows (hS _ (hy.states next (by simp)))
      refine h.moved (heff.andThen hfol hh.nextPid) hh.queued (by rw [hh.current,hh.procCurrent])
        fun d hd => ?_
      rw [hh.current] at hd
      rw [← Option.some.inj hd,hh.running]
      simp [Live]
    · rw [heq]
      have hr := hy.reset
      have hreset : Effect exits k { schedulerReset (leave k c) with halted := true } c :=
        heff.andThen (fun q => Follows.of_eq rfl) rfl
      exact h.moved hreset ⟨hr.queue,hr.nodup,hr.inserted,hr.states⟩ rfl (by simp [schedulerReset])
    · have hfol := hh.follows (by simp only [schedulerReset,Live]; exact Or.inr (Or.inr hb))
      have hreset (q : Slot) : Follows (leave k c) (schedulerReset (leave k c)) q :=
        Follows.of_eq rfl
      refine h.moved (heff.andThen (fun q => (hreset q).trans (hfol q)) hh.nextPid)
        hh.queued (by rw [hh.current,hh.procCurrent]) fun d hd => ?_
      rw [hh.current] at hd
      rw [← Option.some.inj hd,hh.running]
      simp [Live]

theorem Sane.waitpid (h : Sane S k xs) {self : Slot} (hself : k.current = some self)
    (hx : self ∈ xs → S .blocked) (pid : ℤ) (nohang : Bool) :
    Next S exits k (sysWaitpid k self pid nohang) := by
  rcases waitScan_cases k self pid nohang with he | ⟨z,hz,he⟩ | ⟨-,he⟩ <;> simp only [sysWaitpid,he]
  · exact h.same_state.after
  · exact h.reap hz (h.queued.not_mem (by rw [hz]; exact w.notZombie))
  · have hsleep := h.sleep hself
      (f:=fun c => { c with state := .blocked, blockKind := .waitpid, waitPid := waitTarget pid })
      ⟨rfl,rfl,rfl⟩ hx
    obtain ⟨ys,-,-,hs⟩ := id hsleep
    exact (hsleep.trans (hs.yield w hS)).after

end Events

/-! Runs. -/

/-- Only a live process is switched to. -/
def ToLive (k : Kernel) : Event → Prop
  | .switchTo next => Live (k.state next)
  | _ => True

instance (k : Kernel) : (e : Event) → Decidable (ToLive k e)
  | .switchTo next => inferInstanceAs (Decidable (Live (k.state next)))
  | .tick _ | .key | .create _ _ | .exec _ _ | .read | .waitpid _ _ | .yield | .exit | .block =>
    isTrue trivial

theorem mayWait_live (s : ProcState) (h : MayWait s) : Live s := by
  rcases h with rfl | rfl <;> simp [Live]

theorem Sane.step {e : Event} (h : Sane MayWait k xs) (hok : Orderly k e) (hl : ToLive k e)
    (hs : k.step e = some k') : Next MayWait (e = .exit) k k' := by
  have w := waiting_mayWait
  have hS := mayWait_live
  simp only [Kernel.step] at hs
  split at hs
  · cases hs
  cases e with
  | tick u => cases hs; exact (h.tick w hS u).after
  | key => cases hs; exact (h.key w fun i hi => h.queued.off (hok i hi)).after
  | create entry alloc => cases hs; exact h.create w entry alloc
  | exec alloc loaded =>
    obtain ⟨self,hself,-,rfl⟩ := syscall_some hs
    exact h.exec w (h.same ▸ hself) alloc loaded
  | read =>
    obtain ⟨self,hself,-,rfl⟩ := syscall_some hs
    simp only [sysRead]
    split
    · have hstay : Moves MayWait k { k with kbd := k.kbd-1 } :=
        h.stay (fun _ => Follows.of_eq rfl) rfl
          ⟨h.queued.queue,h.queued.nodup,h.queued.inserted,h.queued.states⟩ rfl rfl
      exact hstay.after
    · split
      · exact h.same_state.after
      · exact (h.sleep (h.same ▸ hself) ⟨rfl,rfl,rfl⟩ fun _ => Or.inr rfl).after
  | waitpid pid nohang =>
    obtain ⟨self,hself,-,rfl⟩ := syscall_some hs
    exact h.waitpid w hS (h.same ▸ hself) (fun _ => Or.inr rfl) pid nohang
  | yield => cases hs; exact (h.yield w hS).after
  | exit => cases hs; exact h.exit w hS rfl fun c hc parent ha => h.queued.off (hok c hc parent ha)
  | switchTo next => cases hs; exact (h.switchTo w hl fun hp => h.queued.off (hok hp)).after
  | block =>
    obtain ⟨self,hself,-,rfl⟩ := block_some hs
    exact (h.sleep (h.same ▸ hself) ⟨rfl,rfl,rfl⟩ fun _ => Or.inr rfl).after

theorem boot_sane (S : ProcState → Prop) (shell : Option Slot) : Sane S (boot shell) [] where
  queued := boot_queued S shell
  same := rfl
  current c hc := by
    obtain rfl : (0 : Slot) = c := by simpa [boot] using hc
    simp [boot,Live]
  registry := by
    have hused (p : Slot) (hp : (boot shell).state p ≠ .unused) : p = 0 := by
      by_contra hne
      simp [boot,hne] at hp
    refine ⟨fun p q hp hq _ => by rw [hused p hp,hused q hq],fun p hp => ?_,le_rfl,fun p hp _ => ?_⟩
    · rw [hused p hp]
      simp [boot]
    · rw [hused p hp]
      simp [boot,Live]

end Sched
end DonsOs
