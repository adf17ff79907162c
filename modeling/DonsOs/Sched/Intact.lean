import DonsOs.Sched.Books

/-! What a step leaves alone.
A process that is interrupted inside a call relies on its own PCB and on the one it has in hand.
`Survives` lists what it may rely on; each scheduling function is shown once to respect it, and
every other step touches a single PCB. -/
namespace DonsOs
namespace Sched

open LinkedQueue Table

variable {k k' : Kernel} {xs ys : List Slot} {c next p q : Slot}

/-- A PCB that no scheduling decision can reach. -/
structure Still (k : Kernel) (q : Slot) : Prop where
  state : k.state q = .ready ∨ k.state q = .unused
  off : k.inserted q = false
  away : k.current ≠ some q
  notIdle : k.state q ≠ .unused → k.pid q ≠ 1

theorem Still.of_pool (h : Still k q) (hp : k'.pool q = k.pool q) (hi : k'.inserted q = false)
    (hc : k'.current ≠ some q) : Still k' q where
  state := by simpa only [Kernel.state,hp] using h.state
  off := hi
  away := hc
  notIdle := by simpa only [Kernel.state,Kernel.pid,hp] using h.notIdle

theorem Queued.inserted_eq_false {S : ProcState → Prop} (h : Queued S k xs) :
    k.inserted q = false ↔ q ∉ xs := by
  rw [← h.inserted q,Bool.not_eq_true]

/-- What the owner of the PCB in slot `q`, or of a pointer to it, may rely on. -/
structure Survives (k k' : Kernel) (q : Slot) : Prop where
  still : Still k q → k'.pool q = k.pool q ∧ Still k' q
  live : k.current ≠ some q → Live (k.state q) → Live (k'.state q) ∧ k'.pid q = k.pid q
  child : k.state q ≠ .unused → (k.pool q).parentPid ≠ 0 →
    k'.state q ≠ .unused ∧ (k'.pool q).parentPid = (k.pool q).parentPid
  zombie : k.state q = .zombie → k'.state q = .zombie ∧ k'.pid q = k.pid q ∧
    (k'.pool q).parentPid = (k.pool q).parentPid

theorem Follows.survives (h : Follows k k' q)
    (hs : Still k q → k'.pool q = k.pool q ∧ Still k' q) : Survives k k' q where
  still := hs
  live _ hl := ⟨h.live.mpr hl,h.pid⟩
  child hu _ := ⟨h.used.mpr hu,h.parentPid⟩
  zombie hz := ⟨(h.dead (by simp [Live,hz])).trans hz,h.pid,h.parentPid⟩

theorem survives_of_pool (hp : k'.pool q = k.pool q) (hc : k'.current = k.current)
    (hi : k'.inserted q = k.inserted q) : Survives k k' q :=
  (Follows.of_eq hp).survives fun hs => ⟨hp,hs.of_pool hp (hi.trans hs.off) (hc ▸ hs.away)⟩

/-- An intact kernel whose current process is off the queue. -/
structure Intact (k : Kernel) (xs : List Slot) : Prop where
  sane : Sane IsReady k xs
  off : Off k

/-! Switches. -/

theorem Handover.still (hh : Handover IsReady k k' xs next ys) (h : Queued IsReady k xs) (hs : Still k q)
    (hne : q ≠ next) : k'.pool q = k.pool q ∧ Still k' q := by
  have hpool : k'.pool q = k.pool q := by
    rcases hh.others q hne with he | ⟨hc,-⟩
    · rw [hh.frame q,he]
    · exact absurd hc hs.away
  refine ⟨hpool,hs.of_pool hpool (hh.queued.inserted_eq_false.mpr fun hm => ?_) ?_⟩
  · rcases hh.joined q hm with hx | ⟨hc,-⟩
    · exact h.inserted_eq_false.mp hs.off hx
    · exact hs.away hc
  · rw [hh.current]
    exact fun e => hne (Option.some.inj e).symm

theorem Intact.handover (h : Intact k xs) (hh : Handover IsReady k k' xs next ys)
    (hn : Live (k.state next)) : Intact k' ys := by
  obtain ⟨_,_,_,hs⟩ := h.sane.handover hh hn
  exact ⟨⟨hh.queued,hs.same,hs.current,hs.registry⟩,Off.handover hh⟩

/-- The CPU may have changed hands. -/
structure Passes (k k' : Kernel) : Prop where
  intact : ∃ ys, Intact k' ys
  follows : ∀ q, Follows k k' q
  still : ∀ q, Still k q → k'.pool q = k.pool q ∧ Still k' q
  nextPid : k'.nextPid = k.nextPid
  arrives : ∀ q, k'.current = some q → k.current = some q ∨ k'.state q = .running

theorem Passes.survives (h : Passes k k') (q : Slot) : Survives k k' q :=
  (h.follows q).survives (h.still q)

theorem Handover.arrives (hh : Handover IsReady k k' xs next ys) (q : Slot)
    (hq : k'.current = some q) : k'.state q = .running := by
  rw [← Option.some.inj (hh.current.symm.trans hq)]
  exact hh.running

theorem Intact.passes (h : Intact k xs) (hh : Handover IsReady k k' xs next ys)
    (hn : next ∈ xs ∨ processFindByPid k 1 = some next) : Passes k k' := by
  have hl : Live (k.state next) := by
    rcases hn with hm | hi
    · exact isReady_live _ (h.sane.queued.states next hm)
    · exact h.sane.registry.idle_live hi
  refine ⟨⟨ys,h.handover hh hl⟩,hh.follows hl,fun q hs => hh.still h.sane.queued hs ?_,hh.nextPid,
    fun q hq => Or.inr (hh.arrives q hq)⟩
  rintro rfl
  rcases hn with hm | hi
  · exact h.sane.queued.inserted_eq_false.mp hs.off hm
  · exact hs.notIdle (findByPid_spec hi).2 (findByPid_spec hi).1

theorem Intact.tick (h : Intact k xs) (u : Bool) :
    timerPreemptHandler k u = k ∨ Passes k (timerPreemptHandler k u) ∧
      ∀ q, (timerPreemptHandler k u).current = some q →
        (timerPreemptHandler k u).state q = .running := by
  rcases tick_handover waiting_isReady h.sane.queued h.sane.same u with he | ⟨next,ys,hh,hn⟩
  · exact Or.inl he
  · exact Or.inr ⟨h.passes hh hn,hh.arrives⟩

theorem Intact.switchTo (h : Intact k xs) (hn : Live (k.state next)) (hp : k.pid next ≠ 1) :
    schedulerSwitchTo k next = k ∨
      ∃ ys, Handover IsReady k (schedulerSwitchTo k next) xs next ys ∧
        Intact (schedulerSwitchTo k next) ys := by
  rcases switchTo_handover waiting_isReady h.sane.queued fun he => absurd he hp with he | ⟨ys,hh⟩
  · exact Or.inl he
  · exact Or.inr ⟨ys,hh,h.handover hh hn⟩

/-- A process that yields and keeps the CPU has left the queue again. -/
theorem yield_off (h : Intact k xs) (hc : k.current = some c) (hr : k.state c ≠ .ready)
    (hstay : (processYield k).current = some c) : (processYield k).inserted c = false := by
  have hin := h.off c hc
  by_cases hp : k.pid c = 1
  · simpa [processYield,hc,hp] using hin
  have hre := h.sane.queued.requeue_current waiting_isReady hc
  simp only [processYield,hc,if_neg hp,← requeue_of_ne hp] at hstay ⊢
  cases hz : xs++outgoing k with
  | nil =>
    have hrun : k.state c ≠ .running := by
      intro hr
      have hout := (List.append_eq_nil_iff.mp hz).2
      simp [outgoing,hc,hr,hp] at hout
    have hk : requeue k c = k := by simp only [requeue,if_neg hrun]
    rw [hz,hk] at hre
    rw [hk,hre.next_nil] at hstay ⊢
    simp only [if_neg hr] at hstay ⊢
    cases hi : processFindByPid k 1 with
    | none => exact hin
    | some idle =>
      simp only [hi] at hstay ⊢
      rcases switchTo_cases k idle with he | ⟨-,he⟩
      · rwa [he]
      · rw [he,dispatch_current] at hstay
        exact absurd (Option.some.inj hstay ▸ (findByPid_spec hi).1) hp
  | cons x zs =>
    rw [hz] at hre
    obtain ⟨hpop,-,-⟩ := hre.next_cons
    rw [hpop] at hstay ⊢
    have hcur : (popped (requeue k c) x zs).current = some c := by simp [hc]
    have hx : x = c := by
      by_contra hne
      have hnot : ¬((popped (requeue k c) x zs).pid x = 1 ∧
          ((popped (requeue k c) x zs).current.any fun d =>
            (popped (requeue k c) x zs).state d = .running)) := by
        rintro ⟨-,hrun⟩
        rw [hcur] at hrun
        by_cases hr : (k.pool c).state = .running <;> simp [hr] at hrun
      have hd : schedulerSwitchTo (popped (requeue k c) x zs) x =
          dispatch (popped (requeue k c) x zs) x := by
        rw [schedulerSwitchTo,if_neg (by rw [hcur]; exact fun e => hne (Option.some.inj e).symm),
          if_neg hnot]
      simp only [hd,dispatch_current,Option.some.injEq] at hstay
      exact hne hstay
    subst hx
    have hself : schedulerSwitchTo (popped (requeue k x) x zs) x = popped (requeue k x) x zs := by
      rw [schedulerSwitchTo,if_pos hcur]
    simp only [hself]
    simp [popped]

theorem Intact.yield (h : Intact k xs) (hc : k.current = some c) (hr : k.state c ≠ .ready) :
    Passes k (processYield k) := by
  have hl := h.sane.current c hc
  rcases yield_handover waiting_isReady h.sane.queued with he | ⟨d,hd,-,⟨ys,ha⟩ | ⟨next,ys,hh,hn⟩⟩
  · rw [he]
    exact ⟨⟨xs,h⟩,fun q => Follows.of_eq rfl,fun q hs => ⟨rfl,hs⟩,rfl,fun q hq => Or.inl hq⟩
  · obtain rfl : c = d := Option.some.inj (hc.symm.trans hd)
    obtain ⟨_,_,_,hs⟩ := h.sane.yield waiting_isReady isReady_live
    refine ⟨⟨ys,⟨ha.queued,hs.same,hs.current,hs.registry⟩,fun d hd => ?_⟩,ha.follows hl,
      fun q hs => ?_,ha.nextPid,fun q hq => Or.inl (ha.current ▸ hq)⟩
    · obtain rfl : c = d := Option.some.inj ((ha.current.trans hc).symm.trans hd)
      exact yield_off h hc hr hd
    · have hne : q ≠ c := fun e => hs.away (e ▸ hc)
      refine ⟨ha.others q hne,hs.of_pool (ha.others q hne)
        (ha.queued.inserted_eq_false.mpr fun hm => ?_) (ha.current ▸ hs.away)⟩
      rcases ha.joined q hm with hx | he
      · exact h.sane.queued.inserted_eq_false.mp hs.off hx
      · exact hne he
  · exact h.passes hh hn

/-! Exits. -/

/-- The process `c` has left, and somebody else has the CPU or the machine has halted. -/
structure Departs (k k' : Kernel) (c : Slot) : Prop where
  intact : ∃ ys, Intact k' ys
  others : ∀ q, q ≠ c → Follows k k' q
  still : ∀ q, Still k q → k'.pool q = k.pool q ∧ Still k' q
  self : (k.pool c).parentPid ≠ 0 ∧ k'.pool c = { k.pool c with state := .zombie } ∨
    (k.pool c).parentPid = 0 ∧ k'.state c = .unused
  nextPid : k'.nextPid = k.nextPid
  arrives : ∀ q, k'.current = some q → k'.state q = .running

theorem Departs.survives (h : Departs k k' c) (hc : k.current = some c) (hl : Live (k.state c))
    (q : Slot) : Survives k k' q := by
  by_cases hq : q = c
  · subst hq
    refine ⟨h.still q,fun hno => absurd hc hno,fun _ hpar => ?_,fun hz => ?_⟩
    · rcases h.self with ⟨-,he⟩ | ⟨h0,-⟩
      · exact ⟨by simp [he],by rw [he]⟩
      · exact absurd h0 hpar
    · rw [hz] at hl
      simp [Live] at hl
  · exact (h.others q hq).survives (h.still q)

theorem Left.follows (hl : Left k k' c xs ys) (hq : q ≠ c) : Follows k k' q := by
  rcases hl.others q hq with he | ⟨ha,-,he⟩
  · exact Follows.of_eq he
  · exact ⟨by simp [he],by rw [he],Or.inr ⟨by simp [Live,ha.2.1],by simp [Live,he]⟩⟩

theorem Left.still (hl : Left k k' c xs ys) (h : Intact k xs) (hy : Queued IsReady k' ys)
    (hc : k.current = some c) (hs : Still k q) : k'.pool q = k.pool q ∧ Still k' q := by
  have hnot (ha : Awaits k q (k.pool c)) : False := by
    rcases hs.state with he | he <;> cases he.symm.trans ha.2.1
  have hne : q ≠ c := fun e => hs.away (e ▸ hc)
  have hpool : k'.pool q = k.pool q := (hl.others q hne).resolve_right fun ha => hnot ha.1
  refine ⟨hpool,hs.of_pool hpool (hy.inserted_eq_false.mpr fun hm => ?_) (hl.current ▸ hs.away)⟩
  rcases hl.joined q hm with ⟨hx,-⟩ | ⟨ha,-⟩
  · exact h.sane.queued.inserted_eq_false.mp hs.off hx
  · exact hnot ha

theorem Left.departs {k₁ : Kernel} (hl : Left k k₁ c xs ys) (hi : ∃ zs, Intact k' zs)
    (hf : ∀ q, Follows k₁ k' q)
    (hframe : ∀ q, k'.pool q = { k₁.pool q with state := k'.state q })
    (hs : ∀ q, Still k q → k'.pool q = k.pool q ∧ Still k' q) (hn : k'.nextPid = k₁.nextPid)
    (hrun : ∀ q, k'.current = some q → k'.state q = .running) : Departs k k' c := by
  refine ⟨hi,fun q hq => (hl.follows hq).trans (hf q),hs,?_,hn.trans hl.nextPid,hrun⟩
  rcases hl.self with ⟨hpar,he⟩ | ⟨hpar,he⟩
  · refine Or.inl ⟨hpar,?_⟩
    rw [hframe c,(hf c).dead (by simp [he,Live])]
    simp [he]
  · exact Or.inr ⟨hpar,by rw [(hf c).dead (by simp [he,Live])]; simp [he]⟩

theorem Intact.exit (h : Intact k xs) (hc : k.current = some c) : Departs k (processExit k) c := by
  have hwait (d : Slot) (_ : k.current = some d) (parent : Slot)
      (ha : Awaits k parent (k.pool d)) : parent ∉ xs :=
    h.sane.queued.not_mem (by simp [IsReady,ha.2.1])
  have hsane : Next IsReady True k (processExit k) :=
    h.sane.exit waiting_isReady isReady_live trivial hwait
  obtain ⟨_,_,-,hs⟩ := hsane
  obtain ⟨ys,hy,hl,hcases⟩ := exit_handover waiting_isReady h.sane.queued hc (hwait c hc)
  have hstill (q : Slot) (hq : Still k q) := hl.still h hy hc hq
  rcases hcases with ⟨next,zs,rfl,hh⟩ | ⟨rfl,⟨-,heq⟩ | ⟨shell,-,hb,hh⟩⟩
  · have hn : Live ((leave k c).state next) := isReady_live _ (hy.states next (by simp))
    refine hl.departs ⟨zs,⟨hh.queued,hs.same,hs.current,hs.registry⟩,Off.handover hh⟩
      (hh.follows hn) hh.frame (fun q hq => ?_) hh.nextPid hh.arrives
    obtain ⟨hp,hq'⟩ := hstill q hq
    have hne : q ≠ next := by
      rintro rfl
      exact hy.inserted_eq_false.mp hq'.off (by simp)
    obtain ⟨hp',hq'⟩ := hh.still hy hq' hne
    exact ⟨hp'.trans hp,hq'⟩
  · have hr := hy.reset
    rw [heq] at hs ⊢
    refine hl.departs ⟨[],⟨⟨hr.queue,hr.nodup,hr.inserted,hr.states⟩,hs.same,hs.current,
      hs.registry⟩,fun d hd => ?_⟩ (fun q => Follows.of_eq rfl) (fun q => rfl) (fun q hq => ?_) rfl
      fun d hd => ?_
    · simp [schedulerReset] at hd
    · obtain ⟨hp,hq'⟩ := hstill q hq
      exact ⟨hp,hq'.of_pool rfl rfl (by simp [schedulerReset])⟩
    · simp [schedulerReset] at hd
  · have hn : Live ((schedulerReset (leave k c)).state shell) := Or.inr (Or.inr hb)
    refine hl.departs ⟨[],⟨hh.queued,hs.same,hs.current,hs.registry⟩,Off.handover hh⟩
      (fun q => ?_) hh.frame (fun q hq => ?_) hh.nextPid hh.arrives
    · have hf := hh.follows hn q
      exact ⟨hf.pid,hf.parentPid,hf.state⟩
    · obtain ⟨hp,hq'⟩ := hstill q hq
      have hne : q ≠ shell := by
        rintro rfl
        rcases hq'.state with he | he <;> cases he.symm.trans hb
      obtain ⟨hp',hq'⟩ := hh.still hy.reset
        (hq'.of_pool rfl rfl (by simp [schedulerReset])) hne
      exact ⟨hp'.trans hp,hq'⟩

/-! Steps that touch one PCB. -/

/-- The table with one PCB changed: it is free, or carries a number of its own. -/
theorem Registry.put (h : Registry k) (hpool : ∀ q, q ≠ p → k'.pool q = k.pool q)
    (hn : k.nextPid ≤ k'.nextPid)
    (hp : k'.state p ≠ .unused → 1 < k'.pid p ∧ k'.pid p < k'.nextPid ∧
      ∀ q, q ≠ p → k.state q ≠ .unused → k.pid q ≠ k'.pid p) : Registry k' where
  unique q r hq hr he := by
    by_cases hqp : q = p <;> by_cases hrp : r = p
    · rw [hqp,hrp]
    · subst hqp
      simp only [Kernel.state,Kernel.pid,hpool r hrp] at hr he
      exact absurd he.symm ((hp hq).2.2 r hrp hr)
    · subst hrp
      simp only [Kernel.state,Kernel.pid,hpool q hqp] at hq he
      exact absurd he ((hp hr).2.2 q hqp hq)
    · simp only [Kernel.state,Kernel.pid,hpool q hqp,hpool r hrp] at hq hr he
      exact h.unique q r hq hr he
  range q hq := by
    by_cases hqp : q = p
    · subst hqp
      have := hp hq
      omega
    · simp only [Kernel.state,Kernel.pid,hpool q hqp] at hq ⊢
      have := h.range q hq
      simp only [Kernel.pid] at this
      omega
  fresh := h.fresh.trans hn
  idle q hq he := by
    by_cases hqp : q = p
    · subst hqp
      have := (hp hq).1
      omega
    · simp only [Kernel.state,Kernel.pid,hpool q hqp] at hq he ⊢
      exact h.idle q hq he

/-- A step that switches nothing and touches only the PCB in slot `p`, which is not running. -/
structure Puts (k k' : Kernel) (p : Slot) : Prop where
  pool : ∀ q, q ≠ p → k'.pool q = k.pool q
  inserted : ∀ q, q ≠ p → k'.inserted q = k.inserted q
  current : k'.current = k.current
  procCurrent : k'.procCurrent = k.procCurrent
  away : k.current ≠ some p

theorem Puts.survives (h : Puts k k' p) (hq : q ≠ p) : Survives k k' q :=
  survives_of_pool (h.pool q hq) h.current (h.inserted q hq)

theorem Puts.intact (hs : Puts k k' p) (h : Intact k xs) (hq : Queued IsReady k' ys)
    (hn : k.nextPid ≤ k'.nextPid)
    (hp : k'.state p ≠ .unused → 1 < k'.pid p ∧ k'.pid p < k'.nextPid ∧
      ∀ q, q ≠ p → k.state q ≠ .unused → k.pid q ≠ k'.pid p) : Intact k' ys := by
  have hne (c : Slot) (hc : k'.current = some c) : k.current = some c ∧ c ≠ p := by
    rw [hs.current] at hc
    exact ⟨hc,fun e => hs.away (e ▸ hc)⟩
  refine ⟨⟨hq,by rw [hs.procCurrent,hs.current,h.sane.same],fun c hc => ?_,
    h.sane.registry.put hs.pool hn hp⟩,fun c hc => ?_⟩
  · obtain ⟨hc,hcp⟩ := hne c hc
    simp only [Kernel.state,hs.pool c hcp]
    exact h.sane.current c hc
  · obtain ⟨hc,hcp⟩ := hne c hc
    rw [hs.inserted c hcp]
    exact h.off c hc

end Sched
end DonsOs
