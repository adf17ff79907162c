import DonsOs.Sched.Spawn

/-! No program runs before it is loaded.
`process_create` itself puts the new PCB on the ready queue; its callers take it off again before
they load the program.  A tick between the two, or one that lets two processes pick the same PCB,
makes the child current with nothing behind its entry point. -/
namespace DonsOs
namespace Sched

open LinkedQueue Run

variable {k : Kernel} {w w' : Tasks} {c child q : Slot} {caller : Caller} {sp : SpawnPc}

/-- Whoever is current, for either file, has its program loaded and its frame written. -/
def RunsLoaded (w : Tasks) : Prop :=
  ∀ p, w.kernel.current = some p ∨ w.kernel.procCurrent = some p →
    ∀ i, w.image p = some i → i = .complete

/-- The frame that `process_create` builds is the one the program starts with, unless `sys_exec`
writes it again. -/
def Caller.built (caller : Caller) : ChildImage :=
  if caller = .exec then ⟨false,false,false,false⟩ else ⟨false,true,true,true⟩

/-- What has been done for the child at each point. -/
def ImageStage (caller : Caller) (i : Option ChildImage) : SpawnPc → Prop
  | .picked | .dropping | .destroying => True
  | .wiped | .numbered _ | .initialized | .prepared => i = caller.image ⟨false,false,false,false⟩
  | .queued | .removed => i = caller.image caller.built
  | .loaded _ => i = caller.image { caller.built with loaded := true }
  | .framed _ => i = caller.image ⟨true,caller ≠ .exec,true,true⟩
  | .entered | .adopted | .launched | .switching => i = caller.image .complete

structure Loads (w : Tasks) : Prop where
  image : ∀ q i, w.image q = some i → i = .complete ∨ Still w.kernel q ∨
    ∃ p caller, w.pc p = .spawning caller q .queued
  stage : ∀ p caller c sp, w.pc p = .spawning caller c sp → ImageStage caller (w.image c) sp

theorem Loads.runsLoaded (h : Loads w) (hs : Sound w.kernel w.pc) : RunsLoaded w := by
  intro p hp i hi
  obtain ⟨xs,hk⟩ := hs.intact
  have hcur : w.kernel.current = some p := hp.elim id fun hp => hk.sane.same ▸ hp
  rcases h.image p i hi with he | hst | ⟨q,caller,hq⟩
  · exact he
  · exact absurd hcur hst.away
  · -- the process that has just queued it is the one that runs
    have hqc := hs.critical q (by rw [hq]; rfl)
    obtain rfl : q = p := Option.some.inj (hqc.symm.trans hcur)
    cases (hs.unborn q caller q .queued hq fun hb => by cases hb.2).symm.trans hq

theorem Loads.aside (h : Loads w) {pc' : TaskPc} (hw' : w'.pc = Function.update w.pc c pc')
    (himg : w'.image = w.image) (hstill : ∀ q, Still w.kernel q → Still w'.kernel q)
    (hpc : ∀ caller d sp, w.pc c ≠ .spawning caller d sp)
    (hpc' : ∀ caller d sp, pc' = .spawning caller d sp → sp = .picked) : Loads w' where
  image q i hi := by
    rw [himg] at hi
    rcases h.image q i hi with he | hst | ⟨p,caller,hp⟩
    · exact Or.inl he
    · exact Or.inr (Or.inl (hstill q hst))
    · have hne : p ≠ c := fun e => hpc caller q .queued (e ▸ hp)
      exact Or.inr (Or.inr ⟨p,caller,by rw [hw',Function.update_of_ne hne,hp]⟩)
  stage p caller d sp hp := by
    rw [himg]
    by_cases hne : p = c
    · subst hne
      rw [hw',Function.update_self] at hp
      cases hpc' caller d sp hp
      trivial
    · rw [hw',Function.update_of_ne hne] at hp
      exact h.stage p caller d sp hp

theorem Loads.hand (h : Loads w) (hs : Sound w.kernel w.pc) (hc : w.kernel.current = some c)
    (hpc : w.pc c = .spawning caller child sp) {pc' : TaskPc}
    (hw' : w'.pc = Function.update w.pc c pc')
    (hstill : ∀ q, q ≠ child → Still w.kernel q → Still w'.kernel q)
    (himg : ∀ q, q ≠ child → w'.image q = w.image q)
    (hchild : ∀ i, w'.image child = some i → i = .complete ∨ Still w'.kernel child ∨
      pc' = .spawning caller child .queued)
    (hstage : ∀ caller' d sp', pc' = .spawning caller' d sp' →
      ImageStage caller' (w'.image d) sp') : Loads w' where
  image q i hi := by
    by_cases hq : q = child
    · subst hq
      rcases hchild i hi with he | hst | he
      · exact Or.inl he
      · exact Or.inr (Or.inl hst)
      · exact Or.inr (Or.inr ⟨c,caller,by rw [hw',Function.update_self,he]⟩)
    · rw [himg q hq] at hi
      rcases h.image q i hi with he | hst | ⟨p,caller',hp⟩
      · exact Or.inl he
      · exact Or.inr (Or.inl (hstill q hq hst))
      · have hpc' := hs.critical p (by rw [hp]; rfl)
        obtain rfl : p = c := Option.some.inj (hpc'.symm.trans hc)
        cases hp.symm.trans hpc
        exact absurd rfl hq
  stage p caller' d sp' hp := by
    rw [hw'] at hp
    by_cases hpc' : p = c
    · subst hpc'
      rw [Function.update_self] at hp
      exact hstage caller' d sp' hp
    · rw [Function.update_of_ne hpc'] at hp
      have hd : d ≠ child := by
        rintro rfl
        exact hpc' (hs.apart p c d (by rw [hp]; rfl) (by rw [hpc]; rfl))
      rw [himg d hd]
      exact h.stage p caller' d sp' hp

theorem Intact.free_still {xs : List Slot} (h : Intact k xs) (hu : k.state q = .unused) : Still k q where
  state := Or.inr hu
  off := h.sane.queued.inserted_eq_false.mpr (h.off_queue (by rw [hu]; decide))
  away hc := (h.sane.current q hc).used hu
  notIdle hno := absurd hu hno

/-- A child that can be reached is on the queue. -/
theorem Sound.child_reach {pc : Slot → TaskPc} (h : Sound k pc)
    (hpc : pc c = .spawning caller child sp) :
    sp = .queued ∨ sp = .launched ∨ sp = .switching ∨ Still k child := by
  obtain ⟨xs,hi⟩ := h.intact
  have hst := h.stage c
  rw [hpc] at hst
  cases sp with
  | picked | dropping | destroying => exact Or.inr (Or.inr (Or.inr (hi.free_still hst)))
  | wiped | numbered _ | initialized => exact Or.inr (Or.inr (Or.inr (hi.free_still hst.1)))
  | prepared | removed | loaded _ | framed _ | entered | adopted =>
    exact Or.inr (Or.inr (Or.inr hst.1))
  | queued => exact Or.inl rfl
  | launched => exact Or.inr (Or.inl rfl)
  | switching => exact Or.inr (Or.inr (Or.inl rfl))

theorem Caller.image_map (caller : Caller) (i : ChildImage) (f : ChildImage → ChildImage) :
    (caller.image i).map f = caller.image (f i) := by
  simp only [Caller.image]
  split <;> rfl

theorem complete_of_image {i : ChildImage} {o : Option ChildImage} (ho : o = caller.image .complete)
    (hi : o = some i) : i = .complete := by
  rw [ho,Caller.image] at hi
  split at hi
  · cases hi
  · exact (Option.some.inj hi).symm

section

variable (h : Loads w) (hs : Sound w.kernel w.pc) (hc : w.kernel.current = some c)
include h hs hc

theorem Loads.handStep (hpc : w.pc c = .spawning caller child sp) (a : Answer) (hl : sp ≠ .launched)
    (hsw : sp ≠ .switching) : Loads (w.spawnStep c caller child a sp) := by
  obtain ⟨hp,hs'⟩ := hs.handStep hc hpc a hl hsw
  have himage := h.stage c caller child sp hpc
  have hreach := hs.child_reach hpc
  generalize ht : w.spawnStep c caller child a sp = t at hp hs'
  have hstill (q : Slot) (hq : q ≠ child) (hst : Still w.kernel q) : Still t.kernel q :=
    ((hp.survives hq).still hst).2
  have hgo {sp' : SpawnPc} (hpc' : t.pc = Function.update w.pc c (.spawning caller child sp'))
      (himg : ∀ q, q ≠ child → t.image q = w.image q)
      (hstage : ImageStage caller (t.image child) sp') : Loads t := by
    refine h.hand hs hc hpc hpc' hstill himg (fun i hi => ?_) fun caller' d sp'' he => ?_
    · have hr := hs'.child_reach (c:=c) (by rw [hpc',Function.update_self])
      rcases hr with rfl | rfl | rfl | hst
      · exact Or.inr (Or.inr rfl)
      · exact Or.inl (complete_of_image hstage hi)
      · exact Or.inl (complete_of_image hstage hi)
      · exact Or.inr (Or.inl hst)
    · cases he
      exact hstage
  have hout (hpc' : t.pc = Function.update w.pc c .out)
      (himg : t.image = w.image)
      (hchild : ∀ i, w.image child = some i → i = .complete ∨ Still t.kernel child) : Loads t := by
    refine h.hand hs hc hpc hpc' hstill (fun q _ => by rw [himg]) (fun i hi => ?_)
      fun caller' d sp'' he => by cases he
    rw [himg] at hi
    exact (hchild i hi).imp_right Or.inl
  have hset {sp' : SpawnPc} {f : ChildImage → ChildImage} {i : ChildImage} (hpc' : t.pc = Function.update w.pc c
      (.spawning caller child sp')) (himg : t.image = Function.update w.image child
        ((w.image child).map f)) (hi : w.image child = caller.image i)
      (hstage : ImageStage caller (caller.image (f i)) sp') : Loads t := by
    refine hgo hpc' (fun q hq => by rw [himg,Function.update_of_ne hq]) ?_
    rwa [himg,Function.update_self,hi,Caller.image_map]
  have hdestroy (hst : Still w.kernel child) (he : t =
      if w.kernel.state child = .unused then w.goto c .out
      else (w.setKernel (w.kernel.setState child .unused)).goto c
        (.spawning caller child .destroying)) : Loads t := by
    split at he
    · subst he
      exact hout rfl rfl fun _ _ => Or.inr hst
    · subst he
      exact hgo rfl (fun _ _ => rfl) trivial
  cases sp with
  | picked =>
    subst ht
    exact hgo rfl (fun q hq => Function.update_of_ne hq _ _) (Function.update_self _ _ _)
  | wiped =>
    subst ht
    exact hgo rfl (fun _ _ => rfl) himage
  | numbered n =>
    subst ht
    exact hgo rfl (fun _ _ => rfl) himage
  | initialized =>
    subst ht
    exact hgo rfl (fun _ _ => rfl) himage
  | prepared =>
    simp only [Tasks.spawnStep] at ht
    split at ht
    · subst ht
      exact hout rfl rfl fun _ _ => Or.inr (by simpa using hreach)
    · split at ht
      · subst ht
        exact hgo rfl (fun _ _ => rfl) trivial
      · subst ht
        refine hset rfl rfl himage ?_
        simp only [ImageStage,Caller.built]
  | dropping =>
    subst ht
    refine hout rfl rfl fun _ _ => Or.inr ?_
    obtain ⟨ys,hi⟩ := hs'.intact
    have hst := hs.stage c
    rw [hpc] at hst
    exact hi.free_still (by simpa [Tasks.spawnStep,TaskStage,ChildStage] using hst)
  | queued =>
    subst ht
    exact hgo rfl (fun _ _ => rfl) himage
  | removed =>
    have hst : Still w.kernel child := by simpa using hreach
    simp only [Tasks.spawnStep] at ht
    split at ht
    · rename_i he
      subst ht
      refine hgo rfl (fun _ _ => rfl) ?_
      rw [he] at himage ⊢
      exact himage
    · split at ht
      · subst ht
        exact hset rfl rfl himage rfl
      · split at ht
        · subst ht
          exact hout rfl rfl fun _ _ => Or.inr hst
        · exact hdestroy hst ht.symm
  | destroying =>
    subst ht
    refine hout rfl rfl fun _ _ => Or.inr ?_
    obtain ⟨ys,hi⟩ := hs'.intact
    have hst := hs.stage c
    rw [hpc] at hst
    exact hi.free_still (by simpa [Tasks.spawnStep,TaskStage,ChildStage] using hst)
  | loaded entry =>
    have hst : Still w.kernel child := by simpa using hreach
    simp only [Tasks.spawnStep] at ht
    split at ht
    · rename_i he
      split at ht
      · subst ht
        refine hset rfl rfl himage ?_
        simp [ImageStage,Caller.built,he]
      · exact hdestroy hst ht.symm
    · rename_i he
      subst ht
      refine hgo rfl (fun _ _ => rfl) ?_
      simpa [ImageStage,Caller.built,he] using himage
  | framed entry =>
    subst ht
    refine hset rfl rfl himage ?_
    by_cases he : caller = .exec <;> simp [ImageStage,ChildImage.complete,he]
  | entered =>
    simp only [Tasks.spawnStep] at ht
    split at ht
    · subst ht
      exact hgo rfl (fun _ _ => rfl) himage
    · split at ht
      · subst ht
        exact hout rfl rfl fun _ hi => Or.inl (complete_of_image himage hi)
      · subst ht
        exact hgo rfl (fun _ _ => rfl) himage
  | adopted =>
    subst ht
    exact hgo rfl (fun _ _ => rfl) himage
  | launched => exact absurd rfl hl
  | switching => exact absurd rfl hsw

theorem Loads.launchStep (hpc : w.pc c = .spawning caller child .launched) (a : Answer) :
    Loads (w.spawnStep c caller child a .launched) := by
  obtain ⟨xs,hi⟩ := hs.intact
  have himage := h.stage c caller child .launched hpc
  simp only [Tasks.spawnStep]
  split
  · exact h.hand hs hc hpc rfl (fun _ _ hst => hst) (fun _ _ => rfl)
      (fun i hi => Or.inl (complete_of_image himage hi)) fun _ _ _ he => by cases he
  · have hmark := (hi.mark hc (f:=fun d => { d with state := .blocked }) ⟨rfl,rfl⟩
      (by simp [Live])).2
    refine h.hand hs hc hpc rfl (fun q _ hst => ((hmark q).2.still hst).2) (fun _ _ => rfl)
      (fun i hi => Or.inl (complete_of_image himage hi)) fun caller' d sp he => ?_
    cases he
    exact himage

theorem Loads.switchStep (hpc : w.pc c = .spawning caller child .switching) (a : Answer) :
    Loads (w.spawnStep c caller child a .switching) := by
  obtain ⟨xs,hi⟩ := hs.intact
  have himage := h.stage c caller child .switching hpc
  have hst := hs.stage c
  rw [hpc] at hst
  refine h.hand hs hc hpc rfl (fun q hq hstill => ?_) (fun _ _ => rfl)
    (fun i hi => Or.inl (complete_of_image himage hi)) fun _ _ _ he => by cases he
  simp only [Tasks.spawnStep,goto_rest,setKernel_rest]
  rcases hi.switchTo (Or.inl hst.1) hst.2 with he | ⟨ys,hh,-⟩
  · rw [he]
    exact hstill
  · exact (hh.still hi.sane.queued hstill hq).2

theorem Loads.reapStep {wait : Wait} {rp : ReapPc} (hpc : w.pc c = .waiting wait rp) (a : Answer) :
    Loads (w.reapStep c wait a rp) := by
  obtain ⟨xs,hi⟩ := hs.intact
  have hst := hs.stage c
  rw [hpc] at hst
  have hnot (caller : Caller) (d : Slot) (sp : SpawnPc) : w.pc c ≠ .spawning caller d sp := by
    rw [hpc]
    exact fun he => by cases he
  have hgo {k' : Kernel} {rp' : ReapPc} (hstill : ∀ q, Still w.kernel q → Still k' q) :
      Loads ((w.setKernel k').goto c (.waiting wait rp')) :=
    h.aside rfl rfl hstill hnot fun _ _ _ he => by cases he
  have hsame {rp' : ReapPc} : Loads (w.goto c (.waiting wait rp')) := hgo fun _ hq => hq
  have hout : Loads (w.goto c .out) := h.aside rfl rfl (fun _ hq => hq) hnot fun _ _ _ he => by cases he
  have hmark {f : Pcb → Pcb} {rp' : ReapPc} (hf : (f (w.kernel.pool c)).pid = w.kernel.pid c ∧
      (f (w.kernel.pool c)).parentPid = (w.kernel.pool c).parentPid)
      (hl : Live (f (w.kernel.pool c)).state) :
      Loads ((w.setKernel (w.kernel.modify c f)).goto c (.waiting wait rp')) :=
    hgo fun q hq => (((hi.mark hc hf hl).2 q).2.still hq).2
  -- a PCB that is given up is out of reach afterwards
  have hfree {z : Slot} {f : Pcb → Pcb} {rp' : ReapPc} (hobj : (w.pc c).object = some z)
      (hz : ¬Live (w.kernel.state z)) (hf : (f (w.kernel.pool z)).state = .unused)
      (hrp : (TaskPc.waiting wait rp').object = some z ∨ (TaskPc.waiting wait rp').object = none)
      (hst' : ReapStage (w.kernel.modify z f) c rp') :
      Loads ((w.setKernel (w.kernel.modify z f)).goto c (.waiting wait rp')) := by
    obtain ⟨hp,hs'⟩ := hs.reaps hc hobj hz hf wait rp' hrp hst'
    obtain ⟨ys,hi'⟩ := hs'.intact
    refine hgo fun q hq => ?_
    by_cases hqz : q = z
    · subst hqz
      exact hi'.free_still (by simpa using hf)
    · exact ((hp.survives hqz).still hq).2
  cases rp with
  | scan pid live =>
    simp only [Tasks.reapStep]
    split
    · split <;> exact hsame
    · split
      · exact hout
      · exact hsame
  | look pid live d =>
    simp only [Tasks.reapStep]
    split
    · exact hsame
    · split
      · exact hsame
      · split <;> exact hsame
  | setBlocked => exact hmark (f:=fun d => { d with state := .blocked }) ⟨rfl,rfl⟩ (by simp [Live])
  | setKind => exact hmark ⟨rfl,rfl⟩ (hi.sane.current c hc)
  | setTarget => exact hmark ⟨rfl,rfl⟩ (hi.sane.current c hc)
  | yield => exact hgo fun q hq => ((hi.yield hc (hst hc)).still q hq).2
  | found z => exact hsame
  | noted z pid status =>
    simp only [Tasks.reapStep]
    split
    · exact hsame
    · exact hfree (by rw [hpc]; rfl) (by rw [hst.1]; simp [Live])
        (f:=fun d => { d with state := .unused }) rfl (Or.inl rfl) (by simp [ReapStage])
  | released z pid status =>
    have hu : w.kernel.state z = .unused := hst
    exact hfree (by rw [hpc]; rfl) (by rw [hu]; simp [Live]) (f:=fun d => { d with pid := 0 }) hu
      (Or.inr rfl) trivial
  | reaped pid status =>
    simp only [Tasks.reapStep]
    split
    · exact hout
    · exact h.aside rfl rfl (fun _ hq => hq) hnot fun _ _ _ he => by cases he

theorem Loads.advance {a : Answer} (hw' : w.advance c a = some w') : Loads w' := by
  simp only [Tasks.advance] at hw'
  split at hw'
  · cases hw'
  · rename_i hpc
    cases hw'
    exact h.aside rfl rfl (fun q hq => ((hs.exits hc).1.still q hq).2)
      (fun _ _ _ he => by cases hpc.symm.trans he) fun _ _ _ he => by cases he
  · rename_i caller child sp hpc
    cases hw'
    by_cases hl : sp = .launched
    · subst hl
      exact h.launchStep hs hc hpc a
    · by_cases hsw : sp = .switching
      · subst hsw
        exact h.switchStep hs hc hpc a
      · exact h.handStep hs hc hpc a hl hsw
  · rename_i hpc
    cases hw'
    exact h.reapStep hs hc hpc a

end

theorem Loads.step {e : TaskEvent} (h : Loads w) (hs : Sound w.kernel w.pc) (hok : Unbroken w e)
    (hw' : w.step e = some w') : Loads w' := by
  obtain ⟨xs,hi⟩ := hs.intact
  simp only [Tasks.step] at hw'
  split at hw'
  · cases hw'
  have hcall {self : Slot} {t : Tasks} {pc' : TaskPc} (hout : w.pc self = .out)
      (hk : t.kernel = w.kernel) (ht : t.pc = Function.update w.pc self pc') (himg : t.image = w.image)
      (hpc' : ∀ caller d sp, pc' = .spawning caller d sp → sp = .picked) : Loads t :=
    h.aside ht himg (fun q hq => by rwa [hk]) (fun _ _ _ he => by cases hout.symm.trans he) hpc'
  cases e with
  | tick u =>
    simp only at hw'
    split at hw'
    · cases hw'
    · rename_i hu
      cases hw'
      rcases hs.tick hu hok with he | ⟨-,hp,-⟩
      · rw [he]
        exact h
      · refine ⟨fun q i hq => ?_,h.stage⟩
        rcases h.image q i hq with he | hst | hq
        · exact Or.inl he
        · exact Or.inr (Or.inl (hp.still q hst).2)
        · exact Or.inr (Or.inr hq)
  | spawn caller =>
    obtain ⟨self,-,hout,-,rfl⟩ := call_some hw'
    split
    · exact h
    · refine hcall hout rfl rfl rfl fun _ _ _ he => ?_
      cases he
      rfl
  | waitpid pid nohang wantsStatus =>
    obtain ⟨self,-,hout,-,rfl⟩ := call_some hw'
    exact hcall hout rfl rfl rfl fun _ _ _ he => by cases he
  | exit status =>
    obtain ⟨self,-,hout,-,rfl⟩ := call_some hw'
    exact hcall hout rfl rfl rfl fun _ _ _ he => by cases he
  | advance a =>
    obtain ⟨self,hself,hw'⟩ := Option.bind_eq_some_iff.mp hw'
    rw [hi.sane.same] at hself
    exact h.advance hs hself hw'

theorem boot_loads : Loads Tasks.boot where
  image _ _ hi := by cases hi
  stage _ _ _ _ hp := by cases hp

/-- Where no tick takes the CPU away at a critical point, no program runs before it is loaded. -/
theorem program_runs_loaded (es : List TaskEvent) (hes : Admits Tasks.step Unbroken Tasks.boot es)
    (w : Tasks) (hrun : run Tasks.step Tasks.boot es = some w) : RunsLoaded w := by
  have hinv : Sound w.kernel w.pc ∧ Loads w := by
    refine run_invariant (fun w => Sound w.kernel w.pc ∧ Loads w) ?_ ⟨boot_sound,boot_loads⟩ hes hrun
    intro v e v' hv hok hstep
    exact ⟨hv.1.step hok hstep,hv.2.step hv.1 hok hstep⟩
  exact hinv.2.runsLoaded hinv.1

/-- Everything that is asked for is granted. -/
def Answer.yes : Answer := ⟨.ok,some userCodeBase,true,true⟩

def goOn (n : ℕ) : List TaskEvent := List.replicate n (.advance .yes)

/-- The user shell is started, and the first tick gives it the CPU. -/
def shellUp : List TaskEvent := .spawn .userShell::goOn 10++[.tick false]

/-- The shell is in `sys_exec`, and a tick arrives after `process_create` has queued the child. -/
def tickAfterQueue : List TaskEvent := shellUp++.spawn .exec::goOn 5++[.tick false]

theorem child_runs_unloaded :
    ∃ w, run Tasks.step Tasks.boot tickAfterQueue = some w ∧ w.kernel.current = some 2 ∧
      w.image 2 = some ⟨false,false,false,false⟩ ∧ ¬RunsLoaded w := by
  have hrun : (run Tasks.step Tasks.boot tickAfterQueue).map (fun w =>
      (w.kernel.current,w.image 2)) = some (some 2,some ⟨false,false,false,false⟩) := by
    decide +kernel
  obtain ⟨w,hw,he⟩ := Option.map_eq_some_iff.mp hrun
  simp only [Prod.mk.injEq] at he
  refine ⟨w,hw,he.1,he.2,fun hl => ?_⟩
  exact absurd (hl 2 (Or.inl he.1) _ he.2) (by decide)

/-- The same call with the tick after its end. -/
def tickAfterExec : List TaskEvent := shellUp++.spawn .exec::goOn 12++[.tick false]

theorem program_runs_loaded_exec : ∃ w, run Tasks.step Tasks.boot tickAfterExec = some w ∧
    w.kernel.current = some 2 ∧ w.image 2 = some .complete ∧ RunsLoaded w := by
  have hes : Admits Tasks.step Unbroken Tasks.boot tickAfterExec := by decide +kernel
  have hrun : (run Tasks.step Tasks.boot tickAfterExec).map (fun w => (w.kernel.current,w.image 2)) =
      some (some 2,some .complete) := by
    decide +kernel
  obtain ⟨w,hw,he⟩ := Option.map_eq_some_iff.mp hrun
  simp only [Prod.mk.injEq] at he
  exact ⟨w,hw,he.1,he.2,program_runs_loaded tickAfterExec hes w hw⟩

end Sched
end DonsOs
