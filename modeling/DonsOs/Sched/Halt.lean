import DonsOs.Sched.Effect

/-! When the machine stops for good.
`process_exit` stops the machine when the ready queue is empty and no kernel shell can take
over.  A process asleep in `sys_read` is on no queue, so it is forgotten unless the exit wakes
a parent or leaves somebody else to run. -/
namespace DonsOs
namespace Sched

open LinkedQueue Run

variable {S : ProcState → Prop} {k k' : Kernel} {xs ys : List Slot} {c next p : Slot}

/-- Nobody but idle can run, now or after a key press. -/
def Deserted (k : Kernel) : Prop :=
  ∀ p, k.pid p ≠ 1 → k.state p ≠ .ready ∧ k.state p ≠ .running ∧ ¬Sleeping k p

/-- Whoever is ready is queued, and whoever runs is current. -/
structure Alert (k : Kernel) : Prop where
  ready : ∀ p, k.pid p ≠ 1 → k.state p = .ready → k.inserted p = true
  running : ∀ p, k.pid p ≠ 1 → k.state p = .running → k.current = some p

theorem Alert.handover (w : Waiting S) (h : Alert k) (hq : Queued S k xs)
    (hh : Handover S k k' xs next ys) : Alert k' where
  ready p hp hr := by
    rw [hh.pid p] at hp
    have hne : p ≠ next := by
      rintro rfl
      simp [hh.running] at hr
    refine (hh.queued.inserted p).mpr ?_
    rcases hh.others p hne with he | ⟨hc,hrun,-⟩
    · exact hh.kept p ((hq.inserted p).mp (h.ready p hp (he ▸ hr))) hne
    · exact hh.requeued p hc hne hrun hp
  running p hp hr := by
    rw [hh.pid p] at hp
    by_cases hne : p = next
    · rw [hne,hh.current]
    · rcases hh.others p hne with he | ⟨-,-,hs⟩
      -- a process that ran and was switched away from is on the queue, hence not running
      · have hrun : k.state p = .running := he ▸ hr
        have hm := hh.requeued p (h.running p hp hrun) hne hrun hp
        exact absurd (hr ▸ hh.queued.states p hm) w.notRunning
      · rw [hs] at hr
        cases hr

theorem Alert.alone (h : Alert k) (hq : Queued S k xs) (ha : Alone S k k' xs c ys)
    (hb : k.state c = .blocked) : Alert k' := by
  have hc : k'.state c = .blocked := by
    rcases ha.state with he | ⟨hr,-⟩
    · rw [he,hb]
    · rw [hb] at hr
      cases hr
  refine ⟨fun p hp hr => ?_,fun p hp hr => ?_⟩
  · have hne : p ≠ c := by
      rintro rfl
      rw [hc] at hr
      cases hr
    rw [ha.pid p] at hp
    rw [Kernel.state,ha.others p hne] at hr
    exact (ha.queued.inserted p).mpr (ha.kept p ((hq.inserted p).mp (h.ready p hp hr)) hne)
  · have hne : p ≠ c := by
      rintro rfl
      rw [hc] at hr
      cases hr
    rw [ha.pid p] at hp
    rw [Kernel.state,ha.others p hne] at hr
    rw [ha.current]
    exact h.running p hp hr

theorem Alert.woken {is : List Slot} (h : Alert k) (hq : Queued S k xs)
    (hw : Woken S k k' is xs ys) : Alert k' where
  ready p hp hr := by
    refine (hw.queued.inserted p).mpr ?_
    rcases hw.pool p with ⟨he,-⟩ | ⟨-,hm,-⟩
    · simp only [Kernel.pid,Kernel.state,he] at hp hr
      exact hw.kept p ((hq.inserted p).mp (h.ready p hp hr))
    · exact hm
  running p hp hr := by
    rcases hw.pool p with ⟨he,-⟩ | ⟨-,-,he⟩
    · simp only [Kernel.pid,Kernel.state,he] at hp hr
      rw [hw.current]
      exact h.running p hp hr
    · simp [he] at hr

theorem Alert.change (h : Alert k) (hpool : ∀ q, q ≠ p → k'.pool q = k.pool q)
    (hins : ∀ q, q ≠ p → k'.inserted q = k.inserted q) (hcur : k'.current = k.current)
    (hr : k'.state p = .ready → k'.inserted p = true) (hrun : k'.state p ≠ .running) :
    Alert k' where
  ready q hq hs := by
    by_cases hqp : q = p
    · rw [hqp] at hs ⊢
      exact hr hs
    · simp only [Kernel.pid,Kernel.state,hpool q hqp] at hq hs
      rw [hins q hqp]
      exact h.ready q hq hs
  running q hq hs := by
    by_cases hqp : q = p
    · rw [hqp] at hs
      exact absurd hs hrun
    · simp only [Kernel.pid,Kernel.state,hpool q hqp] at hq hs
      rw [hcur]
      exact h.running q hq hs

theorem Alert.left (h : Alert k) (hq : Queued S k xs) (hq' : Queued S k' ys)
    (hc : k.current = some c) (hl : Left k k' c xs ys) :
    Alert k' ∧ ∀ p, k'.pid p ≠ 1 → k'.state p ≠ .running := by
  have hself : k'.state c ≠ .ready ∧ k'.state c ≠ .running := by
    rcases hl.self with ⟨-,he⟩ | ⟨-,he⟩ <;> simp [he]
  have hrun : ∀ p, k'.pid p ≠ 1 → k'.state p ≠ .running := by
    intro p hp hr
    have hne : p ≠ c := fun e => hself.2 (e ▸ hr)
    rcases hl.others p hne with he | ⟨-,-,he⟩
    · simp only [Kernel.pid,Kernel.state,he] at hp hr
      exact hne (Option.some.inj ((h.running p hp hr).symm.trans hc))
    · simp [he] at hr
  refine ⟨⟨fun p hp hr => (hq'.inserted p).mpr ?_,fun p hp hr => absurd hr (hrun p hp)⟩,hrun⟩
  have hne : p ≠ c := fun e => hself.1 (e ▸ hr)
  rcases hl.others p hne with he | ⟨-,hm,-⟩
  · simp only [Kernel.pid,Kernel.state,he] at hp hr
    exact hl.kept p ((hq.inserted p).mp (h.ready p hp hr)) hne
  · exact hm

/-- The exit of `c` leaves somebody to run, wakes its parent, hands over to the kernel shell,
or leaves no other process waiting for a key. -/
def Heard (k : Kernel) (c : Slot) : Prop :=
  (∃ q, q ≠ c ∧ k.inserted q = true) ∨ (∃ q, q ≠ c ∧ Awaits k q (k.pool c)) ∨
    (kernelBase ≤ (k.pool c).entryPoint ∧ ∃ shell, shell ≠ c ∧ k.kernelShell = some shell ∧
      k.state shell = .blocked) ∨
    ∀ q, q ≠ c → ¬Sleeping k q

instance (k : Kernel) (c : Slot) : Decidable (Heard k c) := inferInstanceAs (Decidable (_ ∨ _))

/-- The search by pid looks at nothing but pids and at which slots are in use. -/
theorem findByPid_congr (h : ∀ i, k'.pid i = k.pid i ∧ (k'.state i = .unused ↔ k.state i = .unused))
    (pid : ℕ) : processFindByPid k' pid = processFindByPid k pid := by
  simp only [processFindByPid]
  congr 1
  funext i
  simp only [(h i).1,ne_eq,(h i).2]

theorem Left.wakes (hr : Registry k) (hl : Left k k' c xs ys) {q : Slot} (hq : q ≠ c)
    (ha : Awaits k q (k.pool c)) (hu : k.state c ≠ .unused) : q ∈ ys := by
  refine hl.woken q ha.1 (waitingParent_of_awaits ?_ ?_)
  · have hfind := hr.find (p:=q) (by rw [ha.2.1]; decide)
    rw [findByPid_congr (k:=k) fun i => ?_]
    · simpa [hq] using hfind
    · by_cases hi : i = c
      · simpa [hi] using hu
      · simp [hi]
  · simpa [Awaits,hq] using ha

/-- An exit that is heard stops the machine only when it is deserted. -/
theorem Alert.deserted (h : Alert k) (hr : Registry k) (hq : Queued S k xs)
    (hq' : Queued S k' []) (hc : k.current = some c) (hl : Left k k' c xs [])
    (hu : k.state c ≠ .unused) (hheard : Heard k c)
    (hshell : ¬(kernelBase ≤ (k.pool c).entryPoint ∧ ∃ shell, k.kernelShell = some shell ∧
      k'.state shell = .blocked)) : Deserted k' := by
  obtain ⟨ha,hrun⟩ := h.left hq hq' hc hl
  intro p hp
  refine ⟨fun hready => ?_,hrun p hp,fun hsleep => ?_⟩
  · have hm := (hq'.inserted p).mp (ha.ready p hp hready)
    cases hm
  · have hne : p ≠ c := by
      rintro rfl
      have hb := hsleep.2.1
      rcases hl.self with ⟨-,he⟩ | ⟨-,he⟩ <;> simp [he] at hb
    have hsame (q : Slot) (hqc : q ≠ c) : k'.pool q = k.pool q :=
      (hl.others q hqc).resolve_right fun hw => by cases hw.2.1
    rcases hheard with ⟨q,hqc,hi⟩ | ⟨q,hqc,haw⟩ | ⟨hentry,shell,hsc,hs,hb⟩ | hnone
    · have hm := hl.kept q ((hq.inserted q).mp hi) hqc
      cases hm
    · have hm := hl.wakes hr hqc haw hu
      cases hm
    · exact hshell ⟨hentry,shell,hs,by rw [Kernel.state,hsame shell hsc]; exact hb⟩
    · refine hnone p hne ?_
      simpa only [Sleeping,Kernel.state,hsame p hne,hl.kernelShell] using hsleep

/-- The machine goes on, or has stopped with nobody left to wake. -/
inductive Watched (k : Kernel) : Prop
  | on (xs : List Slot) (hs : Sane MayWait k xs) (ha : Alert k) (hc : k.current ≠ none)
      (hon : k.halted = false)
  | off (hoff : k.halted = true) (hd : Deserted k)

theorem Watched.handover (hs : ∃ ys, Sane MayWait k' ys) (ha : Alert k) (hq : Queued MayWait k xs)
    (hh : Handover MayWait k k' xs next ys) (hon : k.halted = false) : Watched k' := by
  obtain ⟨zs,hz⟩ := hs
  exact .on zs hz (ha.handover waiting_mayWait hq hh) (by simp [hh.current]) (hh.halted.trans hon)

theorem Watched.exit (hs : Sane MayWait k xs) (ha : Alert k) (hon : k.halted = false)
    (hc : k.current = some c) (hp : ∀ parent, Awaits k parent (k.pool c) → parent ∉ xs)
    (hheard : Heard k c) (hs' : ∃ ys, Sane MayWait (processExit k) ys) :
    Watched (processExit k) := by
  obtain ⟨ys,hy,hl,hcases⟩ := exit_handover waiting_mayWait hs.queued hc hp
  have hleft := ha.left hs.queued hy hc hl
  rcases hcases with ⟨next,zs,-,hh⟩ | ⟨rfl,⟨hshell,he⟩ | ⟨shell,-,-,hh⟩⟩
  · exact Watched.handover hs' hleft.1 hy hh (hl.halted.trans hon)
  · have hd := ha.deserted hs.registry hs.queued hy hc hl (hs.current c hc).used hheard hshell
    rw [he]
    exact .off rfl hd
  · -- the queue has been reset, but nobody was ready
    have hreset : Alert (schedulerReset (leave k c)) := by
      refine ⟨fun p hpid hr => ?_,fun p hpid hr => absurd hr (hleft.2 p hpid)⟩
      have hm := (hy.inserted p).mp (hleft.1.ready p hpid hr)
      cases hm
    exact Watched.handover hs' hreset hy.reset hh (hl.halted.trans hon)

theorem Watched.yield (hs : Sane MayWait k xs) (ha : Alert k) (hon : k.halted = false)
    (hc : k.current = some c)
    (hok : k.state c ≠ .blocked → k.pid c ≠ 1 → ∃ x, k.queue.head = some x ∧ x ≠ c) :
    Watched (processYield k) := by
  have hs' : ∃ ys, Sane MayWait (processYield k) ys := by
    obtain ⟨ys,-,-,hy⟩ := hs.yield waiting_mayWait mayWait_live
    exact ⟨ys,hy⟩
  rcases yield_handover waiting_mayWait hs.queued with he | ⟨d,hd,hp,⟨ys,hal⟩ | ⟨next,ys,hh,-⟩⟩
  · rw [he]
    exact .on xs hs ha (by simp [hc]) hon
  · obtain rfl : c = d := Option.some.inj (hc.symm.trans hd)
    have hb : k.state c = .blocked := by
      by_contra hb
      obtain ⟨x,hx,hne⟩ := hok hb hp
      exact hne (hal.ahead x hx)
    obtain ⟨zs,hz⟩ := hs'
    exact .on zs hz (ha.alone hs.queued hal hb) (by simp [hal.current,hc]) (hal.halted.trans hon)
  · exact Watched.handover hs' ha hs.queued hh hon

/-- Exits are heard, yields find somebody else, and `process_create` does not run out of
pages for a user stack. -/
def Prompt (k : Kernel) : Event → Prop
  | .exit => ∀ c, k.current = some c → Heard k c
  | .yield => ∀ c, k.current = some c → k.state c ≠ .blocked → k.pid c ≠ 1 →
      ∃ x, k.queue.head = some x ∧ x ≠ c
  | .create entry alloc => ¬(entry ≠ 0 ∧ entry < kernelBase ∧ alloc = .noUserStack)
  | .exec alloc _ => alloc ≠ .noUserStack
  | _ => True

theorem Watched.change (hs : ∃ ys, Sane MayWait k' ys) (ha : Alert k) (hc : k.current ≠ none)
    (hon : k.halted = false) (hpool : ∀ q, q ≠ p → k'.pool q = k.pool q)
    (hins : ∀ q, q ≠ p → k'.inserted q = k.inserted q) (hcur : k'.current = k.current)
    (hoff : k'.halted = k.halted) (hr : k'.state p = .ready → k'.inserted p = true)
    (hrun : k'.state p ≠ .running) : Watched k' := by
  obtain ⟨ys,hy⟩ := hs
  exact .on ys hy (ha.change hpool hins hcur hr hrun) (hcur ▸ hc) (hoff.trans hon)

theorem Watched.filled {starved : Prop} {parent : ℕ} (hs : ∃ ys, Sane MayWait k' ys) (ha : Alert k)
    (hc : k.current ≠ none) (hon : k.halted = false)
    (hf : Filled MayWait starved k k' xs p parent ys) (hok : ¬starved) : Watched k' := by
  refine Watched.change (p:=p) hs ha hc hon hf.others hf.inserted hf.current hf.halted (fun hr => ?_)
    fun hr => ?_
  · rcases hf.fate with ⟨⟨hu,-⟩,-⟩ | ⟨-,rfl | ⟨hno,-⟩⟩
    · rw [hu] at hr
      cases hr
    · exact (hf.queued.inserted p).mpr (by simp)
    · exact absurd hno hok
  · rcases hf.fate with ⟨⟨hu,-⟩,-⟩ | ⟨⟨hu,-⟩,-⟩ <;> rw [hu] at hr <;> cases hr

section

variable (hs : Sane MayWait k xs) (ha : Alert k)
include hs ha

theorem Watched.create (hc : k.current ≠ none) (hon : k.halted = false) {entry : ℕ} {alloc : Alloc}
    (hok : ¬(entry ≠ 0 ∧ entry < kernelBase ∧ alloc = .noUserStack)) :
    Watched (processCreate k entry alloc).2 := by
  have hnext : Next MayWait False k (processCreate k entry alloc).2 :=
    hs.create waiting_mayWait entry alloc
  obtain ⟨-,ys,-,hy⟩ := hnext
  rcases create_filled waiting_mayWait hs.queued entry alloc with he | ⟨p,zs,hf⟩
  · rw [he]
    exact .on xs hs ha hc hon
  · exact Watched.filled ⟨ys,hy⟩ ha hc hon hf hok

theorem Watched.exec {self : Slot}
    (hc : k.current = some self) (hon : k.halted = false) {alloc : Alloc}
    (hok : alloc ≠ .noUserStack) (loaded : Option ℕ) : Watched (sysExec k self alloc loaded) := by
  have hnext : Next MayWait False k (sysExec k self alloc loaded) :=
    hs.exec waiting_mayWait hc alloc loaded
  obtain ⟨-,ys,-,hy⟩ := hnext
  rcases exec_filled waiting_mayWait hs.queued (hs.same.trans hc) (hs.current self hc).used alloc
    loaded with he | ⟨p,zs,hf⟩
  · rw [he]
    exact .on xs hs ha (by simp [hc]) hon
  · exact Watched.filled ⟨ys,hy⟩ ha (by simp [hc]) hon hf hok

theorem Watched.sleep (hc : k.current = some c) (hon : k.halted = false) {f : Pcb → Pcb}
    (hf : (f (k.pool c)).pid = k.pid c ∧ (f (k.pool c)).parentPid = (k.pool c).parentPid ∧
      (f (k.pool c)).state = .blocked) : Watched (k.modify c f) := by
  obtain ⟨ys,-,-,hy⟩ := hs.sleep hc hf fun _ => Or.inr rfl
  exact Watched.change (p:=c) ⟨ys,hy⟩ ha (by simp [hc]) hon (fun q hq => by simp [hq])
    (fun q hq => rfl) rfl rfl (by simp [hf.2.2]) (by simp [hf.2.2])

theorem Watched.waitpid {self : Slot}
    (hc : k.current = some self) (hon : k.halted = false) (pid : ℤ) (nohang : Bool) :
    Watched (sysWaitpid k self pid nohang) := by
  rcases waitScan_cases k self pid nohang with he | ⟨z,hz,he⟩ | ⟨-,he⟩ <;> simp only [sysWaitpid,he]
  · exact .on xs hs ha (by simp [hc]) hon
  · have hx : z ∉ xs := hs.queued.not_mem (by rw [hz]; exact waiting_mayWait.notZombie)
    have hnext : Next MayWait False k (processReclaim k z) := hs.reap hz hx
    obtain ⟨-,ys,-,hy⟩ := hnext
    rw [reclaim_eq (by rw [hz]; decide)] at hy ⊢
    exact Watched.change (p:=z) ⟨ys,hy⟩ ha (by simp [hc]) hon (fun q hq => by simp [hq])
      (fun q hq => rfl) rfl rfl (by simp) (by simp)
  · have hsleep := Watched.sleep hs ha hc hon
      (f:=fun c => { c with state := .blocked, blockKind := .waitpid, waitPid := waitTarget pid })
      ⟨rfl,rfl,rfl⟩
    cases hsleep with
    | on ys hy hal _ hon' => exact Watched.yield hy hal hon' hc fun hb => absurd (by simp) hb
    | off hoff _ =>
      simp only [modify_rest,hon] at hoff
      cases hoff

end

theorem Watched.step {e : Event} (h : Watched k) (hok : Orderly k e) (hlive : ToLive k e)
    (hp : Prompt k e) (hstep : k.step e = some k') : Watched k' := by
  cases h with
  | off hoff _ => simp [Kernel.step,hoff] at hstep
  | on xs hs ha hc hon =>
    obtain ⟨-,ys,-,hy⟩ := hs.step hok hlive hstep
    obtain ⟨c,hcur⟩ := Option.ne_none_iff_exists'.mp hc
    have w := waiting_mayWait
    simp only [Kernel.step,hon,Bool.false_eq_true,if_false] at hstep
    cases e with
    | tick u =>
      cases hstep
      rcases tick_handover w hs.queued hs.same u with he | ⟨next,zs,hh,-⟩
      · rw [he]
        exact .on xs hs ha hc hon
      · exact Watched.handover ⟨ys,hy⟩ ha hs.queued hh hon
    | key =>
      cases hstep
      obtain ⟨zs,hw⟩ := key_woken w hs.queued fun i hi => hs.queued.off (hok i hi)
      exact .on ys hy (ha.woken hs.queued hw) (hw.current ▸ hc) (hw.halted.trans hon)
    | create entry alloc =>
      cases hstep
      exact Watched.create hs ha hc hon hp
    | exec alloc loaded =>
      obtain ⟨self,hself,-,rfl⟩ := syscall_some hstep
      exact Watched.exec hs ha (hs.same ▸ hself) hon hp loaded
    | read =>
      obtain ⟨self,hself,-,rfl⟩ := syscall_some hstep
      simp only [sysRead] at hy ⊢
      split at hy
      · rename_i hk
        rw [if_pos hk]
        exact .on ys hy ⟨ha.ready,ha.running⟩ hc hon
      · rename_i hk
        rw [if_neg hk]
        split
        · exact .on xs hs ha hc hon
        · exact Watched.sleep hs ha (hs.same ▸ hself) hon ⟨rfl,rfl,rfl⟩
    | waitpid pid nohang =>
      obtain ⟨self,hself,-,rfl⟩ := syscall_some hstep
      exact Watched.waitpid hs ha (hs.same ▸ hself) hon pid nohang
    | yield =>
      cases hstep
      exact Watched.yield hs ha hon hcur (hp c hcur)
    | exit =>
      cases hstep
      exact Watched.exit hs ha hon hcur (fun q hq => hs.queued.off (hok c hcur q hq)) (hp c hcur)
        ⟨ys,hy⟩
    | switchTo next =>
      cases hstep
      rcases switchTo_handover w hs.queued fun hi => hs.queued.off (hok hi) with he | ⟨zs,hh⟩
      · rw [he]
        exact .on xs hs ha hc hon
      · exact Watched.handover ⟨ys,hy⟩ ha hs.queued hh hon
    | block =>
      obtain ⟨self,hself,-,rfl⟩ := block_some hstep
      exact Watched.sleep hs ha (hs.same ▸ hself) hon ⟨rfl,rfl,rfl⟩

/-- The events of runs in which no halt forgets a sleeper. -/
def Wakeful (k : Kernel) (e : Event) : Prop := Orderly k e ∧ ToLive k e ∧ Prompt k e

instance (k : Kernel) : (e : Event) → Decidable (Prompt k e)
  | .exit => inferInstanceAs (Decidable (∀ c, k.current = some c → Heard k c))
  | .yield => inferInstanceAs (Decidable (∀ c, k.current = some c → k.state c ≠ .blocked →
      k.pid c ≠ 1 → ∃ x, k.queue.head = some x ∧ x ≠ c))
  | .create entry alloc => inferInstanceAs (Decidable
      ¬(entry ≠ 0 ∧ entry < kernelBase ∧ alloc = .noUserStack))
  | .exec alloc _ => inferInstanceAs (Decidable (alloc ≠ .noUserStack))
  | .tick _ | .key | .read | .waitpid _ _ | .switchTo _ | .block => isTrue trivial

instance (k : Kernel) (e : Event) : Decidable (Wakeful k e) :=
  inferInstanceAs (Decidable (_ ∧ _))

/-- A shell starts a program in the background and asks for a key; the program exits. -/
def sleepingShell : List Event :=
  [.create userCodeBase .ok,.tick false,.exec .ok (some userCodeBase),.read,.tick false,.exit]

theorem sleeping_shell_forgotten :
    ∃ k, run Kernel.step (boot none) sleepingShell = some k ∧ k.halted = true ∧
      k.pid 1 ≠ 1 ∧ Sleeping k 1 := by
  have hfacts : (run Kernel.step (boot none) sleepingShell).map
      (fun k => decide (k.halted = true ∧ k.pid 1 ≠ 1 ∧ Sleeping k 1)) = some true := by
    decide +kernel
  obtain ⟨k,hk,hf⟩ := Option.map_eq_some_iff.mp hfacts
  exact ⟨k,hk,of_decide_eq_true hf⟩

theorem boot_alert (shell : Option Slot) : Alert (boot shell) := by
  constructor <;> intro p hp hs <;> by_cases h0 : p = 0 <;> simp [boot,h0] at hp hs

/-- In every run whose exits are heard, the machine halts only when nobody but idle can run
or be woken by a key. -/
theorem halts_only_deserted (shell : Option Slot) {es : List Event} {k : Kernel}
    (hes : Admits Kernel.step Wakeful (boot shell) es)
    (hrun : run Kernel.step (boot shell) es = some k) (hoff : k.halted = true) : Deserted k := by
  have hw := run_invariant Watched
    (fun _ _ _ hw hok hstep => hw.step hok.1 hok.2.1 hok.2.2 hstep)
    (Watched.on [] (boot_sane MayWait shell) (boot_alert shell) (by simp [boot]) rfl) hes hrun
  cases hw with
  | on _ _ _ _ hon =>
    rw [hon] at hoff
    cases hoff
  | off _ hd => exact hd

/-- The only process exits. -/
theorem halts_only_deserted_last :
    ∃ k, run Kernel.step (boot none) [.create userCodeBase .ok,.tick false,.exit] = some k ∧
      k.halted = true ∧ Deserted k := by
  have hes : Admits Kernel.step Wakeful (boot none)
      [.create userCodeBase .ok,.tick false,.exit] := by decide +kernel
  have hoff : (run Kernel.step (boot none)
      [.create userCodeBase .ok,.tick false,.exit]).map (fun k => k.halted) = some true := by
    decide +kernel
  obtain ⟨k,hk,hoff⟩ := Option.map_eq_some_iff.mp hoff
  exact ⟨k,hk,hoff,halts_only_deserted none hes hk hoff⟩

end Sched
end DonsOs
