import DonsOs.Sched.Handover

/-! Integrity of the ready queue along runs.
`scheduler_ready_queue_add` does not look whether its argument is already linked, so the
list stays well formed exactly as long as the two wake routines meet only processes that
are off the queue. -/
namespace DonsOs
namespace Sched

open LinkedQueue Run

/-- The links spell out a list without repetitions that contains every PCB inserted and
not since removed. -/
def Integrity (k : Kernel) : Prop :=
  ∃ xs : List Slot, xs.Nodup ∧ k.queue.head = xs.head? ∧ k.queue.tail = xs.getLast? ∧
    (∀ p ∈ xs, k.queue.next p = nextIn xs p ∧ k.queue.prev p = prevIn none xs p) ∧
    ∀ p, k.inserted p = true → p ∈ xs

variable {k k' : Kernel} {xs : List Slot} {S : ProcState → Prop}

theorem Queued.integrity (h : Queued S k xs) : Integrity k := by
  have hq := h.queue
  exact ⟨xs,h.nodup,by simp [hq,ofList],by simp [hq,ofList],by simp [hq,ofList],
    fun p => (h.inserted p).mp⟩

/-- A queued process is `READY`, or went back to sleep while it was queued. -/
def MayWait (s : ProcState) : Prop := s = .ready ∨ s = .blocked

theorem waiting_mayWait : Waiting MayWait := by constructor <;> simp [MayWait]

/-- No wake routine finds its process on the queue already, and idle is not switched to
while queued. -/
def Orderly (k : Kernel) : Event → Prop
  | .key => ∀ i, Sleeping k i → k.inserted i = false
  | .exit => ∀ c, k.current = some c → ∀ parent, Awaits k parent (k.pool c) →
      k.inserted parent = false
  | .switchTo next => k.pid next = 1 → k.inserted next = false
  | _ => True

instance (k : Kernel) (i : Slot) : Decidable (Sleeping k i) := inferInstanceAs (Decidable (_ ∧ _))
instance (k : Kernel) (p : Slot) (c : Pcb) : Decidable (Awaits k p c) :=
  inferInstanceAs (Decidable (_ ∧ _))

instance (k : Kernel) : (e : Event) → Decidable (Orderly k e)
  | .key => inferInstanceAs (Decidable (∀ i, Sleeping k i → k.inserted i = false))
  | .exit => inferInstanceAs (Decidable (∀ c, k.current = some c → ∀ parent,
      Awaits k parent (k.pool c) → k.inserted parent = false))
  | .switchTo next => inferInstanceAs (Decidable (k.pid next = 1 → k.inserted next = false))
  | .tick _ | .create _ _ | .exec _ _ | .read | .waitpid _ _ | .yield | .block => isTrue trivial

theorem Queued.off (h : Queued S k xs) {p : Slot} (hp : k.inserted p = false) : p ∉ xs := by
  intro hm
  rw [(h.inserted p).mpr hm] at hp
  cases hp

theorem syscall_some {f : Slot → Kernel} (h : k.syscall f = some k') :
    ∃ self, k.procCurrent = some self ∧ (k.pid self ≠ 1 ∧ k.kernelShell ≠ some self) ∧
      f self = k' := by
  simp only [Kernel.syscall,Option.bind_eq_some_iff] at h
  obtain ⟨self,hs,h⟩ := h
  split at h
  · cases h
  · rename_i hp
    exact ⟨self,hs,not_or.mp hp,by simpa using h⟩

theorem block_some (h : (k.procCurrent.bind fun self =>
    if k.pid self = 1 then none else some (k.setState self .blocked)) = some k') :
    ∃ self, k.procCurrent = some self ∧ k.pid self ≠ 1 ∧ k.setState self .blocked = k' := by
  simp only [Option.bind_eq_some_iff] at h
  obtain ⟨self,hs,h⟩ := h
  split at h
  · cases h
  · rename_i hp
    exact ⟨self,hs,hp,Option.some.inj h⟩

theorem Queued.yield (w : Waiting S) (h : Queued S k xs) : ∃ ys, Queued S (processYield k) ys := by
  rcases yield_handover w h with he | ⟨c,-,-,⟨ys,ha⟩ | ⟨next,ys,hh,-⟩⟩
  · exact ⟨xs,by rwa [he]⟩
  · exact ⟨ys,ha.queued⟩
  · exact ⟨ys,hh.queued⟩

theorem Queued.exit (w : Waiting S) (h : Queued S k xs)
    (hp : ∀ c, k.current = some c → ∀ parent, Awaits k parent (k.pool c) → parent ∉ xs) :
    ∃ ys, Queued S (processExit k) ys := by
  cases hc : k.current with
  | none =>
    simp only [processExit,hc]
    exact ⟨xs,h.queue,h.nodup,h.inserted,h.states⟩
  | some c =>
    obtain ⟨ys,hy,-,⟨next,zs,-,hh⟩ | ⟨rfl,⟨-,he⟩ | ⟨shell,-,-,hh⟩⟩⟩ := exit_handover w h hc (hp c hc)
    · exact ⟨zs,hh.queued⟩
    · rw [he]
      exact ⟨[],hy.reset.queue,hy.reset.nodup,hy.reset.inserted,hy.reset.states⟩
    · exact ⟨[],hh.queued⟩

theorem Queued.waitpid (h : Queued MayWait k xs) (self : Slot)
    (pid : ℤ) (nohang : Bool) : ∃ ys, Queued MayWait (sysWaitpid k self pid nohang) ys := by
  rcases waitScan_cases k self pid nohang with he | ⟨z,hz,he⟩ | ⟨-,he⟩ <;>
    simp only [sysWaitpid,he]
  · exact ⟨xs,h⟩
  · exact ⟨xs,h.reclaim (h.not_mem (by rw [hz]; exact waiting_mayWait.notZombie))⟩
  · exact (h.modify fun _ => Or.inr rfl).yield waiting_mayWait

theorem Queued.step {e : Event} (h : Queued MayWait k xs)
    (hok : Orderly k e) (hs : k.step e = some k') : ∃ ys, Queued MayWait k' ys := by
  have w := waiting_mayWait
  simp only [Kernel.step] at hs
  split at hs
  · cases hs
  cases e with
  | tick u => cases hs; exact h.tick w u
  | key =>
    cases hs
    obtain ⟨ys,hy⟩ := key_woken w h fun i hi => h.off (hok i hi)
    exact ⟨ys,hy.queued⟩
  | create entry alloc =>
    cases hs
    rcases create_filled w h entry alloc with he | ⟨p,ys,hf⟩
    · exact ⟨xs,by rwa [he]⟩
    · exact ⟨ys,hf.queued⟩
  | exec alloc loaded =>
    obtain ⟨self,-,-,rfl⟩ := syscall_some hs
    exact h.exec w self alloc loaded
  | read =>
    obtain ⟨self,-,-,rfl⟩ := syscall_some hs
    simp only [sysRead]
    split
    · exact ⟨xs,h.queue,h.nodup,h.inserted,h.states⟩
    · split
      · exact ⟨xs,h⟩
      · exact ⟨xs,h.modify fun _ => Or.inr rfl⟩
  | waitpid pid nohang =>
    obtain ⟨self,-,-,rfl⟩ := syscall_some hs
    exact h.waitpid self pid nohang
  | yield => cases hs; exact h.yield w
  | exit => cases hs; exact h.exit w fun c hc parent ha => h.off (hok c hc parent ha)
  | switchTo next => cases hs; exact h.switchTo w fun hp => h.off (hok hp)
  | block =>
    obtain ⟨self,-,-,rfl⟩ := block_some hs
    exact ⟨xs,h.modify fun _ => Or.inr rfl⟩

theorem boot_queued (S : ProcState → Prop) (shell : Option Slot) : Queued S (boot shell) [] :=
  ⟨rfl,by simp,by simp [boot],by simp⟩

/-- One process reads a key, asks for the next one before any tick, and a second key
arrives. -/
def doubleKey : List Event := [.create userCodeBase .ok,.tick false,.read,.key,.read,.read,.key]

/-- The second key press links the PCB to itself. -/
theorem double_key_breaks_queue :
    ∃ k, run Kernel.step (boot none) doubleKey = some k ∧ ¬Integrity k := by
  have hlinks : (run Kernel.step (boot none) doubleKey).map
      (fun k => (k.queue.head,k.queue.next 1)) = some (some 1,some 1) := by decide +kernel
  obtain ⟨k,hk,hl⟩ := Option.map_eq_some_iff.mp hlinks
  simp only [Prod.mk.injEq] at hl
  refine ⟨k,hk,?_⟩
  rintro ⟨xs,hnd,hh,-,hn,-⟩
  have hm : (1 : Slot) ∈ xs := List.mem_of_mem_head? (hh.symm.trans hl.1)
  exact nextIn_ne_self hnd 1 ((hn 1 hm).1.symm.trans hl.2)

/-- In every run in which the wake routines meet only processes off the queue, the ready
queue is intact in the state reached. -/
theorem ready_queue_integrity (shell : Option Slot) {es : List Event} {k : Kernel}
    (hes : Admits Kernel.step Orderly (boot shell) es)
    (hrun : run Kernel.step (boot shell) es = some k) : Integrity k := by
  obtain ⟨xs,hq⟩ := run_invariant (fun k => ∃ xs, Queued MayWait k xs)
    (fun _ _ _ ⟨_,h⟩ hok hs => h.step hok hs) ⟨[],boot_queued MayWait shell⟩ hes hrun
  exact hq.integrity

theorem ready_queue_integrity_one_key :
    ∃ k, run Kernel.step (boot none) [.create userCodeBase .ok,.tick false,.read,.key] = some k ∧
      Integrity k := by
  have hes : Admits Kernel.step Orderly (boot none)
      [.create userCodeBase .ok,.tick false,.read,.key] := by decide +kernel
  have hsome : (run Kernel.step (boot none)
      [.create userCodeBase .ok,.tick false,.read,.key]).isSome := by decide +kernel
  obtain ⟨k,hk⟩ := Option.isSome_iff_exists.mp hsome
  exact ⟨k,hk,ready_queue_integrity none hes hk⟩

end Sched
end DonsOs
