import DonsOs.Heap.Client

/-! Heap calls under preemption.
Syscalls run with interrupts enabled and the timer switches processes in kernel mode, so
a heap call of one process can stop between any two of its steps while another process
runs its own.  `advance` performs one step of a call; `rest` is what the call would
return if it ran on alone.  Run serially, the steps add up to `kmalloc` and `kfree`. -/
namespace DonsOs
namespace Heap

open Tiling Run

/-- Where a process stands inside `kmalloc`. -/
inductive MallocPc where
  | find
  | extend
  | link (regionStart : ℕ)
  | coalesce
  | findAgain
  | mark (block : ℕ)
  | split (block : ℕ)
  | account (block : ℕ)
deriving DecidableEq

/-- Where a process stands inside `kfree`. -/
inductive FreePc where
  | check (ptr : ℕ)
  | clear (block : ℕ)
  | account (block : ℕ)
  | coalesce
deriving DecidableEq

inductive Pc where
  | idle
  | kmalloc (n : ℕ) (pc : MallocPc)
  | kfree (pc : FreePc)
deriving DecidableEq

/-- The outcome of one step: the call goes on at `pc`, or returns `ptr`. -/
inductive Outcome (π : Type) where
  | goto (pc : π) (h : HeapState)
  | done (ptr : ℕ) (h : HeapState)

def advanceMalloc (frames : Frames) (n : ℕ) (h : HeapState) :
    MallocPc → Option (Outcome MallocPc)
  | .find =>
    if n = 0 then some (.done 0 h) else
    (findFreeBlock h (roundUp n)).map fun block =>
      if block ≠ 0 then .goto (.mark block) h else .goto .extend h
  | .extend =>
    let (regionStart,h) := heapExtend frames (u64 (roundUp n+48)) h
    some (if regionStart = 0 then .done 0 h else .goto (.link regionStart) h)
  | .link regionStart => (linkRegion h regionStart).map fun h => .goto .coalesce h
  | .coalesce => (coalesceBlocks h).map fun h => .goto .findAgain h
  | .findAgain => (findFreeBlock h (roundUp n)).map fun block =>
      if block = 0 then .done 0 h else .goto (.mark block) h
  | .mark block => some (.goto (.split block) (setUsed h block))
  | .split block => some (.goto (.account block) (split h block (roundUp n)))
  | .account block => some (.done (u64 (block+48)) (account h block))

def advanceFree (h : HeapState) : FreePc → Option (Outcome FreePc)
  | .check ptr =>
    if ptr = 0 then some (.done 0 h) else
    let block := sub64 ptr 48
    if h.ram.magic block ≠ heapMagic then some (.done 0 h) else
    if h.ram.used block = 0 then some (.done 0 h) else some (.goto (.clear block) h)
  | .clear block => some (.goto (.account block) { h with ram := h.ram.store (block+16) 0 })
  | .account block =>
    some (.goto .coalesce { h with usedBytes := sub64 h.usedBytes (h.ram.size block) })
  | .coalesce => (coalesceBlocks h).map fun h => .done 0 h

/-- All processes: the shared heap, what is allocated, and where each process stands. -/
structure Sys where
  heap : HeapState
  live : List (ℕ × ℕ)
  pc : ℕ → Pc

/-- Process `p` enters a heap call, or takes one step of the call it is in. -/
inductive Event where
  | kmalloc (p n : ℕ)
  | kfree (p ptr : ℕ)
  | step (p : ℕ) (frames : Frames)

def Event.proc : Event → ℕ
  | .kmalloc p _ => p
  | .kfree p _ => p
  | .step p _ => p

def Sys.step (s : Sys) : Event → Option Sys
  | .kmalloc p n => some { s with pc := Function.update s.pc p (.kmalloc n .find) }
  | .kfree p ptr => some
      { s with
        live := s.live.filter fun q => q.1 ≠ ptr
        pc := Function.update s.pc p (.kfree (.check ptr)) }
  | .step p frames =>
    match s.pc p with
    | .idle => some s
    | .kmalloc n pc => (advanceMalloc frames n s.heap pc).map fun o =>
      match o with
      | .goto pc h => { s with heap := h, pc := Function.update s.pc p (.kmalloc n pc) }
      | .done ptr h =>
        { heap := h
          live := if ptr = 0 then s.live else (ptr,n)::s.live
          pc := Function.update s.pc p .idle }
    | .kfree pc => (advanceFree s.heap pc).map fun o =>
      match o with
      | .goto pc h => { s with heap := h, pc := Function.update s.pc p (.kfree pc) }
      | .done _ h => { s with heap := h, pc := Function.update s.pc p .idle }

/-- A process is in at most one call, asks for at most `2^63` bytes and frees only what
is live. -/
def Sys.Legal (s : Sys) : Event → Prop
  | .kmalloc p n => s.pc p = .idle ∧ n ≤ 9223372036854775808
  | .kfree p ptr => s.pc p = .idle ∧ ptr ∈ s.live.map Prod.fst
  | .step p _ => s.pc p ≠ .idle

instance (s : Sys) : (e : Event) → Decidable (s.Legal e)
  | .kmalloc p n => inferInstanceAs (Decidable (s.pc p = .idle ∧ n ≤ 9223372036854775808))
  | .kfree p ptr => inferInstanceAs (Decidable (s.pc p = .idle ∧ ptr ∈ s.live.map Prod.fst))
  | .step p _ => inferInstanceAs (Decidable (s.pc p ≠ .idle))

/-- No other process is inside a heap call. -/
def Sys.Alone (s : Sys) (e : Event) : Prop := ∀ q, q ≠ e.proc → s.pc q = .idle

def Sys.boot (h : HeapState) : Sys := ⟨h,[],fun _ => .idle⟩

/-! What a call returns when it runs on alone. -/

def afterCoalesce (n : ℕ) (h : HeapState) : Option (ℕ × HeapState) :=
  (findFreeBlock h (roundUp n)).bind fun block =>
  if block = 0 then some (0,h) else some (takeBlock h block (roundUp n))

def afterLink (n : ℕ) (h : HeapState) : Option (ℕ × HeapState) :=
  (coalesceBlocks h).bind fun h => afterCoalesce n h

def afterExtend (n regionStart : ℕ) (h : HeapState) : Option (ℕ × HeapState) :=
  (linkRegion h regionStart).bind fun h => afterLink n h

def restMalloc (frames : Frames) (n : ℕ) (h : HeapState) : MallocPc → Option (ℕ × HeapState)
  | .find => kmalloc frames n h
  | .extend =>
    let (regionStart,h) := heapExtend frames (u64 (roundUp n+48)) h
    if regionStart = 0 then some (0,h) else afterExtend n regionStart h
  | .link regionStart => afterExtend n regionStart h
  | .coalesce => afterLink n h
  | .findAgain => afterCoalesce n h
  | .mark block => some (takeBlock h block (roundUp n))
  | .split block => some (u64 (block+48),account (split h block (roundUp n)) block)
  | .account block => some (u64 (block+48),account h block)

def restFree (h : HeapState) : FreePc → Option HeapState
  | .check ptr => kfree ptr h
  | .clear block => coalesceBlocks (release h block)
  | .account block =>
    coalesceBlocks { h with usedBytes := sub64 h.usedBytes (h.ram.size block) }
  | .coalesce => coalesceBlocks h

theorem advanceMalloc_rest (frames : Frames) (n : ℕ) (h : HeapState) (pc : MallocPc) :
    restMalloc frames n h pc = (advanceMalloc frames n h pc).bind fun o =>
      match o with
      | .goto pc h => restMalloc frames n h pc
      | .done ptr h => some (ptr,h) := by
  cases pc with
  | find =>
    simp only [restMalloc,kmalloc,advanceMalloc]
    split
    · rfl
    · cases findFreeBlock h (roundUp n) with
      | none => rfl
      | some b => by_cases hb : b = 0 <;> simp [hb,afterExtend,afterLink,afterCoalesce]
  | extend =>
    simp only [restMalloc,advanceMalloc]
    by_cases hz : (heapExtend frames (u64 (roundUp n+48)) h).1 = 0 <;> simp [hz]
  | link rs => cases hl : linkRegion h rs <;> simp [restMalloc,advanceMalloc,afterExtend,hl]
  | coalesce => cases hc : coalesceBlocks h <;> simp [restMalloc,advanceMalloc,afterLink,hc]
  | findAgain =>
    simp only [restMalloc,advanceMalloc,afterCoalesce]
    cases findFreeBlock h (roundUp n) with
    | none => rfl
    | some b => by_cases hb : b = 0 <;> simp [hb]
  | mark b => simp only [restMalloc,advanceMalloc,Option.bind_some,takeBlock]
  | split b => simp only [restMalloc,advanceMalloc,Option.bind_some]
  | account b => simp only [restMalloc,advanceMalloc,Option.bind_some]

theorem advanceFree_rest (h : HeapState) (pc : FreePc) :
    restFree h pc = (advanceFree h pc).bind fun o =>
      match o with
      | .goto pc h => restFree h pc
      | .done _ h => some h := by
  cases pc with
  | check ptr =>
    simp only [restFree,kfree,advanceFree]
    split
    · rfl
    · split
      · rfl
      · split <;> simp only [Option.bind_some]
  | clear b => simp [restFree,advanceFree,release]
  | account b => simp only [restFree,advanceFree,Option.bind_some]
  | coalesce => cases hc : coalesceBlocks h <;> simp [restFree,advanceFree,hc]

/-- Only the extension step draws on the frames, so a step that goes on leaves the result
of the call as it would be for some supply of frames. -/
theorem advanceMalloc_goto {frames : Frames} {n : ℕ} {h h' : HeapState} {pc pc' : MallocPc}
    (ha : advanceMalloc frames n h pc = some (.goto pc' h')) (f : Frames) :
    ∃ g, restMalloc f n h' pc' = restMalloc g n h pc := by
  have hgo : ∀ g, advanceMalloc g n h pc = some (.goto pc' h') →
      restMalloc g n h pc = restMalloc g n h' pc' := by
    intro g hg
    rw [advanceMalloc_rest g n h pc,hg,Option.bind_some]
  cases pc with
  | extend =>
    have hpc : ∃ regionStart, pc' = .link regionStart := by
      simp only [advanceMalloc,Option.some.injEq] at ha
      split at ha <;> cases ha
      exact ⟨_,rfl⟩
    obtain ⟨regionStart,rfl⟩ := hpc
    exact ⟨frames,by rw [hgo frames ha]; simp only [restMalloc]⟩
  | find => exact ⟨f,(hgo f (by simpa only [advanceMalloc] using ha)).symm⟩
  | link r => exact ⟨f,(hgo f (by simpa only [advanceMalloc] using ha)).symm⟩
  | coalesce => exact ⟨f,(hgo f (by simpa only [advanceMalloc] using ha)).symm⟩
  | findAgain => exact ⟨f,(hgo f (by simpa only [advanceMalloc] using ha)).symm⟩
  | mark b => exact ⟨f,(hgo f (by simpa only [advanceMalloc] using ha)).symm⟩
  | split b => exact ⟨f,(hgo f (by simpa only [advanceMalloc] using ha)).symm⟩
  | account b => exact ⟨f,(hgo f (by simpa only [advanceMalloc] using ha)).symm⟩

variable {bs : List Block} {s : Sys} {p : ℕ}

theorem Client.Owns.requested_apart {c : Client} (hc : c.Owns bs) : c.live.Pairwise Apart := by
  refine hc.apart.imp_of_mem ?_
  intro p q hp hq hap
  obtain ⟨s,hs,hps⟩ := hc.mem hp
  obtain ⟨t,ht,hqt⟩ := hc.mem hq
  rw [payloadOf_holds hc.holds hs,payloadOf_holds hc.holds ht] at hap
  simp only [Apart] at hap ⊢
  omega

/-- Invariant of serial execution: between calls the heap is in order; inside a call of
`p` the remaining steps complete a call made on a heap that was in order. -/
inductive Serial (s : Sys) : Prop where
  | quiet (bs : List Block) (owns : (⟨s.heap,s.live⟩ : Client).Owns bs)
      (idle : ∀ p, s.pc p = .idle)
  | malloc (p n : ℕ) (pc : MallocPc) (at_pc : s.pc p = .kmalloc n pc)
      (idle : ∀ q, q ≠ p → s.pc q = .idle) (hn : n ≤ 9223372036854775808) (h : HeapState)
      (bs : List Block) (owns : (⟨h,s.live⟩ : Client).Owns bs)
      (rest : ∀ f, ∃ g, restMalloc f n s.heap pc = kmalloc g n h)
  | free (p ptr : ℕ) (pc : FreePc) (at_pc : s.pc p = .kfree pc)
      (idle : ∀ q, q ≠ p → s.pc q = .idle) (c : Client)
      (bs : List Block) (owns : c.Owns bs) (mem : ptr ∈ c.live.map Prod.fst)
      (live : s.live = c.live.filter fun q => q.1 ≠ ptr)
      (rest : restFree s.heap pc = kfree ptr c.heap)

theorem Serial.apart (hs : Serial s) : s.live.Pairwise Apart := by
  cases hs with
  | quiet bs owns _ => exact owns.requested_apart
  | malloc _ _ _ _ _ _ _ _ owns _ => exact owns.requested_apart
  | free _ _ _ _ _ _ _ owns _ live _ =>
    rw [live]
    exact owns.requested_apart.filter _

theorem update_idle {f : ℕ → Pc} (h : ∀ q, q ≠ p → f q = .idle) (v : Pc) :
    ∀ q, q ≠ p → Function.update f p v q = .idle := by
  intro q hq
  rw [Function.update_of_ne hq,h q hq]

theorem update_all_idle {f : ℕ → Pc} (h : ∀ q, q ≠ p → f q = .idle) :
    ∀ q, Function.update f p .idle q = .idle := by
  intro q
  by_cases hq : q = p
  · simp [hq]
  · exact update_idle h _ q hq

theorem Serial.stepMalloc {n : ℕ} {pc : MallocPc} (hpc : s.pc p = .kmalloc n pc)
    (hidle : ∀ q, q ≠ p → s.pc q = .idle) (hn : n ≤ 9223372036854775808) {h : HeapState} (owns : (⟨h,s.live⟩ : Client).Owns bs)
    (hrest : ∀ f, ∃ g, restMalloc f n s.heap pc = kmalloc g n h) (frames : Frames) :
    ∃ t, s.step (.step p frames) = some t ∧ Serial t := by
  obtain ⟨g,hg⟩ := hrest frames
  obtain ⟨c',bs',hstep,hown,-⟩ := owns.kmalloc g hn
  simp only [Client.step,Option.map_eq_some_iff] at hstep
  obtain ⟨⟨ptr,h'⟩,hk,rfl⟩ := hstep
  have hadv := advanceMalloc_rest frames n s.heap pc
  rw [hg,hk] at hadv
  cases ha : advanceMalloc frames n s.heap pc with
  | none => rw [ha] at hadv; simp at hadv
  | some o =>
    rw [ha,Option.bind_some] at hadv
    cases o with
    | done ptr' h'' =>
      simp only [Option.some.injEq,Prod.mk.injEq] at hadv
      obtain ⟨rfl,rfl⟩ := hadv
      refine ⟨⟨h',if ptr = 0 then s.live else (ptr,n)::s.live,Function.update s.pc p .idle⟩,
        by simp only [Sys.step,hpc,ha,Option.map_some],.quiet bs' hown ?_⟩
      exact update_all_idle hidle
    | goto pc' h'' =>
      refine ⟨⟨h'',s.live,Function.update s.pc p (.kmalloc n pc')⟩,
        by simp only [Sys.step,hpc,ha,Option.map_some],
        .malloc p n pc' (by simp) (update_idle hidle _) hn h bs owns fun f => ?_⟩
      obtain ⟨g',hg'⟩ := advanceMalloc_goto ha f
      obtain ⟨g'',hg''⟩ := hrest g'
      exact ⟨g'',hg'.trans hg''⟩

theorem Serial.stepFree {ptr : ℕ} {pc : FreePc} (hpc : s.pc p = .kfree pc)
    (hidle : ∀ q, q ≠ p → s.pc q = .idle) {c : Client} (owns : c.Owns bs)
    (hmem : ptr ∈ c.live.map Prod.fst) (hlive : s.live = c.live.filter fun q => q.1 ≠ ptr)
    (hrest : restFree s.heap pc = kfree ptr c.heap) (frames : Frames) :
    ∃ t, s.step (.step p frames) = some t ∧ Serial t := by
  obtain ⟨c',bs',hstep,hown,-⟩ := owns.kfree hmem
  simp only [Client.step,Option.map_eq_some_iff] at hstep
  obtain ⟨h',hk,rfl⟩ := hstep
  have hadv := advanceFree_rest s.heap pc
  rw [hrest,hk] at hadv
  cases ha : advanceFree s.heap pc with
  | none => rw [ha] at hadv; simp at hadv
  | some o =>
    rw [ha,Option.bind_some] at hadv
    cases o with
    | done ptr' h'' =>
      simp only [Option.some.injEq] at hadv
      subst hadv
      refine ⟨⟨h',s.live,Function.update s.pc p .idle⟩,
        by simp only [Sys.step,hpc,ha,Option.map_some],.quiet bs' ?_ (update_all_idle hidle)⟩
      rw [hlive]
      exact hown
    | goto pc' h'' =>
      refine ⟨⟨h'',s.live,Function.update s.pc p (.kfree pc')⟩,
        by simp only [Sys.step,hpc,ha,Option.map_some],
        .free p ptr pc' (by simp) (update_idle hidle _) c bs owns hmem hlive ?_⟩
      simp only at hadv
      rw [hk,hadv]

theorem Serial.step {e : Event} (hs : Serial s) (hok : s.Legal e ∧ s.Alone e) :
    ∃ t, s.step e = some t ∧ Serial t := by
  obtain ⟨hlegal,halone⟩ := hok
  -- a process that enters a call finds all others, and so itself, between calls
  have hquiet : s.pc e.proc = .idle →
      ∃ bs, (⟨s.heap,s.live⟩ : Client).Owns bs ∧ ∀ p, s.pc p = .idle := by
    intro hp
    have hall : ∀ p, s.pc p = .idle := fun p => by
      by_cases h : p = e.proc
      · rw [h,hp]
      · exact halone p h
    cases hs with
    | quiet bs owns idle => exact ⟨bs,owns,idle⟩
    | malloc p n pc at_pc => rw [hall p] at at_pc; cases at_pc
    | free p ptr pc at_pc => rw [hall p] at at_pc; cases at_pc
  cases e with
  | kmalloc p n =>
    obtain ⟨bs,owns,idle⟩ := hquiet hlegal.1
    exact ⟨_,rfl,.malloc p n .find (by simp) (update_idle (fun q _ => idle q) _) hlegal.2 s.heap bs
      owns fun f => ⟨f,rfl⟩⟩
  | kfree p ptr =>
    obtain ⟨bs,owns,idle⟩ := hquiet hlegal.1
    exact ⟨_,rfl,.free p ptr (.check ptr) (by simp) (update_idle (fun q _ => idle q) _)
      ⟨s.heap,s.live⟩ bs owns hlegal.2 rfl rfl⟩
  | step p frames =>
    cases hs with
    | quiet bs owns idle => exact absurd (idle p) hlegal
    | malloc q n pc at_pc idle hn h bs owns rest =>
      obtain rfl : q = p := by
        by_contra hne
        rw [halone q hne] at at_pc
        cases at_pc
      exact Serial.stepMalloc at_pc idle hn owns rest frames
    | free q ptr pc at_pc idle c bs owns mem live rest =>
      obtain rfl : q = p := by
        by_contra hne
        rw [halone q hne] at at_pc
        cases at_pc
      exact Serial.stepFree at_pc idle owns mem live rest frames

/-- The smallest race: two processes search before either marks its block, so both are
given the same one. -/
def raceEvents : List Event :=
  [.kmalloc 0 16,.kmalloc 1 16,.step 0 fun _ => none,.step 1 fun _ => none,
    .step 0 fun _ => none,.step 0 fun _ => none,.step 0 fun _ => none,
    .step 1 fun _ => none,.step 1 fun _ => none,.step 1 fun _ => none]

end Heap
end DonsOs
