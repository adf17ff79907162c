import DonsOs.Heap.Complete
import DonsOs.Memory.Conserve
import DonsOs.Memory.Supply

/-! The heap on the frames of the allocator.
The model of the heap takes the frames of an extension from an oracle.  Here `heap_extend` asks
`pmm_alloc_page_for_elf` for each page and maps it with `vmm_map_page`, whose answer it does not
look at.  Seen without the frames and the tables, this is the heap as before. -/
namespace DonsOs
namespace Backing

open Paging Memory Run
open Heap (HeapState Ram u64 sub64 regionOf heapMaxSize heapStartAddr findFreeBlock takeBlock linkRegion
  coalesceBlocks writeHeader Sufficient Client Call Region Ready Bounds Extended blocks)

/-- The heap and the memory under it; `taken` records the frames that `heap_extend` was given. -/
structure Backed where
  heap : HeapState
  vm : Vm
  taken : List ℕ

/-- What a frame holds, by byte offset. -/
def frameWords (m : Mem) (f o : ℕ) : ℕ := (m f (o/8)).toNat

/-- The frame `f` has been allocated and is mapped at `virt`. -/
def Backed.mapPage (s : Backed) (virt f : ℕ) (pmm : Pmm) : Backed where
  heap := { s.heap with ram := s.heap.ram.mapPage virt (frameWords s.vm.mem f) }
  vm := (vmmMapPage { s.vm with pmm := pmm } (virt%2^64) (f*4096) heapFlags).2
  taken := f::s.taken

/-- The loop of `heap_extend`, from page `i` on. -/
def mapPages (regionStart : ℕ) : ℕ → ℕ → Backed → Bool × Backed
  | 0, _, s => (true,s)
  | n+1, i, s =>
    match pmmAllocPageForElf s.vm.pmm with
    | none => (false,s)
    | some (f,pmm) => mapPages regionStart n (i+1) (s.mapPage (regionStart+i*4096) f pmm)

/-- `heap_extend`: the start of the new region, or `0`. -/
def heapExtend (bytes : ℕ) (s : Backed) : ℕ × Backed :=
  if bytes = 0 then (s.heap.brk,s) else
  let pages := u64 (bytes+4095)/4096
  let region := u64 (pages*4096)
  if heapMaxSize < u64 (s.heap.mapped+region) then (0,s) else
  match mapPages s.heap.brk pages 0 s with
  | (false,t) => (0,t)
  | (true,t) => (s.heap.brk,{ t with
      heap := { t.heap with brk := u64 (s.heap.brk+region), mapped := u64 (s.heap.mapped+region) } })

def Backed.setHeap (s : Backed) (h : HeapState) : Backed := { s with heap := h }

/-- The statics as `heap_init` sets them first. -/
def noRegion (start : ℕ) (vm : Vm) (r : Ram) : Backed := ⟨⟨r,start,start,0,0,0⟩,vm,[]⟩

/-- The size of the first region: whole pages, at least one. -/
def initialSize (size : ℕ) : ℕ := u64 ((if size/4096 = 0 then 1 else size/4096)*4096)

/-- `heap_init`. -/
def heapInit (start size : ℕ) (vm : Vm) (r : Ram) : Backed :=
  let (region,s) := heapExtend (initialSize size) (noRegion start vm r)
  if region = 0 then s else
  s.setHeap { s.heap with
    ram := writeHeader s.heap.ram s.heap.start (sub64 (initialSize size) 48) 0 0
    freeList := s.heap.start }

/-- `kmalloc`: the pointer, `0` for `NULL`. -/
def kmalloc (n : ℕ) (s : Backed) : Option (ℕ × Backed) :=
  if n = 0 then some (0,s) else
  let size := Heap.roundUp n
  (findFreeBlock s.heap size).bind fun block =>
  if block ≠ 0 then
    let (ptr,h) := takeBlock s.heap block size
    some (ptr,s.setHeap h)
  else
  let (regionStart,s) := heapExtend (u64 (size+48)) s
  if regionStart = 0 then some (0,s) else
  (linkRegion s.heap regionStart).bind fun h =>
  (coalesceBlocks h).bind fun h =>
  (findFreeBlock h size).bind fun block =>
  if block = 0 then some (0,s.setHeap h) else
    let (ptr,h) := takeBlock h block size
    some (ptr,s.setHeap h)

def kfree (ptr : ℕ) (s : Backed) : Option Backed := (Heap.kfree ptr s.heap).map s.setHeap

/-! The frames as the heap sees them. -/

/-- What the frame holds that the loop gets `j` pages after page `i`. -/
def framesFrom (regionStart : ℕ) : ℕ → ℕ → Backed → Option (ℕ → ℕ)
  | 0, _, s => (pmmAllocPageForElf s.vm.pmm).map fun x => frameWords s.vm.mem x.1
  | j+1, i, s => (pmmAllocPageForElf s.vm.pmm).bind fun x =>
      framesFrom regionStart j (i+1) (s.mapPage (regionStart+i*4096) x.1 x.2)

/-- The answers of the allocator in an extension that begins now. -/
def granted (s : Backed) : Heap.Frames := fun j => framesFrom s.heap.brk j 0 s

theorem mapPages_heap {frames : Heap.Frames} {regionStart n i : ℕ} {s : Backed}
    (h : ∀ j, frames (i+j) = framesFrom regionStart j i s) :
    (mapPages regionStart n i s).2.heap = ⟨(Heap.mapPages frames regionStart n i s.heap.ram).2,
        s.heap.start,s.heap.brk,s.heap.freeList,s.heap.mapped,s.heap.usedBytes⟩ ∧
      (mapPages regionStart n i s).1 = (Heap.mapPages frames regionStart n i s.heap.ram).1 := by
  induction n generalizing i s with
  | zero => exact ⟨rfl,rfl⟩
  | succ n ih =>
    have h0 := h 0
    simp only [framesFrom,Nat.add_zero] at h0
    cases ha : pmmAllocPageForElf s.vm.pmm with
    | none =>
      rw [ha] at h0
      simp [mapPages,Heap.mapPages,ha,h0]
    | some x =>
      rw [ha] at h0
      have hnext : ∀ j, frames (i+1+j) =
          framesFrom regionStart j (i+1) (s.mapPage (regionStart+i*4096) x.1 x.2) := by
        intro j
        rw [Nat.add_assoc,Nat.add_comm 1 j,h (j+1)]
        simp [framesFrom,ha]
      simp only [mapPages,Heap.mapPages,ha,h0,Option.map_some]
      exact ih hnext

theorem granted_zero (s : Backed) (j : ℕ) : granted s (0+j) = framesFrom s.heap.brk j 0 s := by
  rw [Nat.zero_add]
  rfl

theorem heapExtend_heap (bytes : ℕ) (s : Backed) :
    Heap.heapExtend (granted s) bytes s.heap = ((heapExtend bytes s).1,(heapExtend bytes s).2.heap) := by
  simp only [Heap.heapExtend,heapExtend]
  split
  · rfl
  split
  · rfl
  have hloop := mapPages_heap (n:=u64 (bytes+4095)/4096) (granted_zero s)
  generalize Heap.mapPages (granted s) s.heap.brk (u64 (bytes+4095)/4096) 0 s.heap.ram = x at hloop
  generalize mapPages s.heap.brk (u64 (bytes+4095)/4096) 0 s = y at hloop
  obtain ⟨b,r⟩ := x
  obtain ⟨b',t⟩ := y
  obtain ⟨ht,rfl⟩ := hloop
  simp only at ht
  cases b' <;> simp [ht]

/-- Without its frames, `kmalloc` is that of the heap, on the frames it will be given. -/
theorem kmalloc_heap (n : ℕ) (s : Backed) :
    Heap.kmalloc (granted s) n s.heap = (kmalloc n s).map fun x => (x.1,x.2.heap) := by
  simp only [Heap.kmalloc,kmalloc]
  split
  · rfl
  cases findFreeBlock s.heap (Heap.roundUp n) with
  | none => rfl
  | some block =>
    simp only [Option.bind_some]
    split
    · rfl
    rw [heapExtend_heap]
    generalize heapExtend (u64 (Heap.roundUp n+48)) s = x
    obtain ⟨regionStart,t⟩ := x
    simp only
    split
    · rfl
    cases linkRegion t.heap regionStart with
    | none => rfl
    | some h₁ =>
      simp only [Option.bind_some]
      cases coalesceBlocks h₁ with
      | none => rfl
      | some h₂ =>
        simp only [Option.bind_some]
        cases findFreeBlock h₂ (Heap.roundUp n) with
        | none => rfl
        | some block =>
          simp only [Option.bind_some]
          split <;> rfl

theorem kmalloc_forget {n p : ℕ} {s s' : Backed} (h : kmalloc n s = some (p,s')) :
    Heap.kmalloc (granted s) n s.heap = some (p,s'.heap) := by
  rw [kmalloc_heap,h]
  rfl

/-! The frames of the HIGH zone. -/

theorem mapPage_highFrames {s : Backed} {f : ℕ} {pmm : Pmm}
    (h : pmmAllocPageForElf s.vm.pmm = some (f,pmm)) (virt : ℕ) :
    highFrames s.vm.pmm = f::highFrames (s.mapPage virt f pmm).vm.pmm := by
  rw [highFrames_alloc h]
  exact congrArg _ (map_highFrames { s.vm with pmm := pmm } _ _ _ _).symm

/-- Tables are not taken from the frames of the pages, so these can be counted beforehand. -/
theorem framesFrom_none {regionStart j i : ℕ} {s : Backed} :
    framesFrom regionStart j i s = none ↔ (highFrames s.vm.pmm).length ≤ j := by
  induction j generalizing i s with
  | zero => simp [framesFrom,allocForElf_none]
  | succ j ih =>
    cases ha : pmmAllocPageForElf s.vm.pmm with
    | none => simp [framesFrom,ha,allocForElf_none.mp ha]
    | some x =>
      simp only [framesFrom,ha,Option.bind_some]
      rw [ih,mapPage_highFrames ha (regionStart+i*4096),List.length_cons,Nat.add_le_add_iff_right]

theorem mapPage_grows {s : Backed} {f : ℕ} {pmm : Pmm} (h : pmmAllocPageForElf s.vm.pmm = some (f,pmm))
    (virt : ℕ) : Grows s.vm.pmm (s.mapPage virt f pmm).vm.pmm :=
  (Grows.alloc h).trans (Grows.map { s.vm with pmm := pmm } _ _ _ _)

theorem mapPages_grows (regionStart n i : ℕ) (s : Backed) :
    Grows s.vm.pmm (mapPages regionStart n i s).2.vm.pmm := by
  induction n generalizing i s with
  | zero => exact Grows.refl _
  | succ n ih =>
    simp only [mapPages]
    cases ha : pmmAllocPageForElf s.vm.pmm with
    | none => exact Grows.refl _
    | some x => exact (mapPage_grows ha _).trans (ih (i+1) _)

theorem mapPages_takes {regionStart n i : ℕ} {s : Backed} (hn : 0 < n) (hf : highFrames s.vm.pmm ≠ []) :
    ∃ f, s.vm.pmm.bitmap f = false ∧ (mapPages regionStart n i s).2.vm.pmm.bitmap f = true := by
  obtain ⟨n,rfl⟩ : ∃ k, n = k+1 := ⟨n-1,by omega⟩
  cases ha : pmmAllocPageForElf s.vm.pmm with
  | none => exact absurd (allocForElf_none.mp ha) hf
  | some x =>
    obtain ⟨htk,-⟩ := allocForElf_spec ha
    have hused : x.2.bitmap x.1 = true := by rw [htk.bitmap,Function.update_self]
    have hpage : (s.mapPage (regionStart+i*4096) x.1 x.2).vm.pmm.bitmap x.1 = true :=
      (Grows.map { s.vm with pmm := x.2 } _ _ _ _).bitmap _ hused
    simp only [mapPages,ha]
    exact ⟨x.1,htk.free,(mapPages_grows _ _ _ _).bitmap _ hpage⟩

theorem mapPages_empty {regionStart n i : ℕ} {s : Backed} (hf : highFrames s.vm.pmm = []) :
    (mapPages regionStart n i s).2 = s := by
  cases n with
  | zero => rfl
  | succ n => simp [mapPages,allocForElf_none.mpr hf]

/-- What `kmalloc` does to the memory under the heap. -/
theorem kmalloc_vm {n p : ℕ} {s s' : Backed} (h : kmalloc n s = some (p,s')) :
    (n = 0 ∨ ∃ b ≠ 0, findFreeBlock s.heap (Heap.roundUp n) = some b) ∧ s'.vm = s.vm ∨
      n ≠ 0 ∧ findFreeBlock s.heap (Heap.roundUp n) = some 0 ∧
        s'.vm = (heapExtend (u64 (Heap.roundUp n+48)) s).2.vm := by
  simp only [kmalloc] at h
  split at h
  · obtain ⟨-,rfl⟩ := Prod.mk.inj (Option.some.inj h)
    exact Or.inl ⟨Or.inl (by assumption),rfl⟩
  obtain ⟨block,hb,h⟩ := Option.bind_eq_some_iff.mp h
  split at h
  · obtain ⟨-,rfl⟩ := Prod.mk.inj (Option.some.inj h)
    exact Or.inl ⟨Or.inr ⟨block,by assumption,hb⟩,rfl⟩
  obtain rfl : block = 0 := by omega
  refine Or.inr ⟨by assumption,hb,?_⟩
  split at h
  · obtain ⟨-,rfl⟩ := Prod.mk.inj (Option.some.inj h)
    rfl
  obtain ⟨h₁,-,h⟩ := Option.bind_eq_some_iff.mp h
  obtain ⟨h₂,-,h⟩ := Option.bind_eq_some_iff.mp h
  obtain ⟨block,-,h⟩ := Option.bind_eq_some_iff.mp h
  split at h
  · obtain ⟨-,rfl⟩ := Prod.mk.inj (Option.some.inj h)
    rfl
  · obtain ⟨-,rfl⟩ := Prod.mk.inj (Option.some.inj h)
    rfl

/-! Refused requests. -/

section
variable {n p : ℕ} {s s' : Backed} {bs : List Tiling.Block}

/-- The sizes of an extension do not wrap. -/
theorem region_exact (hb : Bounds s.heap) (hn : n ≤ 9223372036854775808+48) :
    u64 (n+4095)/4096 = regionOf n/4096 ∧
      u64 (s.heap.mapped+u64 (u64 (n+4095)/4096*4096)) = s.heap.mapped+regionOf n := by
  have hcap := hb.cap
  have hlimit : heapMaxSize = 25165824 := rfl
  have hpages : u64 (n+4095) = n+4095 := Heap.u64_of_lt (by omega)
  have hregion : u64 ((n+4095)/4096*4096) = regionOf n := Heap.u64_of_lt (by omega)
  rw [hpages,hregion]
  refine ⟨by simp only [regionOf]; omega,Heap.u64_of_lt ?_⟩
  simp only [regionOf]
  omega

theorem extend_refused (hb : Bounds s.heap) (hn : n ≤ 9223372036854775808+48)
    (h : heapMaxSize < s.heap.mapped+regionOf n ∨ highFrames s.vm.pmm = []) :
    (heapExtend n s).2.vm = s.vm := by
  obtain ⟨hpages,hsum⟩ := region_exact hb hn
  simp only [heapExtend,hsum]
  split
  · rfl
  split
  · rfl
  rw [hpages]
  have hloop := @mapPages_empty s.heap.brk (regionOf n/4096) 0 s (h.resolve_left (by assumption))
  generalize mapPages s.heap.brk (regionOf n/4096) 0 s = x at hloop
  obtain ⟨b,t⟩ := x
  obtain rfl : t = s := hloop
  cases b <;> rfl

theorem extend_takes (hb : Bounds s.heap) (h0 : n ≠ 0) (hn : n ≤ 9223372036854775808+48)
    (hcap : s.heap.mapped+regionOf n ≤ heapMaxSize) (hf : highFrames s.vm.pmm ≠ []) :
    ∃ f, s.vm.pmm.bitmap f = false ∧ (heapExtend n s).2.vm.pmm.bitmap f = true := by
  obtain ⟨hpages,hsum⟩ := region_exact hb hn
  have hpos : 0 < regionOf n/4096 := by
    simp only [regionOf]
    omega
  obtain ⟨f,hfree,hused⟩ := @mapPages_takes s.heap.brk _ 0 s hpos hf
  refine ⟨f,hfree,?_⟩
  simp only [heapExtend,hsum,if_neg h0,if_neg (Nat.not_lt.mpr hcap)]
  rw [hpages]
  generalize mapPages s.heap.brk (regionOf n/4096) 0 s = x at hused
  obtain ⟨b,t⟩ := x
  cases b <;> exact hused

/-- A request is refused if no block has room, and the cap or the number of frames does not allow
the extension. -/
theorem kmalloc_null_iff (hr : Ready s.heap bs) (h0 : n ≠ 0)
    (hs : Heap.roundUp n ≤ 9223372036854775808) (hk : kmalloc n s = some (p,s')) :
    p = 0 ↔ (∀ b, ¬Sufficient s.heap (Heap.roundUp n) b) ∧
      (heapMaxSize < s.heap.mapped+regionOf (Heap.roundUp n+48) ∨
        (highFrames s.vm.pmm).length < regionOf (Heap.roundUp n+48)/4096) := by
  have hshort : (∃ i < regionOf (Heap.roundUp n+48)/4096, granted s i = none) ↔
      (highFrames s.vm.pmm).length < regionOf (Heap.roundUp n+48)/4096 := by
    simp only [granted,framesFrom_none]
    exact ⟨fun ⟨i,hi,hle⟩ => by omega,fun hlt => ⟨_,hlt,le_rfl⟩⟩
  rw [Heap.kmalloc_null_iff hr h0 hs (kmalloc_forget hk),
    Heap.extend_fails_iff hr.bounds (granted s) (by omega) (by omega),hshort]

end

/-- No block has room and the region may grow, but there are frames for some of the pages only. -/
structure RunsShort (h : HeapState) (pmm : Pmm) (n : ℕ) : Prop where
  size : n ≠ 0
  full : ∀ b, ¬Sufficient h (Heap.roundUp n) b
  cap : h.mapped+regionOf (Heap.roundUp n+48) ≤ heapMaxSize
  some : highFrames pmm ≠ []
  few : (highFrames pmm).length < regionOf (Heap.roundUp n+48)/4096

/-- The block list with all it is made of, and the figures that `heap.c` keeps about it. -/
structure SameHeap (h h' : HeapState) : Prop where
  blocks : blocks h' = blocks h
  words : ∀ a < h.brk, h'.ram.word a = h.ram.word a
  freeList : h'.freeList = h.freeList
  brk : h'.brk = h.brk
  mapped : h'.mapped = h.mapped
  usedBytes : h'.usedBytes = h.usedBytes

theorem SameHeap.refl (h : HeapState) : SameHeap h h := ⟨rfl,fun _ _ => rfl,rfl,rfl,rfl,rfl⟩

theorem SameHeap.of_refused {h h' : HeapState} {bs : List Tiling.Block} (hr : Ready h bs)
    (he : Extended h h' 0) : SameHeap h h' := by
  have hblocks : Heap.blocks h' = Heap.blocks h := by
    rw [Heap.blocks_ready (hr.refused he).1,Heap.blocks_ready hr,he.start]
  exact ⟨hblocks,he.below,he.freeList,he.brk,he.mapped,he.usedBytes⟩

/-- The request leaves no frame allocated that was free before it. -/
def FramesKept (pmm pmm' : Pmm) : Prop := ∀ f, pmm.bitmap f = false → pmm'.bitmap f = false

theorem kmalloc_framesKept_iff {n p : ℕ} {s s' : Backed} {bs : List Tiling.Block} (hr : Ready s.heap bs)
    (hn : n ≤ 9223372036854775808) (hk : kmalloc n s = some (p,s')) :
    (p = 0 → FramesKept s.vm.pmm s'.vm.pmm) ↔ ¬RunsShort s.heap s.vm.pmm n := by
  by_cases h0 : n = 0
  · subst h0
    simp only [kmalloc,if_true,Option.some.injEq,Prod.mk.injEq] at hk
    obtain ⟨-,rfl⟩ := hk
    exact ⟨fun _ hx => hx.size rfl,fun _ _ _ => id⟩
  obtain ⟨-,-,hmax⟩ := Heap.roundUp_spec hn
  have hu : u64 (Heap.roundUp n+48) = Heap.roundUp n+48 := Heap.u64_of_lt (by omega)
  have hnull := kmalloc_null_iff hr h0 hmax hk
  have hvm := kmalloc_vm hk
  rw [hu] at hvm
  constructor
  · rintro hkeep ⟨-,hfull,hroom,hsome,hfew⟩
    have hp0 := hnull.mpr ⟨hfull,Or.inr hfew⟩
    have hfind : findFreeBlock s.heap (Heap.roundUp n) = some 0 := by
      rw [hr.find,(Heap.none_sufficient_iff hr).mp hfull]
    rcases hvm with ⟨hn0 | ⟨b,hb,hfind'⟩,-⟩ | ⟨-,-,hvm⟩
    · exact h0 hn0
    · exact hb (Option.some.inj (hfind'.symm.trans hfind))
    · obtain ⟨f,hfree,hused⟩ := extend_takes hr.bounds (by omega) (by omega) hroom hsome
      rw [← hvm,hkeep hp0 f hfree] at hused
      cases hused
  · intro hno hp0 f hfree
    rcases hvm with ⟨-,hvm⟩ | ⟨-,-,hvm⟩
    · rwa [hvm]
    · obtain ⟨hfull,hwhy⟩ := hnull.mp hp0
      rw [hvm,extend_refused hr.bounds (by omega)]
      · exact hfree
      by_contra hor
      rw [not_or,Nat.not_lt] at hor
      exact hno ⟨h0,hfull,hor.1,hor.2,hwhy.resolve_left (Nat.not_lt.mpr hor.1)⟩

theorem kmalloc_sameHeap {n : ℕ} {s s' : Backed} {bs : List Tiling.Block} (hr : Ready s.heap bs)
    (hn : n ≤ 9223372036854775808) (hk : kmalloc n s = some (0,s')) : SameHeap s.heap s'.heap := by
  by_cases h0 : n = 0
  · simp only [kmalloc,if_pos h0,Option.some.injEq,Prod.mk.injEq] at hk
    rw [← hk.2]
    exact SameHeap.refl _
  · obtain ⟨-,-,hmax⟩ := Heap.roundUp_spec hn
    exact SameHeap.of_refused hr (Heap.kmalloc_refused hr h0 hmax (kmalloc_forget hk))

/-- In every state of the heap that clients reach and every state of the memory under it, a refused
request of up to `2^63` bytes leaves the heap as it was, and leaves all frames free that were free,
unless the frames run out in the midst of the extension. -/
theorem refused_kmalloc_iff {frames : Heap.Frames} {start size : ℕ} {r : Ram} (hreg : Region start size)
    (calls : List Call)
    (hcalls : Admits Client.step Client.Allowed ⟨Heap.heapInit frames start size r,[]⟩ calls) :
    ∃ c, run Client.step ⟨Heap.heapInit frames start size r,[]⟩ calls = some c ∧
      ∀ vm taken n, n ≤ 9223372036854775808 → ∃ p s', kmalloc n ⟨c.heap,vm,taken⟩ = some (p,s') ∧
        (p = 0 → SameHeap c.heap s'.heap) ∧
        ((p = 0 → FramesKept vm.pmm s'.vm.pmm) ↔ ¬RunsShort c.heap vm.pmm n) := by
  obtain ⟨c,hrun,hc⟩ := Heap.run_settled hreg hcalls
  obtain ⟨bs,hr,-,-⟩ := hc.ready
  refine ⟨c,hrun,fun vm taken n hn => ?_⟩
  obtain ⟨p,h',bs',hk',-⟩ := Heap.kmalloc_ready hr (granted ⟨c.heap,vm,taken⟩) hn
  rw [kmalloc_heap n ⟨c.heap,vm,taken⟩] at hk'
  obtain ⟨⟨q,s'⟩,hk,he⟩ := Option.map_eq_some_iff.mp hk'
  refine ⟨q,s',hk,?_,kmalloc_framesKept_iff hr hn hk⟩
  rintro rfl
  exact kmalloc_sameHeap hr hn hk

/-- A machine with two frames left for pages. -/
def twoFrames : Vm :=
  ⟨bootMem 16,{ bootPmm with bitmap := fun f => f < 1024 || 8193 < f, nextHigh := 8193 },16⟩

/-- A heap of one page, which is one of them. -/
def onePage : Backed := heapInit heapStartAddr 4096 twoFrames ⟨fun _ => 0,[]⟩

/-- For a block of two pages the other frame is taken and mapped; then there is none, and the
request is refused.  The frame is not given back. -/
theorem refused_kmalloc_leaks : onePage.vm.pmm.bitmap 8192 = false ∧
    (kmalloc 8144 onePage).map (fun x => (x.1,x.2.vm.pmm.bitmap 8192)) = some (0,true) := by
  decide +kernel

theorem refused_kmalloc_iff_small :
    ∃ c, run Client.step Heap.smallHeap Heap.smallCalls = some c ∧
      ∃ p s', kmalloc 8144 ⟨c.heap,twoFrames,[]⟩ = some (p,s') ∧ (p = 0 → SameHeap c.heap s'.heap) := by
  obtain ⟨c,hr,hall⟩ :=
    @refused_kmalloc_iff (fun _ => some fun _ => 0) heapStartAddr 4096 ⟨fun _ => 0,[]⟩
      Heap.smallHeap_region Heap.smallCalls Heap.smallCalls_admitted
  obtain ⟨p,s',hk,hsame,-⟩ := hall twoFrames [] 8144 (by decide)
  exact ⟨c,hr,p,s',hk,hsame⟩

end Backing
end DonsOs
