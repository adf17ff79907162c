import DonsOs.Heap.Client

/-! Free space stays merged, and `kmalloc` fails only when it must.
Both hold along every run of clients, also when `heap_init` found no memory: the first extension
then becomes the whole block list. -/
namespace DonsOs
namespace Heap

open Tiling Run

/-- The heap of a client is as `Owns` says, without free neighbours, or has no region yet. -/
def Client.Settled (c : Client) : Prop :=
  (∃ bs, c.Owns bs ∧ Merged bs) ∨ Unset c.heap ∧ c.live = []

variable {c : Client} {n : ℕ} {frames : Frames} {r : Ram} {h : HeapState} {bs : List Block}

theorem Client.Settled.ready (h : c.Settled) : ∃ bs, Ready c.heap bs ∧ Merged bs ∧
    (c.live.map Prod.fst).Perm ((payloads 48 c.heap.start bs).map Prod.fst) := by
  rcases h with ⟨bs,ho,hm⟩ | ⟨hu,hl⟩
  · exact ⟨bs,Or.inl ho.holds,hm,ho.live⟩
  · exact ⟨[],Or.inr ⟨hu,rfl⟩,.nil,by simp [hl,payloads]⟩

/-- A call of `kmalloc` that returned, also the first one on a heap without a region. -/
theorem Client.Settled.allocates (hc : c.Settled) (ha : ∀ bs, Ready c.heap bs →
      ∃ p h' bs', kmalloc frames n c.heap = some (p,h') ∧ Allocates c.heap bs n p h' bs') :
    ∃ c', c.step (.kmalloc n frames) = some c' ∧ c'.Settled := by
  rcases hc with ⟨bs,ho,hm⟩ | ⟨hu,hl⟩
  · obtain ⟨p,h',bs',hk,ha⟩ := ha bs (Or.inl ho.holds)
    exact ⟨_,by simp [Client.step,hk],Or.inl ⟨bs',ho.allocates ha,ha.merged hm⟩⟩
  · obtain ⟨p,h',bs',hk,hst,hr,-,hm,-,-,hcase⟩ := ha [] (Or.inr ⟨hu,rfl⟩)
    have hm' := hm .nil
    refine ⟨⟨h',if p = 0 then c.live else (p,n)::c.live⟩,by simp [Client.step,hk],?_⟩
    rcases hcase with ⟨rfl,hsame⟩ | ⟨hne,ps,qs,s,hs,hold,hnew⟩
    · rw [← hst] at hsame
      rcases hr with hh | hu'
      · refine Or.inl ⟨bs',⟨hh,?_,?_⟩,hm'⟩ <;> simp [hl,hsame,payloads]
      · exact Or.inr ⟨hu'.1,by simp [hl]⟩
    · have hnil : ps++qs = [] := by simpa [payloads] using hold.symm
      obtain ⟨rfl,rfl⟩ := List.append_eq_nil_iff.mp hnil
      rw [← hst] at hnew
      rcases hr with hh | hu'
      · refine Or.inl ⟨bs',⟨hh,?_,?_⟩,hm'⟩ <;> simp [hl,hne,hnew]
        exact hs
      · rw [hu'.2] at hnew
        simp [payloads] at hnew

theorem Client.Settled.access {e : Call} (hc : c.Settled) (hok : c.Allowed e)
    (he : ∀ n frames, e ≠ .kmalloc n frames) : ∃ c', c.step e = some c' ∧ c'.Settled := by
  rcases hc with ⟨bs,ho,hm⟩ | ⟨hu,hl⟩
  · cases e with
    | kmalloc n frames => exact absurd rfl (he n frames)
    | kfree ptr =>
      obtain ⟨c',bs',hs,ho',hm',-⟩ := ho.kfree hok
      exact ⟨c',hs,Or.inl ⟨bs',ho',hm'⟩⟩
    | store a v =>
      obtain ⟨q,hq,ha⟩ := hok
      obtain ⟨c',hs,ho'⟩ := ho.store v hq ha
      exact ⟨c',hs,Or.inl ⟨bs,ho',hm⟩⟩
  · cases e with
    | kmalloc n frames => exact absurd rfl (he n frames)
    | kfree ptr => simp [Client.Allowed,hl] at hok
    | store a v => simp [Client.Allowed,hl] at hok

theorem Client.Settled.step {e : Call} (hc : c.Settled) (hok : c.Allowed e) :
    ∃ c', c.step e = some c' ∧ c'.Settled := by
  cases e with
  | kmalloc n frames => exact hc.allocates fun bs hr => kmalloc_ready hr frames hok
  | kfree ptr => exact hc.access hok (by simp)
  | store a v => exact hc.access hok (by simp)

theorem heapInit_settled (frames : Frames) {start size : ℕ} (r : Ram) (hreg : Region start size) :
    Client.Settled ⟨heapInit frames start size r,[]⟩ := by
  rcases heapInit_cases frames r hreg.pos hreg.aligned hreg.room hreg.size with hu | ⟨n,hh⟩
  · exact Or.inr ⟨hu,rfl⟩
  · exact Or.inl ⟨_,⟨hh,by simp [payloads],by simp⟩,.singleton _⟩

theorem run_settled {start size : ℕ} (hreg : Region start size) {calls : List Call}
    (hcalls : Admits Client.step Client.Allowed ⟨heapInit frames start size r,[]⟩ calls) :
    ∃ c, run Client.step ⟨heapInit frames start size r,[]⟩ calls = some c ∧ c.Settled :=
  run_total Client.Settled (fun _ _ => Client.Settled.step) (heapInit_settled frames r hreg) hcalls

/-! Blocks as the list in memory shows them. -/

theorem blocks_ready (hr : Ready h bs) : blocks h = headers 48 h.start bs := by
  rcases hr with hh | ⟨hu,rfl⟩
  · exact blocks_holds hh
  · simp [blocks,blockLimit,blocksFrom,hu.freeList,headers]

theorem Ready.seg (hr : Ready h bs) : Seg h.ram h.brk 0 h.start bs := by
  rcases hr with hh | ⟨-,rfl⟩
  · exact hh.seg
  · trivial

theorem Hdr.free_iff {brk a prev : ℕ} {b : Block} (h : Hdr r brk a prev b) :
    r.used a = 0 ↔ b.used = false := by
  rw [Ram.used,h.used]
  cases b.used <;> simp

theorem Seg.chain {brk prev a : ℕ} (hs : Seg r brk prev a bs)
    (hm : Merged bs) : (headers 48 a bs).IsChain fun x y => r.used x ≠ 0 ∨ r.used y ≠ 0 := by
  induction bs generalizing prev a with
  | nil => exact .nil
  | cons b bs ih =>
    cases bs with
    | nil => exact .singleton a
    | cons c bs =>
      obtain ⟨hbc,hm'⟩ := List.isChain_cons_cons.mp hm
      refine List.isChain_cons_cons.mpr ⟨?_,ih hs.2 hm'⟩
      rw [Ne,Ne,hs.1.free_iff,hs.2.1.free_iff]
      simpa using hbc

/-- In every state that clients reach no two consecutive blocks are free.  When nothing is live
no byte is counted as used, and the region, if there is one, is a single free block. -/
theorem heap_run_coalesced {frames : Frames} {start size : ℕ} {r : Ram} (hreg : Region start size)
    (calls : List Call)
    (hcalls : Admits Client.step Client.Allowed ⟨heapInit frames start size r,[]⟩ calls) :
    ∃ c, run Client.step ⟨heapInit frames start size r,[]⟩ calls = some c ∧
      ((blocks c.heap).IsChain fun a b => c.heap.ram.used a ≠ 0 ∨ c.heap.ram.used b ≠ 0) ∧
      (c.live = [] → heapUsed c.heap = 0 ∧ (c.heap.start < c.heap.brk →
        blocks c.heap = [c.heap.start] ∧ c.heap.ram.used c.heap.start = 0 ∧
          c.heap.start+headerSize+c.heap.ram.size c.heap.start = c.heap.brk)) := by
  obtain ⟨c,hrun,hc⟩ := run_settled hreg hcalls
  obtain ⟨bs,hr,hm,hlive⟩ := hc.ready
  refine ⟨c,hrun,by rw [blocks_ready hr]; exact hr.seg.chain hm,fun hnil => ?_⟩
  have hpay : payloads 48 c.heap.start bs = [] := by simpa [hnil] using hlive
  rcases hr with hh | ⟨hu,rfl⟩
  · refine ⟨by rw [heapUsed,hh.used,hpay]; rfl,fun _ => ?_⟩
    rcases hm.single 48 hpay with rfl | ⟨n,rfl⟩
    · exact absurd rfl hh.nonempty
    · have hend := hh.ends
      simp only [endOf_cons,endOf_nil] at hend
      refine ⟨by rw [blocks_holds hh]; rfl,hh.seg.1.free_iff.mpr rfl,?_⟩
      rw [Ram.size,hh.seg.1.size]
      exact hend
  · refine ⟨hu.used,fun hlt => ?_⟩
    have hmap := hu.bounds.mapped
    rw [hu.mapped] at hmap
    omega

/-- Everything is freed again. -/
def emptyingCalls : List Call :=
  [.kmalloc 100 fun _ => none,.kmalloc 200 fun _ => none,.kfree (heapStartAddr+48),
    .kfree (heapStartAddr+208)]

theorem heap_run_coalesced_sample :
    ∃ c, run Client.step smallHeap emptyingCalls = some c ∧ c.live = [] ∧ heapUsed c.heap = 0 := by
  obtain ⟨c,hr,-,hfree⟩ :=
    @heap_run_coalesced (fun _ => some fun _ => 0) heapStartAddr 4096 ⟨fun _ => 0,[]⟩ smallHeap_region
      emptyingCalls (by decide +kernel)
  have hlive : (run Client.step smallHeap emptyingCalls).map Client.live = some [] := by
    decide +kernel
  have hnil : c.live = [] := by
    rw [show run Client.step smallHeap emptyingCalls = some c from hr] at hlive
    simpa using hlive
  exact ⟨c,hr,hnil,(hfree hnil).1⟩

/-! When `kmalloc` fails, and which block it takes. -/

/-- A free block with room for `n` bytes. -/
structure Sufficient (h : HeapState) (n x : ℕ) : Prop where
  block : x ∈ blocks h
  free : h.ram.used x = 0
  room : n ≤ h.ram.size x

theorem sufficient_iff (hr : Ready h bs) {x : ℕ} : Sufficient h n x ↔
      ∃ xs b ys, bs = xs++b::ys ∧ fits n b = true ∧ x = endOf 48 h.start xs := by
  have hdr : ∀ xs b ys, bs = xs++b::ys → ∃ prev, Hdr h.ram h.brk (endOf 48 h.start xs) prev b := by
    rintro xs b ys rfl
    exact ⟨_,(seg_append.mp hr.seg).2.1⟩
  constructor
  · rintro ⟨hx,hfree,hroom⟩
    rw [blocks_ready hr] at hx
    obtain ⟨xs,b,ys,hbs,rfl⟩ := headers_split 48 hx
    obtain ⟨prev,hh⟩ := hdr xs b ys hbs
    rw [Ram.size,hh.size] at hroom
    exact ⟨xs,b,ys,hbs,by simp [fits,hh.free_iff.mp hfree,hroom],rfl⟩
  · rintro ⟨xs,b,ys,hbs,hfit,rfl⟩
    obtain ⟨prev,hh⟩ := hdr xs b ys hbs
    simp only [fits,Bool.and_eq_true,Bool.not_eq_true',decide_eq_true_eq] at hfit
    refine ⟨?_,hh.free_iff.mpr hfit.1,by rw [Ram.size,hh.size]; exact hfit.2⟩
    rw [blocks_ready hr,hbs,headers_append]
    simp [headers]

theorem none_sufficient_iff (hr : Ready h bs) :
    (∀ x, ¬Sufficient h n x) ↔ firstFit 48 n h.start bs = 0 := by
  rw [firstFit_eq_zero 48 hr.bounds.startPos]
  constructor
  · intro hno b hb
    obtain ⟨xs,ys,rfl⟩ := List.append_of_mem hb
    by_contra hfit
    exact hno _ ((sufficient_iff hr).mpr ⟨xs,b,ys,rfl,by simpa using hfit,rfl⟩)
  · intro hno x hx
    obtain ⟨xs,b,ys,rfl,hfit,-⟩ := (sufficient_iff hr).mp hx
    rw [hno b (by simp)] at hfit
    cases hfit

theorem firstFit_least (hr : Ready h bs) (hf : firstFit 48 n h.start bs ≠ 0) :
    IsLeast { x | Sufficient h n x } (firstFit 48 n h.start bs) := by
  obtain ⟨xs,b,ys,hbs,hfit,he,hxs⟩ := firstFit_split 48 hf
  refine ⟨(sufficient_iff hr).mpr ⟨xs,b,ys,hbs,hfit,he⟩,fun x hx => ?_⟩
  obtain ⟨xs',b',ys',hbs',hfit',rfl⟩ := (sufficient_iff hr).mp hx
  rw [he]
  -- the other block does not stand before the first one that fits
  rcases List.append_eq_append_iff.mp (hbs.symm.trans hbs') with ⟨zs,rfl,-⟩ | ⟨zs,rfl,hz⟩
  · rw [endOf_append]
    exact le_trans (Nat.le_add_right _ _) (le_endOf 48 _ zs)
  · cases zs with
    | nil => simp
    | cons z zs =>
      obtain ⟨rfl,-⟩ := List.cons.inj hz
      rw [hxs b' (by simp)] at hfit'
      cases hfit'

theorem extend_fails_iff (hb : Bounds h) (frames : Frames) (h0 : 0 < n)
    (hn : n ≤ 9223372036854775808+48) :
    (heapExtend frames n h).1 = 0 ↔
      heapMaxSize < h.mapped+regionOf n ∨ ∃ i < regionOf n/4096, frames i = none := by
  have hcap := hb.cap
  have hmax : heapMaxSize = 25165824 := rfl
  have hpages : regionOf n/4096 = (n+4095)/4096 := by
    simp only [regionOf]; omega
  rw [hpages]
  rcases heapExtend_cases hb frames h0 (by omega) (Or.inl (by simp only [regionOf]; omega)) with
    ⟨h',he,-,hwhy⟩ | ⟨h',he,hx,hall⟩
  · rw [he]
    exact ⟨fun _ => hwhy,fun _ => rfl⟩
  · have hpos := hb.startPos
    have hmap := hb.mapped
    have hle := hx.cap
    rw [he]
    refine ⟨fun h0 => by simp only at h0; omega,fun hor => ?_⟩
    rcases hor with hlt | ⟨i,hi,hnone⟩
    · omega
    · exact absurd hnone (hall i hi)

theorem grow_eq_none_iff (hr : Ready h bs) {size : ℕ} (hs : size ≤ 9223372036854775808) :
    grow frames size h = none ↔ (heapExtend frames (size+48) h).1 = 0 := by
  have hu : u64 (size+48) = size+48 := u64_of_lt (by omega)
  have hx : Extensible frames size h := extensible hr.bounds hs
  rcases grow_cases hr hx with ⟨h',he,-,hg⟩ | ⟨h₁,h₂,g,he,hbrk,-,-,hg,-⟩ <;>
    rw [hu] at he
  · simp [hg,he]
  · simp [hg,he,hbrk]

/-- A request that is not too large fails exactly if no block has room and none can be added. -/
theorem kmalloc_null_iff {h' : HeapState} (hr : Ready h bs)
    {p : ℕ} (h0 : n ≠ 0) (hs : roundUp n ≤ 9223372036854775808)
    (hk : kmalloc frames n h = some (p,h')) :
    p = 0 ↔ (∀ b, ¬Sufficient h (roundUp n) b) ∧ (heapExtend frames (roundUp n+48) h).1 = 0 := by
  have hx : Extensible frames (roundUp n) h := extensible hr.bounds hs
  obtain ⟨q,h'',bs',hk',-,-,-,-,-,hcase⟩ := kmalloc_cases hr h0 fun _ => hx
  obtain ⟨rfl,-⟩ := Prod.mk.inj (Option.some.inj (hk'.symm.trans hk))
  rw [none_sufficient_iff hr,← grow_eq_none_iff hr hs]
  rcases hcase with ⟨hf,rfl,-⟩ | ⟨hf,hg,rfl,-⟩ | ⟨hf,g,hg,-,-,hgrown⟩
  · exact ⟨fun h0 => by omega,fun hno => absurd hno.1 hf⟩
  · exact ⟨fun _ => ⟨hf,hg⟩,fun _ => rfl⟩
  · rw [if_neg (grownList_fits hs hr.bounds.startPos)] at hgrown
    rw [hg]
    exact ⟨fun h0 => by omega,fun hno => by simp at hno⟩

/-- A refused request leaves everything below the end of the region as it was. -/
theorem kmalloc_refused {h' : HeapState} (hr : Ready h bs) (h0 : n ≠ 0) (hs : roundUp n ≤ 9223372036854775808)
    (hk : kmalloc frames n h = some (0,h')) : Extended h h' 0 := by
  have hx : Extensible frames (roundUp n) h := extensible hr.bounds hs
  have hu : u64 (roundUp n+48) = roundUp n+48 := u64_of_lt (by omega)
  obtain ⟨hno,hfail⟩ := (kmalloc_null_iff hr h0 hs hk).mp rfl
  have hfirst := (none_sufficient_iff hr).mp hno
  simp only [kmalloc,if_neg h0,hr.find,hfirst,Option.bind_some,ne_eq,not_true_eq_false,if_false] at hk
  rcases grow_cases hr hx with ⟨h₁,he,hext,-⟩ | ⟨h₁,h₂,g,he,hbrk,-⟩
  · simp only [he,if_true] at hk
    rwa [← (Prod.mk.inj (Option.some.inj hk)).2]
  · rw [hu] at he
    rw [he] at hfail
    exact absurd hfail hbrk

/-- In every state that clients reach, `kmalloc` of up to `2^63` bytes fails exactly if no free
block has room and the region cannot grow, because of the cap or for want of frames.  After an
extension the second search succeeds, and the block taken is always the lowest one with room. -/
theorem kmalloc_complete {frames₀ : Frames} {start size : ℕ} {r : Ram} (hreg : Region start size)
    (calls : List Call)
    (hcalls : Admits Client.step Client.Allowed ⟨heapInit frames₀ start size r,[]⟩ calls) :
    ∃ c, run Client.step ⟨heapInit frames₀ start size r,[]⟩ calls = some c ∧
      ∀ n frames, 0 < n → n ≤ 9223372036854775808 → ∃ p h', kmalloc frames n c.heap = some (p,h') ∧
        (p = 0 ↔ (∀ b, ¬Sufficient c.heap (roundUp n) b) ∧
          (heapExtend frames (roundUp n+48) c.heap).1 = 0) ∧
        ((heapExtend frames (roundUp n+48) c.heap).1 = 0 ↔
          heapMaxSize < c.heap.mapped+regionOf (roundUp n+48) ∨
            ∃ i < regionOf (roundUp n+48)/4096, frames i = none) ∧
        (∀ g, grow frames (roundUp n) c.heap = some g → findFreeBlock g (roundUp n) ≠ some 0) ∧
        (p ≠ 0 → ∃ g, (g = c.heap ∨ (∀ b, ¬Sufficient c.heap (roundUp n) b) ∧
            grow frames (roundUp n) c.heap = some g) ∧
          48 ≤ p ∧ IsLeast { b | Sufficient g (roundUp n) b } (p-48)) := by
  obtain ⟨c,hrun,hc⟩ := run_settled hreg hcalls
  refine ⟨c,hrun,fun n frames h0 hn => ?_⟩
  obtain ⟨bs,hr,-,-⟩ := hc.ready
  have hb := hr.bounds
  obtain ⟨hle,-,hmax⟩ := roundUp_spec hn
  have hx : Extensible frames (roundUp n) c.heap := extensible hb hmax
  have hfit : firstFit 48 (roundUp n) c.heap.start (grownList (roundUp n) bs) ≠ 0 :=
    grownList_fits hmax hb.startPos
  obtain ⟨p,h',bs',hk,-,-,-,-,-,hcase⟩ := kmalloc_cases hr (Nat.ne_of_gt h0) fun _ => hx
  refine ⟨p,h',hk,kmalloc_null_iff hr (Nat.ne_of_gt h0) hmax hk,
    extend_fails_iff hb frames (by omega) (by omega),fun g hg => ?_,fun hne => ?_⟩
  · rcases grow_cases hr hx with ⟨h',-,-,hno⟩ | ⟨h₁,h₂,g',-,-,-,-,hg',hst,hh,-⟩
    · rw [hno] at hg
      cases hg
    · obtain rfl := Option.some.inj (hg'.symm.trans hg)
      rw [findFreeBlock_holds hh,hst]
      simpa using hfit
  · rcases hcase with ⟨hf,rfl,-⟩ | ⟨-,-,rfl,-⟩ | ⟨hf,g,hg,hst,hh,hgrown⟩
    · exact ⟨c.heap,Or.inl rfl,by omega,by rw [Nat.add_sub_cancel]; exact firstFit_least hr hf⟩
    · exact absurd rfl hne
    · rw [if_neg hfit] at hgrown
      refine ⟨g,Or.inr ⟨(none_sufficient_iff hr).mpr hf,hg⟩,by omega,?_⟩
      rw [hgrown.1,Nat.add_sub_cancel,← hst]
      exact firstFit_least (Or.inl hh) (by rw [hst]; exact hfit)

theorem kmalloc_complete_sample :
    ∃ c, run Client.step smallHeap smallCalls = some c ∧
      ∃ p h', kmalloc (fun _ => none) 64 c.heap = some (p,h') ∧
        (p = 0 ↔ (∀ b, ¬Sufficient c.heap (roundUp 64) b) ∧
          (heapExtend (fun _ => none) (roundUp 64+48) c.heap).1 = 0) := by
  obtain ⟨c,hr,hall⟩ :=
    @kmalloc_complete (fun _ => some fun _ => 0) heapStartAddr 4096 ⟨fun _ => 0,[]⟩ smallHeap_region
      smallCalls smallCalls_admitted
  obtain ⟨p,h',hk,hiff,-⟩ := hall 64 (fun _ => none) (by decide) (by decide)
  exact ⟨c,hr,p,h',hk,hiff⟩

end Heap
end DonsOs
