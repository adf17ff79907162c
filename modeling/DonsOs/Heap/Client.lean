import DonsOs.Lib.Run
import DonsOs.Heap.Calls

/-! Clients of the heap: any sequence of `kmalloc`, `kfree` and stores into live
payloads.  The invariant of `Ops` holds along every such run, which gives the tiling
of the region and the privacy of allocations. -/
namespace DonsOs
namespace Heap

open Tiling Run

/-- The payload of the allocation at `p`, with the size its header gives. -/
def payloadOf (h : HeapState) (p : ℕ) : ℕ × ℕ := (p,h.ram.size (sub64 p 48))

/-- The headers met by following `next` from `cur`. -/
def blocksFrom (r : Ram) : ℕ → ℕ → List ℕ
  | 0, _ => []
  | fuel+1, cur => if cur = 0 then [] else cur::blocksFrom r fuel (r.next cur)

def blocks (h : HeapState) : List ℕ := blocksFrom h.ram (blockLimit h) h.freeList

variable {bs : List Block} {h : HeapState}

theorem blocksFrom_seg {r : Ram} {brk prev a f : ℕ}
    (hs : Seg r brk prev a bs) (he : endOf 48 a bs = brk) (ha : 0 < a) (hf : bs.length < f) :
    blocksFrom r f (linkTo brk a) = headers 48 a bs := by
  induction bs generalizing prev a f with
  | nil =>
    obtain ⟨f,rfl⟩ : ∃ k, f = k+1 := ⟨f-1,by simp at hf; omega⟩
    simp only [endOf_nil] at he
    simp [blocksFrom,headers,he]
  | cons b bs ih =>
    obtain ⟨f,rfl⟩ : ∃ k, f = k+1 := ⟨f-1,by simp at hf; omega⟩
    have hgt := endOf_gt a b bs
    obtain ⟨hh,ht⟩ := hs
    have hl : linkTo brk a = a := linkTo_of_ne (by omega)
    have hrest := ih ht (by simpa using he) (by omega) (f:=f) (by simpa using hf)
    simp only [blocksFrom,hl,headers,hh.next,hrest]
    rw [if_neg (by omega)]

theorem blocks_holds (hh : Holds h bs) : blocks h = headers 48 h.start bs := by
  rw [blocks,← hh.link]
  exact blocksFrom_seg hh.seg hh.ends hh.startPos hh.length_lt

theorem payloadOf_holds (hh : Holds h bs) {p : ℕ × ℕ}
    (hp : p ∈ payloads 48 h.start bs) : payloadOf h p.1 = p := by
  have hb := payloads_bounds 48 hp
  have hlt := hh.brk_lt
  rw [hh.ends] at hb
  obtain ⟨xs,b,ys,rfl,-,rfl⟩ := payloads_split 48 hp
  have hs := (seg_append.mp hh.seg).2.1.size
  simp only [payloadOf]
  rw [sub64_of_le (by omega) (by simp only at hb; omega),Nat.add_sub_cancel]
  simp only [Ram.size,hs]

/-! Runs. -/

/-- A heap with the allocations its clients still hold: pointers and sizes asked for. -/
structure Client where
  heap : HeapState
  live : List (ℕ × ℕ)

inductive Call where
  | kmalloc (n : ℕ) (frames : Frames)
  | kfree (ptr : ℕ)
  | store (a v : ℕ)

def Client.step (c : Client) : Call → Option Client
  | .kmalloc n frames => (kmalloc frames n c.heap).map fun (p,h) =>
      ⟨h,if p = 0 then c.live else (p,n)::c.live⟩
  | .kfree ptr => (kfree ptr c.heap).map fun h => ⟨h,c.live.filter fun q => q.1 ≠ ptr⟩
  | .store a v => some { c with heap := { c.heap with ram := c.heap.ram.store a v } }

/-- What clients may do: ask for at most `2^63` bytes, free what they hold, and write to
the bytes they asked for. -/
def Client.Allowed (c : Client) : Call → Prop
  | .kmalloc n _ => n ≤ 9223372036854775808
  | .kfree ptr => ptr ∈ c.live.map Prod.fst
  | .store a _ => ∃ q ∈ c.live, q.1 ≤ a ∧ a < q.1+q.2

instance (c : Client) : (e : Call) → Decidable (c.Allowed e)
  | .kmalloc n _ => inferInstanceAs (Decidable (n ≤ 9223372036854775808))
  | .kfree ptr => inferInstanceAs (Decidable (ptr ∈ c.live.map Prod.fst))
  | .store a _ => inferInstanceAs (Decidable (∃ q ∈ c.live, q.1 ≤ a ∧ a < q.1+q.2))

/-- The used blocks are exactly the live allocations, each large enough. -/
structure Client.Owns (c : Client) (bs : List Block) : Prop where
  holds : Holds c.heap bs
  live : (c.live.map Prod.fst).Perm ((payloads 48 c.heap.start bs).map Prod.fst)
  enough : ∀ q ∈ c.live, ∀ s, (q.1,s) ∈ payloads 48 c.heap.start bs → q.2 ≤ s

theorem payloads_nodup (a : ℕ) (bs : List Block) : ((payloads 48 a bs).map Prod.fst).Nodup :=
  (payloads_increasing 48 (by norm_num) a bs).imp fun h => Nat.ne_of_lt h

variable {c : Client}

theorem Client.Owns.mem (hc : c.Owns bs) {q : ℕ × ℕ}
    (hq : q ∈ c.live) : ∃ s, (q.1,s) ∈ payloads 48 c.heap.start bs ∧ q.2 ≤ s := by
  have h := hc.live.mem_iff.mp (List.mem_map.mpr ⟨q,hq,rfl⟩)
  obtain ⟨⟨p,s⟩,hp,he⟩ := List.mem_map.mp h
  simp only at he
  subst he
  exact ⟨s,hp,hc.enough q hq s hp⟩

theorem Client.Owns.apart (hc : c.Owns bs) :
    c.live.Pairwise fun p q => Apart (payloadOf c.heap p.1) (payloadOf c.heap q.1) := by
  have hsymm : ∀ p q : ℕ × ℕ, Apart p q → Apart q p := fun _ _ h => h.symm
  have hmap : ((payloads 48 c.heap.start bs).map Prod.fst).map (payloadOf c.heap) =
      payloads 48 c.heap.start bs := by
    rw [List.map_map]
    conv_rhs => rw [← List.map_id (payloads 48 c.heap.start bs)]
    exact List.map_congr_left fun p hp => payloadOf_holds hc.holds hp
  have hperm := hc.live.map (payloadOf c.heap)
  rw [hmap] at hperm
  have hpw := (hperm.pairwise_iff (hsymm _ _)).mpr (payloads_apart 48 c.heap.start bs)
  simpa [List.pairwise_map] using hpw

theorem Client.Owns.allocates {bs' : List Block} {n p : ℕ} {h' : HeapState}
    (hc : c.Owns bs) (ha : Allocates c.heap bs n p h' bs') :
    Client.Owns ⟨h',if p = 0 then c.live else (p,n)::c.live⟩ bs' := by
  have hh := ha.ready.holds (ha.freeList hc.holds.freeList_ne)
  have hst := ha.start
  rcases ha.served with ⟨rfl,hsame⟩ | ⟨hne,ps,qs,s,hs,hold,hnew⟩
  · refine ⟨hh,?_,?_⟩
    · simpa [hst,hsame] using hc.live
    · simpa [hst,hsame] using hc.enough
  · have hnd := payloads_nodup c.heap.start bs'
    rw [hnew] at hnd
    simp only [List.map_append,List.map_cons] at hnd
    have hnot : p ∉ (payloads 48 c.heap.start bs).map Prod.fst := by
      rw [hold,List.map_append]
      exact (List.nodup_middle.mp hnd).notMem
    refine ⟨hh,?_,?_⟩
    · simp only [if_neg hne,hst,hnew,List.map_append,List.map_cons]
      refine (hc.live.cons p).trans ?_
      rw [hold,List.map_append]
      exact List.perm_middle.symm
    · intro q hq t ht
      simp only [if_neg hne,List.mem_cons] at hq
      simp only [hst,hnew,List.mem_append,List.mem_cons,Prod.mk.injEq] at ht
      have hin : ∀ t, (p,t) ∉ ps++qs := fun t h => hnot (List.mem_map.mpr ⟨(p,t),hold ▸ h,rfl⟩)
      rcases hq with rfl | hq
      · rcases ht with ht | ⟨-,rfl⟩ | ht
        · exact absurd (List.mem_append_left _ ht) (hin t)
        · exact hs
        · exact absurd (List.mem_append_right _ ht) (hin t)
      · have hqp : q.1 ≠ p := by
          intro he
          exact hnot (he ▸ hc.live.mem_iff.mp (List.mem_map.mpr ⟨q,hq,rfl⟩))
        apply hc.enough q hq t
        rw [hold]
        rcases ht with ht | ⟨ht,-⟩ | ht
        · simp [ht]
        · exact absurd ht hqp
        · simp [ht]

theorem Client.Owns.kmalloc (hc : c.Owns bs) (frames : Frames)
    {n : ℕ} (hn : n ≤ 9223372036854775808) :
    ∃ c' bs', c.step (.kmalloc n frames) = some c' ∧ c'.Owns bs' ∧ (Merged bs → Merged bs') ∧
      Private (payloads 48 c.heap.start bs) c.heap.ram c'.heap.ram := by
  obtain ⟨p,h',bs',hk,ha⟩ := kmalloc_ready (Or.inl hc.holds) frames hn
  exact ⟨_,bs',by simp [Client.step,hk],hc.allocates ha,ha.merged,ha.kept⟩

theorem Client.Owns.kfree (hc : c.Owns bs) {ptr : ℕ} (hp : ptr ∈ c.live.map Prod.fst) :
    ∃ c' bs', c.step (.kfree ptr) = some c' ∧ c'.Owns bs' ∧ Merged bs' ∧
      c'.heap.start = c.heap.start ∧
      (∀ q ∈ c'.live, q.1 ≠ ptr) ∧ ∃ ps qs s,
        payloads 48 c.heap.start bs = ps++(ptr,s)::qs ∧ Private (ps++qs) c.heap.ram c'.heap.ram := by
  obtain ⟨q,hq,hqp⟩ := List.mem_map.mp hp
  obtain ⟨s,hmem,-⟩ := hc.mem hq
  rw [hqp] at hmem
  obtain ⟨h',bs',ps,qs,hk,hst,hh,hm,hpr,hold,hnew⟩ := kfree_holds hc.holds hmem
  refine ⟨⟨h',c.live.filter fun q => q.1 ≠ ptr⟩,bs',by simp [Client.step,hk],⟨hh,?_,?_⟩,hm,hst,
    by simp,ps,qs,s,hold,hpr⟩
  · have hnd := payloads_nodup c.heap.start bs
    rw [hold] at hnd
    simp only [List.map_append,List.map_cons] at hnd
    have hnot := (List.nodup_middle.mp hnd).notMem
    have hfil : ((payloads 48 c.heap.start bs).map Prod.fst).filter (fun x => x ≠ ptr) =
        (ps++qs).map Prod.fst := by
      rw [hold,List.map_append,List.map_cons,List.filter_append,List.filter_cons_of_neg (by simp),
        ← List.filter_append,← List.map_append]
      apply List.filter_eq_self.mpr
      intro x hx
      simp only [decide_eq_true_eq]
      rintro rfl
      exact hnot (by simpa using hx)
    have hperm := hc.live.filter fun x => decide (x ≠ ptr)
    rw [hfil] at hperm
    simp only [hst,hnew]
    simpa [List.filter_map,Function.comp_def] using hperm
  · intro q hq t ht
    rw [hst,hnew] at ht
    apply hc.enough q (List.mem_of_mem_filter hq) t
    rw [hold]
    rcases List.mem_append.mp ht with ht | ht <;> simp [ht]

theorem Client.Owns.store (hc : c.Owns bs) {a : ℕ} (v : ℕ)
    {q : ℕ × ℕ} (hq : q ∈ c.live) (ha : q.1 ≤ a ∧ a < q.1+q.2) :
    ∃ c', c.step (.store a v) = some c' ∧ c'.Owns bs := by
  obtain ⟨s,hmem,hs⟩ := hc.mem hq
  have hh := hc.holds
  refine ⟨_,rfl,⟨⟨hh.startPos,hh.aligned,hh.freeList,hh.nonempty,?_,hh.ends,hh.sizes,hh.mapped,
    hh.cap,hh.room,hh.used⟩,hc.live,hc.enough⟩⟩
  -- a header word is never inside a used payload
  apply hh.seg.congr
  intro x hx w hw hw'
  have hap := headers_apart 48 hx hmem
  simp only [Apart] at hap
  rw [store_word,if_neg (by omega)]

theorem Client.step_owns {e : Call} (hc : ∃ bs, c.Owns bs) (hok : c.Allowed e) :
    ∃ c', c.step e = some c' ∧ ∃ bs, c'.Owns bs := by
  obtain ⟨bs,hc⟩ := hc
  cases e with
  | kmalloc n frames =>
    obtain ⟨c',bs',hs,ho,-⟩ := hc.kmalloc frames hok
    exact ⟨c',hs,bs',ho⟩
  | kfree ptr =>
    obtain ⟨c',bs',hs,ho,-⟩ := hc.kfree hok
    exact ⟨c',hs,bs',ho⟩
  | store a v =>
    obtain ⟨q,hq,ha⟩ := hok
    obtain ⟨c',hs,ho⟩ := hc.store v hq ha
    exact ⟨c',hs,bs,ho⟩

/-- Arguments `heap_init` is given: an aligned region that fits the address space. -/
structure Region (start size : ℕ) : Prop where
  pos : 0 < start
  aligned : 16 ∣ start
  room : start+heapMaxSize < 18446744073709551616
  size : size < 18446744073709551616

/-- Every allowed run from a successful `heap_init` goes through and keeps the invariant. -/
theorem run_owns {frames : Frames} {start size : ℕ} {r : Ram} (hreg : Region start size)
    (hok : (heapInit frames start size r).freeList ≠ 0) {calls : List Call}
    (hcalls : Admits Client.step Client.Allowed ⟨heapInit frames start size r,[]⟩ calls) :
    ∃ c, run Client.step ⟨heapInit frames start size r,[]⟩ calls = some c ∧ ∃ bs, c.Owns bs := by
  obtain ⟨b,hb,hh⟩ := heapInit_holds hreg.pos hreg.aligned hreg.room hreg.size hok
  refine run_total (fun c => ∃ bs, c.Owns bs) (fun _ _ => Client.step_owns) ?_ hcalls
  exact ⟨[b],hh,by simp [payloads,hb],by simp⟩

/-- A one-page heap right after `heap_init`. -/
def smallHeap : Client :=
  ⟨heapInit (fun _ => some fun _ => 0) heapStartAddr 4096 ⟨fun _ => 0,[]⟩,[]⟩

/-- Two allocations, of which the second needs an extension, and a release. -/
def smallCalls : List Call :=
  [.kmalloc 100 fun _ => none,.kmalloc 5000 fun _ => some fun _ => 7,.kfree (heapStartAddr+48)]

theorem smallHeap_region : Region heapStartAddr 4096 := by
  constructor <;> simp [heapStartAddr,heapMaxSize]

theorem smallHeap_ready : smallHeap.heap.freeList ≠ 0 := by decide +kernel

theorem smallCalls_admitted : Admits Client.step Client.Allowed smallHeap smallCalls := by
  decide +kernel

theorem payloads_dvd (hh : Holds h bs) {p : ℕ × ℕ}
    (hp : p ∈ payloads 48 h.start bs) : 16 ∣ p.1 := by
  obtain ⟨xs,b,ys,rfl,-,rfl⟩ := payloads_split 48 hp
  have hxs : ∀ c ∈ xs, 16 ∣ c.size := fun c hc => hh.sizes c (by simp [hc])
  have hd := dvd_endOf 48 (by norm_num) hh.aligned hxs
  exact Nat.dvd_add hd (by norm_num)

/-- The heap stays tiled along every run, `heap_validate` accepts it, and all sizes and
pointers are multiples of 16. -/
theorem heap_run_tiled {frames : Frames} {start size : ℕ} {r : Ram} (hreg : Region start size)
    (hok : (heapInit frames start size r).freeList ≠ 0) (calls : List Call)
    (hcalls : Admits Client.step Client.Allowed ⟨heapInit frames start size r,[]⟩ calls) :
    ∃ c, run Client.step ⟨heapInit frames start size r,[]⟩ calls = some c ∧
      heapValidate c.heap = some 0 ∧
      (∃ bs, bs ≠ [] ∧ c.heap.freeList = c.heap.start ∧
        Seg c.heap.ram c.heap.brk 0 c.heap.start bs ∧ endOf 48 c.heap.start bs = c.heap.brk ∧
        ∀ b ∈ bs, 16 ∣ b.size) ∧
      ∀ q ∈ c.live, 16 ∣ q.1 := by
  obtain ⟨c,hrun,bs,hc⟩ := run_owns hreg hok hcalls
  have hh := hc.holds
  refine ⟨c,hrun,heapValidate_holds hh,⟨bs,hh.nonempty,hh.freeList,hh.seg,hh.ends,hh.sizes⟩,?_⟩
  intro q hq
  obtain ⟨s,hs,-⟩ := hc.mem hq
  exact payloads_dvd hh (p:=(q.1,s)) hs

theorem heap_run_tiled_sample :
    ∃ c, run Client.step smallHeap smallCalls = some c ∧ heapValidate c.heap = some 0 := by
  obtain ⟨c,hr,hv,-⟩ :=
    @heap_run_tiled (fun _ => some fun _ => 0) heapStartAddr 4096 ⟨fun _ => 0,[]⟩ smallHeap_region
      smallHeap_ready smallCalls smallCalls_admitted
  exact ⟨c,hr,hv⟩

/-- A `kmalloc` or `kfree` leaves alone the payloads that outlive it. -/
theorem Client.Owns.frame (hc : c.Owns bs) {e : Call}
    (hok : c.Allowed e) (he : ∀ a v, e ≠ .store a v) :
    ∃ c', c.step e = some c' ∧ ∀ q ∈ c.live, q ∈ c'.live →
      Private [payloadOf c.heap q.1] c.heap.ram c'.heap.ram := by
  cases e with
  | kmalloc n frames =>
    obtain ⟨c',bs',hs,-,-,hp⟩ := hc.kmalloc frames hok
    refine ⟨c',hs,fun q hq _ => hp.mono ?_⟩
    obtain ⟨s,hmem,-⟩ := hc.mem hq
    simpa [payloadOf_holds hc.holds hmem] using hmem
  | kfree ptr =>
    obtain ⟨c',bs',hs,-,-,-,hne,ps,qs,s,hold,hp⟩ := hc.kfree hok
    refine ⟨c',hs,fun q hq hq' => hp.mono ?_⟩
    obtain ⟨t,hmem,-⟩ := hc.mem hq
    rw [payloadOf_holds hc.holds hmem]
    rw [hold] at hmem
    simp only [List.mem_append,List.mem_cons,Prod.mk.injEq] at hmem
    simp only [List.mem_singleton,forall_eq,List.mem_append]
    rcases hmem with h | ⟨h,-⟩ | h
    · exact Or.inl h
    · exact absurd h (hne q hq')
    · exact Or.inr h
  | store a v => exact absurd rfl (he a v)

/-- Allocations are large enough, inside the region, apart from each other and from every
header; and no call stores into an allocation that outlives it. -/
theorem heap_run_private {frames : Frames} {start size : ℕ} {r : Ram} (hreg : Region start size)
    (hok : (heapInit frames start size r).freeList ≠ 0) (calls : List Call)
    (hcalls : Admits Client.step Client.Allowed ⟨heapInit frames start size r,[]⟩ calls) :
    ∃ c, run Client.step ⟨heapInit frames start size r,[]⟩ calls = some c ∧
      (∀ q ∈ c.live, q.2 ≤ (payloadOf c.heap q.1).2 ∧ c.heap.start ≤ q.1 ∧
        q.1+(payloadOf c.heap q.1).2 ≤ c.heap.brk ∧
        ∀ x ∈ blocks c.heap, Apart (x,headerSize) (payloadOf c.heap q.1)) ∧
      (c.live.Pairwise fun p q => Apart (payloadOf c.heap p.1) (payloadOf c.heap q.1)) ∧
      ∀ e, c.Allowed e → (∀ a v, e ≠ .store a v) → ∃ c', c.step e = some c' ∧
        ∀ q ∈ c.live, q ∈ c'.live → Private [payloadOf c.heap q.1] c.heap.ram c'.heap.ram := by
  obtain ⟨c,hrun,bs,hc⟩ := run_owns hreg hok hcalls
  have hh := hc.holds
  refine ⟨c,hrun,?_,hc.apart,fun e => hc.frame⟩
  intro q hq
  obtain ⟨s,hmem,hle⟩ := hc.mem hq
  have hb := payloads_bounds 48 hmem
  rw [hh.ends] at hb
  rw [payloadOf_holds hh hmem,blocks_holds hh]
  exact ⟨hle,by simp only at hb; omega,hb.2,fun x hx => headers_apart 48 hx hmem⟩

theorem heap_run_private_sample :
    ∃ c, run Client.step smallHeap smallCalls = some c ∧
      c.live.Pairwise fun p q => Apart (payloadOf c.heap p.1) (payloadOf c.heap q.1) := by
  obtain ⟨c,hr,-,hp,-⟩ :=
    @heap_run_private (fun _ => some fun _ => 0) heapStartAddr 4096 ⟨fun _ => 0,[]⟩ smallHeap_region
      smallHeap_ready smallCalls smallCalls_admitted
  exact ⟨c,hr,hp⟩

end Heap
end DonsOs
