import DonsOs.Heap.Complete

/-! The counters of the heap, and freeing twice.
`kmalloc` counts a block with the size it has after the split, `kfree` with the size it has before
it is merged.  The counter is right because nobody changes the size of a block that is in use. -/
namespace DonsOs
namespace Heap

open Tiling Run

/-- The blocks on the list that are marked used. -/
def usedBlocks (h : HeapState) : List ℕ := (blocks h).filter fun b => h.ram.used b ≠ 0

theorem Seg.used_sizes {r : Ram} {brk prev a : ℕ} {bs : List Block} (hs : Seg r brk prev a bs) :
    ((headers 48 a bs).filter fun x => r.used x ≠ 0).map r.size =
      (payloads 48 a bs).map Prod.snd := by
  induction bs generalizing prev a with
  | nil => rfl
  | cons b bs ih =>
    obtain ⟨hb,hs⟩ := hs
    have hrest := ih hs
    have hiff := hb.free_iff
    have hsize : r.size a = b.size := hb.size
    cases hu : b.used with
    | false =>
      have h0 : r.used a = 0 := hiff.mpr hu
      simpa [headers,payloads,hu,h0] using hrest
    | true =>
      have h1 : r.used a ≠ 0 := fun h0 => by simp [hiff.mp h0] at hu
      simpa [headers,payloads,hu,h1,hsize] using hrest

theorem usedBytes_eq {h : HeapState} {bs : List Block} (hr : Ready h bs) :
    h.usedBytes = ((usedBlocks h).map h.ram.size).sum := by
  rw [usedBlocks,blocks_ready hr,hr.seg.used_sizes]
  rcases hr with hh | ⟨hu,rfl⟩
  · exact hh.used
  · simp [hu.used,payloads]

theorem usedBytes_le {h : HeapState} {bs : List Block} (hr : Ready h bs) : h.usedBytes ≤ h.mapped := by
  rcases hr with hh | ⟨hu,-⟩
  · have hsum := sum_payloads_le 48 h.start bs
    have hm := hh.mapped
    rw [hh.ends,← hh.used] at hsum
    omega
  · rw [hu.used]
    exact Nat.zero_le _

/-- In every state that clients reach, the bytes counted as used are those of the used blocks, the
total is the extent of the region, within the cap, and the free bytes are the difference. -/
theorem heap_run_accounts {frames : Frames} {start size : ℕ} {r : Ram} (hreg : Region start size)
    (calls : List Call)
    (hcalls : Admits Client.step Client.Allowed ⟨heapInit frames start size r,[]⟩ calls) :
    ∃ c, run Client.step ⟨heapInit frames start size r,[]⟩ calls = some c ∧
      heapUsed c.heap = ((usedBlocks c.heap).map c.heap.ram.size).sum ∧
      c.heap.start ≤ c.heap.brk ∧ heapTotal c.heap = c.heap.brk-c.heap.start ∧
      heapTotal c.heap ≤ heapMaxSize ∧ heapUsed c.heap ≤ heapTotal c.heap ∧
      heapFree c.heap = heapTotal c.heap-heapUsed c.heap := by
  obtain ⟨c,hrun,hc⟩ := run_settled hreg hcalls
  obtain ⟨bs,hr,-,-⟩ := hc.ready
  have hb := hr.bounds
  have hmapped := hb.mapped
  have hcap := hb.cap
  have hroom := hb.room
  have hle := usedBytes_le hr
  refine ⟨c,hrun,usedBytes_eq hr,by omega,by simp only [heapTotal]; omega,hcap,hle,?_⟩
  exact sub64_of_le hle (by omega)

theorem heap_run_accounts_sample :
    ∃ c, run Client.step smallHeap smallCalls = some c ∧
      heapUsed c.heap = ((usedBlocks c.heap).map c.heap.ram.size).sum := by
  obtain ⟨c,hr,hu,-⟩ :=
    @heap_run_accounts (fun _ => some fun _ => 0) heapStartAddr 4096 ⟨fun _ => 0,[]⟩ smallHeap_region
      smallCalls smallCalls_admitted
  exact ⟨c,hr,hu⟩

/-- In every state that clients reach, freeing a live pointer a second time changes nothing. -/
theorem kfree_twice {frames : Frames} {start size : ℕ} {r : Ram} (hreg : Region start size)
    (calls : List Call)
    (hcalls : Admits Client.step Client.Allowed ⟨heapInit frames start size r,[]⟩ calls) :
    ∃ c, run Client.step ⟨heapInit frames start size r,[]⟩ calls = some c ∧
      ∀ p ∈ c.live.map Prod.fst, ∃ h', kfree p c.heap = some h' ∧ kfree p h' = some h' := by
  obtain ⟨c,hrun,hc⟩ := run_settled hreg hcalls
  refine ⟨c,hrun,fun p hp => ?_⟩
  rcases hc with ⟨bs,ho,-⟩ | ⟨-,hl⟩
  · obtain ⟨q,hq,rfl⟩ := List.mem_map.mp hp
    obtain ⟨s,hs,-⟩ := ho.mem hq
    obtain ⟨h',_,_,_,hk,-⟩ := kfree_holds ho.holds hs
    exact ⟨h',hk,kfree_again ho.holds hs hk⟩
  · simp [hl] at hp

theorem kfree_twice_sample :
    ∃ c, run Client.step smallHeap smallCalls = some c ∧
      ∀ p ∈ c.live.map Prod.fst, ∃ h', kfree p c.heap = some h' ∧ kfree p h' = some h' :=
  @kfree_twice (fun _ => some fun _ => 0) heapStartAddr 4096 ⟨fun _ => 0,[]⟩ smallHeap_region
    smallCalls smallCalls_admitted

end Heap
end DonsOs
