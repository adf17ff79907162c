import DonsOs.Heap.Backed
import DonsOs.Memory.Region

/-! The region of the heap in the tables.
`heap_extend` counts the pages that it was given frames for.  Whether they are mapped is for
`vmm_map_page`, which needs frames of the LOW zone for the tables that are missing, and returns
without a word where it gets none. -/
namespace DonsOs
namespace Backing

open Paging LinkedTables Memory Run
open Heap (HeapState Ram u64 sub64 regionOf heapMaxSize heapStartAddr findFreeBlock takeBlock
  linkRegion coalesceBlocks)

/-- The address of a page of the region. -/
def Backed.page (s : Backed) (i : ℕ) : ℕ := s.heap.start+4096*i

/-- Page `i` is mapped to the frame `f`, writable and for the kernel only, and `f` is one of the
frames that the heap was given and has not been freed. -/
structure Backs (s : Backed) (i f : ℕ) : Prop where
  taken : f ∈ s.taken
  used : s.vm.pmm.bitmap f = true
  mapped : translation s.vm.mem s.vm.cr3 (s.page i) = some ⟨f,false,true⟩

/-- The first `n` pages are mapped, to frames of their own. -/
def Placed (s : Backed) (n : ℕ) : Prop := Assigned (Backs s) n

/-- Every page from `heap_start` to `heap_brk` is mapped, distinct pages to distinct frames. -/
def HeapMapped (s : Backed) : Prop :=
  ∃ frame : ℕ → ℕ, (∀ i, s.page i < s.heap.brk → Backs s i (frame i)) ∧
    ∀ i j, s.page i < s.heap.brk → s.page j < s.heap.brk → frame i = frame j → i = j

/-! A page. -/

section
variable {slots : Set ℕ} {s : Backed} {f c j : ℕ} {pmm : Pmm}

/-- The tables under the heap, and an allocator that hands out frames that exist. -/
structure Grounded (slots : Set ℕ) (s : Backed) : Prop where
  site : Site slots s.heap.start
  proper : Proper slots slots s.vm s.vm.cr3
  top : s.vm.pmm.nextHigh ≤ s.vm.pmm.zones.highEnd

theorem Grounded.page_mod (h : Grounded slots s) (hj : j < 65536) : s.page j%2^64 = s.page j := by
  have hroom := h.site.room
  simp only [Backed.page]
  omega

theorem mapPage_vm (h : Grounded slots s) (hj : j < 65536) : (s.mapPage (s.page j) f pmm).vm =
    (vmmMapPageInCr3 ⟨s.vm.mem,pmm,s.vm.cr3⟩ s.vm.cr3 (s.page j) (f*4096) heapFlags).2 := by
  simp only [Backed.mapPage,vmmMapPage,h.page_mod hj]

theorem Grounded.turn (h : Grounded slots s) (ha : pmmAllocPageForElf s.vm.pmm = some (f,pmm))
    (hj : j < 65536) :
    Turn slots slots s.vm (s.mapPage (s.page j) f pmm).vm (s.page j) f (s.vm.mem f) := by
  rw [mapPage_vm h hj]
  exact h.proper.turn (allocForElf_spec ha).1 (fun _ _ => rfl) (h.site.slot j hj) heapFlags

theorem Grounded.mapPage (h : Grounded slots s) (ha : pmmAllocPageForElf s.vm.pmm = some (f,pmm))
    (hj : j < 65536) : Grounded slots (s.mapPage (s.page j) f pmm) := by
  have hgrow := mapPage_grows ha (s.page j)
  refine ⟨h.site,(h.turn ha hj).proper,?_⟩
  have htop := h.top
  have hnext := hgrow.nextHigh
  rw [hgrow.zones]
  omega

theorem Backs.mapPage {i g : ℕ} (h : Backs s i g) (hg : Grounded slots s)
    (ha : pmmAllocPageForElf s.vm.pmm = some (f,pmm)) (hi : i < 65536) (hj : j < 65536) (hne : i ≠ j) :
    Backs (s.mapPage (s.page j) f pmm) i g := by
  have hturn := hg.turn ha hj
  have hpages : indices (s.page i) ≠ indices (s.page j) := fun he => hne (hg.site.page_inj hi hj he)
  exact ⟨List.mem_cons_of_mem f h.taken,hturn.used g h.used,
    (hturn.others _ (hg.site.slot i hi) hpages).trans h.mapped⟩

theorem backs_new (hg : Grounded slots s) (ha : pmmAllocPageForElf s.vm.pmm = some (f,pmm))
    (hj : j < 65536) (hok : (vmmMapPage { s.vm with pmm := pmm } (s.page j) (f*4096) heapFlags).1 = true) :
    Backs (s.mapPage (s.page j) f pmm) j f := by
  have hturn := hg.turn ha hj
  have hlt := allocForElf_lt hg.top ha
  have hmax : maxPages = 32768 := rfl
  refine ⟨List.mem_cons_self,hturn.frame.used,?_⟩
  rw [hturn.cr3,mapPage_vm hg hj]
  exact hg.proper.turn_mapped (allocForElf_spec ha).1 (fun _ _ => rfl) (hg.site.slot j hj) (by omega)
    (hg.site.canonical j hj) (by decide) hok

theorem Placed.of_eq {t : Backed} (h : Placed s c) (hstart : t.heap.start = s.heap.start)
    (hvm : t.vm = s.vm) (htaken : t.taken = s.taken) : Placed t c := by
  refine Assigned.imp h fun i _ f hf => ?_
  obtain ⟨h1,h2,h3⟩ := hf
  rw [Backed.page,← hstart] at h3
  rw [← htaken] at h1
  rw [← hvm] at h2 h3
  exact ⟨h1,h2,h3⟩

theorem Placed.mapPage (h : Placed s c) (hg : Grounded slots s)
    (ha : pmmAllocPageForElf s.vm.pmm = some (f,pmm)) (hj : j < 65536) (hc : c ≤ j) :
    Placed (s.mapPage (s.page j) f pmm) c :=
  Assigned.imp h fun i _ _ hb => hb.mapPage hg ha (by omega) hj (by omega)

/-- The frames of the pages so far are in use, so that the new one is another. -/
theorem Placed.succ (h : Placed s j) (hg : Grounded slots s)
    (ha : pmmAllocPageForElf s.vm.pmm = some (f,pmm)) (hj : j < 65536)
    (hok : (vmmMapPage { s.vm with pmm := pmm } (s.page j) (f*4096) heapFlags).1 = true) :
    Placed (s.mapPage (s.page j) f pmm) (j+1) := by
  refine Assigned.succ h (fun i hi g hb => ⟨hb.mapPage hg ha (by omega) hj (by omega),?_⟩)
    (backs_new hg ha hj hok)
  rintro rfl
  have hused := hb.used
  rw [(allocForElf_spec ha).1.free] at hused
  cases hused

end

/-! An extension. -/

/-- Every `vmm_map_page` of the loop comes to its page table. -/
def allMapped (regionStart : ℕ) : ℕ → ℕ → Backed → Bool
  | 0, _, _ => true
  | n+1, i, s =>
    match pmmAllocPageForElf s.vm.pmm with
    | none => true
    | some (f,pmm) =>
      (vmmMapPage { s.vm with pmm := pmm } ((regionStart+i*4096)%2^64) (f*4096) heapFlags).1 &&
        allMapped regionStart n (i+1) (s.mapPage (regionStart+i*4096) f pmm)

section
variable {slots : Set ℕ} {s : Backed} {regionStart n i j : ℕ}

theorem mapPages_placed (hg : Grounded slots s) (hrs : regionStart+i*4096 = s.page j)
    (hroom : j+(highFrames s.vm.pmm).length ≤ 65536) :
    Grounded slots (mapPages regionStart n i s).2 ∧
      (∀ c ≤ j, Placed s c → Placed (mapPages regionStart n i s).2 c) ∧
      ((mapPages regionStart n i s).1 = true → allMapped regionStart n i s = true → Placed s j →
        Placed (mapPages regionStart n i s).2 (j+n)) := by
  induction n generalizing i j s with
  | zero => exact ⟨hg,fun c _ h => h,fun _ _ h => h⟩
  | succ n ih =>
    simp only [mapPages,allMapped]
    cases ha : pmmAllocPageForElf s.vm.pmm with
    | none => exact ⟨hg,fun c _ h => h,fun hf => by cases hf⟩
    | some x =>
      obtain ⟨f,pmm⟩ := x
      simp only
      have hhigh := mapPage_highFrames ha (s.page j)
      rw [hhigh,List.length_cons] at hroom
      have hj : j < 65536 := by omega
      rw [hrs,hg.page_mod hj]
      have hnext : regionStart+(i+1)*4096 = (s.mapPage (s.page j) f pmm).page (j+1) := by
        have hp : (s.mapPage (s.page j) f pmm).page (j+1) = s.page j+4096 := by
          simp only [Backed.page,Backed.mapPage]
          omega
        rw [hp,← hrs,Nat.add_mul,Nat.one_mul,Nat.add_assoc]
      obtain ⟨hg',hold,hnew⟩ := ih (hg.mapPage ha hj) hnext (by omega)
      refine ⟨hg',fun c hc h => hold c (by omega) (h.mapPage hg ha hj hc),fun ht hall h => ?_⟩
      obtain ⟨hok,hall⟩ := Bool.and_eq_true_iff.mp hall
      have hplaced := hnew ht hall (h.succ hg ha hj hok)
      rwa [Nat.add_assoc,Nat.add_comm 1 n] at hplaced

theorem mapPages_length (h : (mapPages regionStart n i s).1 = true) :
    n ≤ (highFrames s.vm.pmm).length := by
  induction n generalizing i s with
  | zero => exact Nat.zero_le _
  | succ n ih =>
    simp only [mapPages] at h
    cases ha : pmmAllocPageForElf s.vm.pmm with
    | none => simp [ha] at h
    | some x =>
      simp only [ha] at h
      rw [mapPage_highFrames ha (regionStart+i*4096),List.length_cons]
      exact Nat.succ_le_succ (ih h)

/-- The state of the heap between calls. -/
structure Sound (slots : Set ℕ) (s : Backed) : Prop extends Grounded slots s where
  brk : s.heap.brk = s.heap.start+s.heap.mapped
  whole : 4096 ∣ s.heap.mapped
  cap : s.heap.mapped ≤ heapMaxSize
  placed : Placed s (s.heap.mapped/4096)

/-- An extension that returns a region has found the frames for the tables that were missing. -/
def Served (s : Backed) (bytes : ℕ) : Prop :=
  (heapExtend bytes s).1 ≠ 0 → allMapped s.heap.brk (u64 (bytes+4095)/4096) 0 s = true

theorem Sound.extend (h : Sound slots s) {bytes : ℕ} (hserved : Served s bytes) :
    Sound slots (heapExtend bytes s).2 := by
  have hcap := h.cap
  have hwhole := h.whole
  have hmax : heapMaxSize = 25165824 := rfl
  have hpages : maxPages = 32768 := rfl
  have hfew : (highFrames s.vm.pmm).length ≤ 32768 := highFrames_length s.vm.pmm h.top
  have hbrk : s.heap.brk+0*4096 = s.page (s.heap.mapped/4096) := by
    rw [h.brk,Backed.page]
    omega
  obtain ⟨hg,hold,hnew⟩ := mapPages_placed (n:=u64 (bytes+4095)/4096) h.toGrounded hbrk (by omega)
  have hlen := @mapPages_length s s.heap.brk (u64 (bytes+4095)/4096) 0
  have hheap := (mapPages_heap (n:=u64 (bytes+4095)/4096) (granted_zero s)).1
  simp only [Served,heapExtend] at hserved ⊢
  split
  · exact h
  rename_i h0
  split
  · exact h
  rename_i hle
  rw [if_neg h0,if_neg hle] at hserved
  generalize mapPages s.heap.brk (u64 (bytes+4095)/4096) 0 s = x at hg hold hnew hlen hheap hserved
  obtain ⟨b,t⟩ := x
  obtain ⟨⟨ram,start,brk,freeList,mapped,usedBytes⟩,vm,taken⟩ := t
  obtain ⟨rfl,rfl,rfl,rfl,rfl,rfl⟩ := HeapState.mk.inj hheap
  cases b with
  | false => exact ⟨hg,h.brk,h.whole,h.cap,hold _ le_rfl h.placed⟩
  | true =>
    have hfits : u64 (bytes+4095)/4096 ≤ 32768 := (hlen rfl).trans hfew
    have hregion : u64 (u64 (bytes+4095)/4096*4096) = u64 (bytes+4095)/4096*4096 :=
      Heap.u64_of_lt (by omega)
    have hsum : u64 (s.heap.mapped+u64 (bytes+4095)/4096*4096) =
        s.heap.mapped+u64 (bytes+4095)/4096*4096 := Heap.u64_of_lt (by omega)
    rw [hregion] at hle ⊢
    rw [hsum] at hle ⊢
    have hroom := h.site.room
    have hpos := h.site.pos
    have hb := h.brk
    have hend : u64 (s.heap.brk+u64 (bytes+4095)/4096*4096) =
        s.heap.start+(s.heap.mapped+u64 (bytes+4095)/4096*4096) := by
      rw [hb,Nat.add_assoc]
      exact Heap.u64_of_lt (by omega)
    have hplaced := hnew rfl (hserved (by simp only; omega)) h.placed
    refine ⟨⟨hg.site,hg.proper,hg.top⟩,hend,?_,by simp only; omega,?_⟩
    · exact Nat.dvd_add hwhole (Nat.dvd_mul_left _ _)
    · rw [show s.heap.mapped/4096+u64 (bytes+4095)/4096 =
        (s.heap.mapped+u64 (bytes+4095)/4096*4096)/4096 by omega] at hplaced
      exact hplaced.of_eq rfl rfl rfl

end

/-! Runs. -/

/-- What happens to the heap: calls, stores by the owners of blocks, and whatever else the kernel
does to memory and to the allocator. -/
inductive Event where
  | kmalloc (n : ℕ)
  | kfree (ptr : ℕ)
  | store (a v : ℕ)
  | others (vm : Vm)

def step (s : Backed) : Event → Option Backed
  | .kmalloc n => (kmalloc n s).map Prod.snd
  | .kfree ptr => kfree ptr s
  | .store a v => some (s.setHeap { s.heap with ram := s.heap.ram.store a v })
  | .others vm => some { s with vm := vm }

/-- The rest of the kernel may go over to another root, whose slots lead to the same tables.  It
neither writes to the tables of the heap nor frees them or its pages. -/
structure Spares (slots : Set ℕ) (s : Backed) (vm : Vm) : Prop where
  words : SameTables slots s.vm.mem vm.mem s.vm.cr3 vm.cr3
  root : vm.pmm.bitmap vm.cr3 = true
  apart : ∀ p, Within slots p → reach hwNext s.vm.mem true s.vm.cr3 p = some vm.cr3 → p = []
  tables : ∀ p f, Within slots p → p ≠ [] → reach hwNext s.vm.mem true s.vm.cr3 p = some f →
    vm.pmm.bitmap f = true
  frames : ∀ f ∈ s.taken, s.vm.pmm.bitmap f = true → vm.pmm.bitmap f = true
  top : vm.pmm.nextHigh ≤ vm.pmm.zones.highEnd

/-- The LOW zone has frames for the tables of an extension that goes through. -/
def Allowed (slots : Set ℕ) (s : Backed) : Event → Prop
  | .kmalloc n => n ≠ 0 → findFreeBlock s.heap (Heap.roundUp n) = some 0 →
      Served s (u64 (Heap.roundUp n+48))
  | .kfree _ => True
  | .store _ _ => True
  | .others vm => Spares slots s vm

/-- The bounds of the region are the same. -/
structure SameRegion (h h' : HeapState) : Prop where
  start : h'.start = h.start
  brk : h'.brk = h.brk
  mapped : h'.mapped = h.mapped

variable {h' h : HeapState}

theorem linkRegion_same {r : ℕ} (hl : linkRegion h r = some h') : SameRegion h h' := by
  simp only [linkRegion] at hl
  split at hl
  · rw [← Option.some.inj hl]
    exact ⟨rfl,rfl,rfl⟩
  · obtain ⟨cur,-,rfl⟩ := Option.map_eq_some_iff.mp hl
    exact ⟨rfl,rfl,rfl⟩

theorem coalesceBlocks_same (hc : coalesceBlocks h = some h') : SameRegion h h' := by
  obtain ⟨r,-,rfl⟩ := Option.map_eq_some_iff.mp hc
  exact ⟨rfl,rfl,rfl⟩

theorem kfree_same {ptr : ℕ} (hk : Heap.kfree ptr h = some h') : SameRegion h h' := by
  simp only [Heap.kfree] at hk
  split at hk
  · rw [← Option.some.inj hk]
    exact ⟨rfl,rfl,rfl⟩
  split at hk
  · rw [← Option.some.inj hk]
    exact ⟨rfl,rfl,rfl⟩
  split at hk
  · rw [← Option.some.inj hk]
    exact ⟨rfl,rfl,rfl⟩
  · obtain ⟨h1,h2,h3⟩ := coalesceBlocks_same hk
    exact ⟨h1,h2,h3⟩

section
variable {slots : Set ℕ} {s t : Backed}

theorem Sound.setHeap (h : Sound slots s) (he : SameRegion s.heap h') :
    Sound slots (s.setHeap h') := by
  obtain ⟨h1,h2,h3⟩ := he
  refine ⟨⟨?_,h.proper,h.top⟩,?_,?_,?_,?_⟩ <;> simp only [Backed.setHeap]
  · rw [h1]
    exact h.site
  · rw [h1,h2,h3]
    exact h.brk
  · rw [h3]
    exact h.whole
  · rw [h3]
    exact h.cap
  · rw [h3]
    exact h.placed.of_eq h1 rfl rfl

theorem Sound.kmalloc {n p : ℕ} (h : Sound slots s) (hok : Allowed slots s (.kmalloc n))
    (hk : kmalloc n s = some (p,t)) : Sound slots t := by
  simp only [Backing.kmalloc] at hk
  split at hk
  · rwa [← (Prod.mk.inj (Option.some.inj hk)).2]
  rename_i h0
  obtain ⟨block,hb,hk⟩ := Option.bind_eq_some_iff.mp hk
  split at hk
  · rw [← (Prod.mk.inj (Option.some.inj hk)).2]
    exact h.setHeap ⟨rfl,rfl,rfl⟩
  rename_i hblock
  rw [not_not.mp hblock] at hb
  have hext := h.extend (hok h0 hb)
  split at hk
  · rwa [← (Prod.mk.inj (Option.some.inj hk)).2]
  obtain ⟨h₁,hl,hk⟩ := Option.bind_eq_some_iff.mp hk
  obtain ⟨h₂,hc,hk⟩ := Option.bind_eq_some_iff.mp hk
  obtain ⟨block',-,hk⟩ := Option.bind_eq_some_iff.mp hk
  obtain ⟨hs₁,hb₁,hm₁⟩ := linkRegion_same hl
  obtain ⟨hs₂,hb₂,hm₂⟩ := coalesceBlocks_same hc
  split at hk
  · rw [← (Prod.mk.inj (Option.some.inj hk)).2]
    exact hext.setHeap ⟨hs₂.trans hs₁,hb₂.trans hb₁,hm₂.trans hm₁⟩
  · rw [← (Prod.mk.inj (Option.some.inj hk)).2]
    exact hext.setHeap ⟨hs₂.trans hs₁,hb₂.trans hb₁,hm₂.trans hm₁⟩

theorem Sound.others {vm : Vm} (h : Sound slots s) (hv : Spares slots s vm) :
    Sound slots { s with vm := vm } := by
  obtain ⟨hproper,hsame⟩ := h.proper.congr hv.words hv.root hv.apart hv.tables
  refine ⟨⟨h.site,hproper,hv.top⟩,h.brk,h.whole,h.cap,?_⟩
  have hcap := h.cap
  have hmax : heapMaxSize = 25165824 := rfl
  refine Assigned.imp h.placed fun i hi f hf => ?_
  obtain ⟨h1,h2,h3⟩ := hf
  refine ⟨h1,hv.frames _ h1 h2,?_⟩
  have hslot : pml4Idx (s.page i) ∈ slots := h.site.slot i (by simp only at hi; omega)
  rw [← hsame _ hslot] at h3
  exact h3

theorem Sound.step {e : Event} (h : Sound slots s) (hok : Allowed slots s e)
    (ht : step s e = some t) : Sound slots t := by
  cases e with
  | kmalloc n =>
    obtain ⟨⟨p,u⟩,hk,rfl⟩ := Option.map_eq_some_iff.mp ht
    exact h.kmalloc hok hk
  | kfree ptr =>
    obtain ⟨h',hk,rfl⟩ := Option.map_eq_some_iff.mp ht
    exact h.setHeap (kfree_same hk)
  | store a v =>
    obtain rfl := Option.some.inj ht
    exact h.setHeap ⟨rfl,rfl,rfl⟩
  | others vm =>
    obtain rfl := Option.some.inj ht
    exact h.others hok

theorem Sound.heapMapped (h : Sound slots s) : HeapMapped s := by
  obtain ⟨frame,hback,hinj⟩ := h.placed
  have hbrk := h.brk
  obtain ⟨k,hk⟩ := h.whole
  have hin : ∀ i, s.page i < s.heap.brk → i < s.heap.mapped/4096 := by
    intro i hi
    simp only [Backed.page] at hi
    omega
  exact ⟨frame,fun i hi => hback i (hin i hi),fun i j hi hj => hinj i (hin i hi) j (hin j hj)⟩

theorem heapInit_sound {start size : ℕ} {vm : Vm} {r : Ram} (hg : Grounded slots (noRegion start vm r))
    (hserved : Served (noRegion start vm r) (initialSize size)) :
    Sound slots (heapInit start size vm r) := by
  have hpages : (noRegion start vm r).heap.mapped/4096 = 0 := Nat.zero_div 4096
  have hempty : Sound slots (noRegion start vm r) := by
    refine ⟨hg,rfl,Nat.dvd_zero _,Nat.zero_le _,?_⟩
    rw [hpages]
    exact assigned_zero
  have hext := hempty.extend hserved
  simp only [heapInit]
  generalize heapExtend (initialSize size) (noRegion start vm r) = x at hext
  split
  · exact hext
  · exact hext.setHeap ⟨rfl,rfl,rfl⟩

end

/-- In every run in which the extensions that return a region find frames for the tables that they
need, every page of the heap is mapped in every state. -/
theorem heap_run_mapped {slots : Set ℕ} {start size : ℕ} {vm : Vm} {r : Ram}
    (hg : Grounded slots (noRegion start vm r)) (hinit : Served (noRegion start vm r) (initialSize size))
    {events : List Event} (hok : Admits step (Allowed slots) (heapInit start size vm r) events)
    {s : Backed} (hrun : run step (heapInit start size vm r) events = some s) : HeapMapped s :=
  (run_invariant (Sound slots) (fun _ _ _ h hok ht => h.step hok ht) (heapInit_sound hg hinit) hok
    hrun).heapMapped

/-- A machine with three frames left for tables and four for pages. -/
def lastTables : Vm := ⟨bootMem 16,
  { bootPmm with bitmap := fun f => f < 8189 || 8195 < f, nextLow := 8189, nextHigh := 8195 },16⟩

/-- A heap begins two pages below the end of what a page table covers, and its first page takes the
three tables.  After a block that fills this page, a block of two pages is handed out, of which the
second is not mapped; all stores up to then went to pages that are. -/
theorem heap_page_unmapped :
    ((run step (heapInit 0xFFFF9000001FE000 4096 lastTables ⟨fun _ => 0,[]⟩) [.kmalloc 4048]).bind
      (kmalloc 8144)).map (fun x => (x.1,x.2.heap.brk,translation x.2.vm.mem x.2.vm.cr3 (x.2.page 2),
        x.2.heap.ram.log.all fun a => (translation x.2.vm.mem x.2.vm.cr3 a).isSome)) =
      some (0xFFFF9000001FF030,0xFFFF900000201000,none,true) := by
  decide +kernel

theorem lastTables_grounded :
    Grounded {288} (noRegion heapStartAddr lastTables ⟨fun _ => 0,[]⟩) := by
  have hslot : ∀ i < 65536, pml4Idx (heapStartAddr+4096*i) ∈ ({288} : Set ℕ) := by
    intro i hi
    simp only [Set.mem_singleton_iff,pml4Idx,heapStartAddr]
    omega
  have hcanonical : ∀ i < 65536, Canonical (heapStartAddr+4096*i) := by
    intro i hi
    simp only [Canonical,heapStartAddr]
    omega
  have habsent : ∀ i ∈ ({288} : Set ℕ), present (lastTables.mem 16 i) = false := by
    intro i hi
    rw [Set.mem_singleton_iff.mp hi]
    decide +kernel
  exact ⟨⟨by decide,by decide,hslot,hcanonical,by decide⟩,proper_of_absent habsent (by decide) subset_rfl,by decide⟩

theorem heap_run_mapped_grown : ∃ s,
    run step (heapInit heapStartAddr 4096 lastTables ⟨fun _ => 0,[]⟩) [.kmalloc 5000] = some s ∧
      HeapMapped s := by
  have hinit : Served (noRegion heapStartAddr lastTables ⟨fun _ => 0,[]⟩) (initialSize 4096) :=
    fun _ => by decide +kernel
  have hserved : Served (heapInit heapStartAddr 4096 lastTables ⟨fun _ => 0,[]⟩)
    (u64 (Heap.roundUp 5000+48)) := fun _ => by decide +kernel
  have hrun : (run step (heapInit heapStartAddr 4096 lastTables ⟨fun _ => 0,[]⟩)
    [.kmalloc 5000]).isSome = true := by decide +kernel
  have hok : Admits step (Allowed {288}) (heapInit heapStartAddr 4096 lastTables ⟨fun _ => 0,[]⟩)
    [.kmalloc 5000] := ⟨fun _ _ => hserved,fun _ _ => trivial⟩
  obtain ⟨s,hs⟩ := Option.isSome_iff_exists.mp hrun
  exact ⟨s,hs,heap_run_mapped lastTables_grounded hinit hok hs⟩

end Backing
end DonsOs
