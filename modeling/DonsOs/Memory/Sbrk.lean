import DonsOs.Memory.Break
import DonsOs.Memory.CopyExact
import DonsOs.Memory.Region
import DonsOs.Memory.Upkeep

/-! The heap of a process, as the process sees it.
`sbrk` of the C library keeps the break in a static and asks `sys_brk` for every change.  `sys_brk`
maps the pages that are missing, each to a cleared frame, and gives no page back when the break
falls. -/
namespace DonsOs
namespace Memory

open Paging LinkedTables Run
open Heap (heapStartAddr)

/-! The calls. -/

/-- `process_get_current`. -/
def Sys.running (s : Sys) : Option Proc := s.current.bind s.find

/-- The system call `SYS_BRK`.  User space takes the result for an `int64_t`. -/
def Sys.brk (s : Sys) (inc : ℤ) (grow : ℕ → Bool) : ℤ × Sys :=
  match s.running with
  | none => (-1,s)
  | some p => ((sysBrk s p inc grow).1.bmod (2^64),(sysBrk s p inc grow).2)

/-- The machine while a process runs, and its static `heap_end_cached`. -/
structure Session where
  sys : Sys
  cached : ℤ

def Session.vm (s : Session) : Vm := s.sys.kmem.vm

/-- `sbrk` from where `heap_end_cached` is set. -/
def moveBreak (s : Session) (incr : ℤ) (grow : ℕ → Bool) : ℤ × Session :=
  if incr = 0 then (s.cached,s) else
  let extended := s.sys.brk incr grow
  if extended.1 = -1 then (-1,{ s with sys := extended.2 }) else (s.cached,⟨extended.2,extended.1⟩)

def sbrk (s : Session) (incr : ℤ) (grow : ℕ → Bool) : ℤ × Session :=
  if s.cached = 0 then
    let current := s.sys.brk 0 grow
    if current.1 = -1 then (-1,{ s with sys := current.2 }) else
    moveBreak ⟨current.2,current.1⟩ incr grow
  else moveBreak s incr grow

/-- Where the process stores to when it writes the address `a`. -/
def Session.place (s : Session) (a : ℕ) : Option ℕ :=
  (translation s.vm.mem s.vm.cr3 a).bind fun l =>
    if l.user && l.writable then some (l.frame*4096+a%4096) else none

def Session.byte (s : Session) (a : ℕ) : Option (BitVec 8) := (s.place a).map (loadByte s.vm.mem)

def Session.setMem (s : Session) (m : Mem) : Session :=
  { s with sys := { s.sys with kmem := s.sys.kmem.setVm { s.vm with mem := m } } }

/-! What the process may rely on. -/

/-- A heap of its own: the break, and the bytes that it knows. -/
structure UserHeap where
  brk : ℕ
  bytes : ℕ → Option (BitVec 8)

def UserHeap.empty : UserHeap := ⟨heapBase,fun _ => none⟩

/-- The pages that are added are zero; bytes from the new break on are given up. -/
def UserHeap.resize (h : UserHeap) (brk : ℕ) : UserHeap where
  brk := brk
  bytes a := if roundUp h.brk ≤ a ∧ a < roundUp brk then some 0 else
    if a < brk then h.bytes a else none

def UserHeap.store (h : UserHeap) (a : ℕ) (b : BitVec 8) : UserHeap :=
  { h with bytes := Function.update h.bytes a (some b) }

inductive Act where
  | sbrk (incr : ℤ) (grow : ℕ → Bool)
  /-- The process writes to its heap. -/
  | store (a : ℕ) (b : BitVec 8)
  /-- Other processes and the kernel have their turn. -/
  | others (sys : Sys)

/-- The machine and the heap that the process reckons with, side by side. -/
def act (x : Session × UserHeap) : Act → Option (Session × UserHeap)
  | .sbrk incr grow =>
    let r := sbrk x.1 incr grow
    some (r.2,if r.1 = -1 then x.2 else x.2.resize (x.2.brk+incr).toNat)
  | .store a b => (x.1.place a).map fun phys => (x.1.setMem (storeByte x.1.vm.mem phys b),x.2.store a b)
  | .others sys => some ({ x.1 with sys := sys },x.2)

/-! Frames and tables. -/

/-- The entries of the root for the heap of the process and for that of the kernel. -/
def heapSlots : Set ℕ := {1,heapSlot}

theorem heapBase_slot {i : ℕ} (hi : i < 65536) : pml4Idx (heapBase+4096*i) = 1 := by
  simp only [pml4Idx,heapBase]
  omega

theorem heapBase_site : Site heapSlots heapBase := by
  refine ⟨by decide,by decide,fun i hi => ?_,fun i hi => ?_,by decide⟩
  · rw [heapBase_slot hi]
    exact Set.mem_insert 1 _
  · simp only [Canonical,heapBase]
    omega

/-- The tables of the process are fit for more pages, and there are no frames beyond the last. -/
structure Ready (slots : Set ℕ) (s : Vm) : Prop where
  proper : Proper slots heapSlots s s.cr3
  top : s.pmm.nextHigh ≤ s.pmm.zones.highEnd

/-- Page `i` of the heap is at the frame `f`, which is in use and none of the tables. -/
structure UserPage (slots : Set ℕ) (s : Vm) (i f : ℕ) : Prop where
  holds : Holds slots s s.cr3 f
  real : f < maxPages
  mapped : translation s.mem s.cr3 (heapBase+4096*i) = some ⟨f,true,true⟩

/-- The pages below `v`, but for the kernel's heap, are mapped as they were, and frames in use that
are no tables keep what they hold. -/
structure Spared (slots : Set ℕ) (v : ℕ) (s s' : Vm) : Prop where
  cr3 : s'.cr3 = s.cr3
  below : ∀ a, pml4Idx a ∈ slots → pml4Idx a ≠ heapSlot → a < v →
    translation s'.mem s'.cr3 a = translation s.mem s.cr3 a
  holds : ∀ g, Holds slots s s.cr3 g → Holds slots s' s'.cr3 g ∧ s'.mem g = s.mem g

section
variable {slots : Set ℕ} {s s' s'' : Vm} {u v f i n : ℕ} {page : ℕ → Word} {pmm : Pmm} {m : Mem}

theorem Spared.refl (slots : Set ℕ) (v : ℕ) (s : Vm) : Spared slots v s s :=
  ⟨rfl,fun _ _ _ _ => rfl,fun _ h => ⟨h,rfl⟩⟩

theorem Spared.trans (h : Spared slots v s s') (h' : Spared slots v s' s'') : Spared slots v s s'' := by
  refine ⟨h'.cr3.trans h.cr3,fun a h1 h2 h3 => (h'.below a h1 h2 h3).trans (h.below a h1 h2 h3),
    fun g hg => ?_⟩
  obtain ⟨hg',hm⟩ := h.holds g hg
  obtain ⟨hg'',hm'⟩ := h'.holds g hg'
  exact ⟨hg'',hm'.trans hm⟩

theorem Spared.mono (h : Spared slots v s s') (hu : u ≤ v) : Spared slots u s s' :=
  ⟨h.cr3,fun a h1 h2 h3 => h.below a h1 h2 (by omega),h.holds⟩

theorem Grows.top {p p' : Pmm} (h : Grows p p') (hp : p.nextHigh ≤ p.zones.highEnd) :
    p'.nextHigh ≤ p'.zones.highEnd := by
  have hn := h.nextHigh
  rw [h.zones]
  omega

theorem Turn.spared_heap (h : Turn slots heapSlots s s' u f page) (hu : pml4Idx u = heapSlot) (v : ℕ) :
    Spared slots v s s' := by
  refine ⟨h.cr3,fun a h1 h2 _ => h.others a h1 fun he => h2 ?_,h.holds⟩
  rw [← hu]
  exact (List.cons.inj he).1

theorem Turn.spared_page (h : Turn slots heapSlots s s' (heapBase+4096*i) f page) (hi : i < 65536)
    (hn : n ≤ i) : Spared slots (heapBase+4096*n) s s' := by
  refine ⟨h.cr3,fun a h1 _ h3 => h.others a h1 fun he => ?_,h.holds⟩
  have hinj := indices_inj he
  simp only [heapBase] at hinj h3
  omega

theorem heapStable_spared (slots : Set ℕ) (v : ℕ) (s₀ : Vm) :
    HeapStable fun s => Ready slots s ∧ Spared slots v s₀ s := by
  refine ⟨fun s h => h.1.top,fun s u f p h hu ha => ?_⟩
  obtain ⟨hready,hspared⟩ := h
  have hslot : pml4Idx u ∈ heapSlots := by
    rw [hu]
    exact Set.mem_insert_of_mem 1 rfl
  have hturn := hready.proper.turn (m:=s.mem) (allocForElf_spec ha).1 (fun _ _ => rfl) hslot heapFlags
  have hgrow := (Grows.alloc ha).trans (Grows.map { s with pmm := p } s.cr3 u (f*4096) heapFlags)
  exact ⟨⟨hturn.proper,hgrow.top hready.top⟩,hspared.trans (hturn.spared_heap hu v)⟩

theorem UserPage.spared (h : UserPage slots s i f) (hs : Spared slots (heapBase+4096*n) s s')
    (hslots : 1 ∈ slots) (hi : i < n) (hn : n ≤ 65536) :
    UserPage slots s' i f ∧ s'.mem f = s.mem f := by
  obtain ⟨hholds,hmem⟩ := hs.holds f h.holds
  have hslot := heapBase_slot (show i < 65536 by omega)
  refine ⟨⟨hholds,h.real,?_⟩,hmem⟩
  rw [hs.below _ (by rw [hslot]; exact hslots) (by rw [hslot]; decide) (by omega)]
  exact h.mapped

end

/-! The loop of `sys_brk`. -/

/-- Every `vmm_map_page_in_cr3` of the loop comes to its page table. -/
def brkMapped (cr3 : ℕ) (grow : ℕ → Bool) : List ℕ → Loading → Bool
  | [], _ => true
  | v::vs, l =>
    match pmmAllocPageForElf l.kmem.vm.pmm with
    | none => true
    | some (f,pmm) =>
      (vmmMapPageInCr3 { l.kmem.vm with pmm := pmm, mem := fill l.kmem.vm.mem f fun _ => 0 } cr3 v
          (f*4096) userFlags).1 &&
        brkMapped cr3 grow vs (elfAddPageToPcb grow (brkPlace cr3 l v f pmm) f)

/-- The loop has started from `s₀` with `n` pages and has added `k`. -/
structure Lengthened (slots : Set ℕ) (s₀ : Vm) (n k : ℕ) (l : Loading) : Prop where
  ready : Ready slots l.kmem.vm
  bounded : l.kmem.Bounded
  spared : Spared slots (heapBase+4096*n) s₀ l.kmem.vm
  pages : Assigned (fun i f => UserPage slots l.kmem.vm i f ∧
    (n ≤ i → l.kmem.vm.mem f = fun _ => 0)) (n+k)

section
variable {slots : Set ℕ} {s₀ : Vm} {n k f v : ℕ} {l : Loading} {grow : ℕ → Bool} {pmm : Pmm}

section

variable (h : Lengthened slots s₀ n k l)
include h

theorem Lengthened.count : n+k ≤ 32768 :=
  h.pages.count_le fun _ _ hp => hp.1.real

theorem Lengthened.place (hslots : 1 ∈ slots) (hv : v = heapBase+4096*(n+k))
    (ha : pmmAllocPageForElf l.kmem.vm.pmm = some (f,pmm))
    (hok : (vmmMapPageInCr3 { l.kmem.vm with pmm := pmm, mem := fill l.kmem.vm.mem f fun _ => 0 }
      l.kmem.vm.cr3 v (f*4096) userFlags).1 = true) :
    Lengthened slots s₀ n (k+1) (brkPlace l.kmem.vm.cr3 l v f pmm) := by
  have hcount := h.count
  have hi : n+k < 65536 := by omega
  have hlt := allocForElf_lt h.ready.top ha
  have hmax : maxPages = 32768 := rfl
  have hfill : ∀ g, g ≠ f → fill l.kmem.vm.mem f (fun _ => 0) g = l.kmem.vm.mem g := fun g hg =>
    fill_of_ne hg
  have hsite := heapBase_site
  subst hv
  have hturn := h.ready.proper.turn (allocForElf_spec ha).1 hfill (hsite.slot _ hi) userFlags
  have hmapped := h.ready.proper.turn_mapped (allocForElf_spec ha).1 hfill (hsite.slot _ hi) (by omega)
    (hsite.canonical _ hi) (by decide) hok
  have hgrow := (Grows.alloc ha).trans
    (Grows.map ⟨fill l.kmem.vm.mem f fun _ => 0,pmm,l.kmem.vm.cr3⟩ l.kmem.vm.cr3 (heapBase+4096*(n+k))
      (f*4096) userFlags)
  refine ⟨⟨hturn.proper,hgrow.top h.ready.top⟩,⟨h.bounded.brk,h.bounded.mapped⟩,
    h.spared.trans (hturn.spared_page hi (by omega)),?_⟩
  refine h.pages.succ (fun i hin g hg => ?_) ⟨⟨hturn.frame,hlt,?_⟩,fun _ => ?_⟩
  · obtain ⟨hpage,hmem⟩ := hg.1.spared (hturn.spared_page hi le_rfl) hslots hin (by omega)
    refine ⟨⟨hpage,fun hni => hmem.trans (hg.2 hni)⟩,?_⟩
    rintro rfl
    have hused := hg.1.holds.used
    rw [(allocForElf_spec ha).1.free] at hused
    cases hused
  · have hopen : user userFlags = true ∧ writable userFlags = true := by decide
    have hcr3 : (brkPlace l.kmem.vm.cr3 l (heapBase+4096*(n+k)) f pmm).kmem.vm.cr3 = l.kmem.vm.cr3 :=
      hturn.cr3
    rw [hopen.1,hopen.2] at hmapped
    rw [hcr3]
    exact hmapped
  · exact hturn.page.trans (by simp)

theorem Lengthened.addPage (hslots : 1 ∈ slots) (grow : ℕ → Bool) (f : ℕ) :
    Lengthened slots s₀ n k (elfAddPageToPcb grow l f) := by
  have hcount := h.count
  obtain ⟨⟨hready,hspared⟩,hbounded⟩ := (heapStable_spared slots (heapBase+4096*65536)
    l.kmem.vm).addPage ⟨h.ready,Spared.refl ..⟩ h.bounded grow f
  refine ⟨hready,hbounded,h.spared.trans (hspared.mono (by omega)),h.pages.imp fun i hi g hg => ?_⟩
  obtain ⟨hpage,hmem⟩ := hg.1.spared hspared hslots (by omega) le_rfl
  exact ⟨hpage,fun hni => hmem.trans (hg.2 hni)⟩

theorem Lengthened.loop {vs : List ℕ} (hslots : 1 ∈ slots)
    (hvs : ∀ j v, vs[j]? = some v → v = heapBase+4096*(n+(k+j)))
    (hmapped : brkMapped s₀.cr3 grow vs l = true) :
    Ends (Lengthened slots s₀ n (k+vs.length)) (fun l => ∃ k, Lengthened slots s₀ n k l)
      (vs.foldlM (brkPage s₀.cr3 grow) l) := by
  induction vs generalizing k l with
  | nil => exact h
  | cons v vs ih =>
    rw [List.foldlM_cons]
    simp only [brkMapped] at hmapped
    cases ha : pmmAllocPageForElf l.kmem.vm.pmm with
    | none =>
      have hfail : brkPage s₀.cr3 grow l v = .error l := by
        simp only [brkPage,ha]
      rw [hfail]
      exact ⟨k,h⟩
    | some x =>
      obtain ⟨f,pmm⟩ := x
      simp only [ha,Bool.and_eq_true] at hmapped
      have hok : brkPage s₀.cr3 grow l v =
          .ok (elfAddPageToPcb grow (brkPlace s₀.cr3 l v f pmm) f) := by
        simp only [brkPage,ha,brkPlace]
      have hnext : Lengthened slots s₀ n (k+1) (elfAddPageToPcb grow (brkPlace s₀.cr3 l v f pmm) f) := by
        have hv := hvs 0 v rfl
        rw [← h.spared.cr3] at hmapped ⊢
        exact (h.place hslots hv ha hmapped.1).addPage hslots grow f
      rw [hok]
      have hrest := ih hnext (fun j w hw => by
        rw [hvs (j+1) w (by simpa using hw)]
        congr 3
        omega) hmapped.2
      rwa [Nat.add_assoc,Nat.add_comm 1] at hrest

end

end

/-! `sys_brk`. -/

/-- The pages of a heap that ends at `b`. -/
def pageCount (b : ℕ) : ℕ := (b-heapBase+4095)/4096

theorem pageCount_spec {b : ℕ} (h : heapBase ≤ b) :
    b ≤ heapBase+4096*pageCount b ∧ heapBase+4096*pageCount b < b+4096 := by
  simp only [pageCount]
  generalize heapBase = base at *
  omega

theorem roundUp_brk {b : ℕ} (h : heapBase ≤ b) (hlt : b < 2^63) :
    roundUp b = heapBase+4096*pageCount b := by
  simp only [roundUp,pageCount,heapBase] at *
  omega

/-- The process `p` runs on its own tables, and all pages up to its break are there. -/
structure Serving (slots : Set ℕ) (s : Sys) (p : Proc) (brk : ℕ) : Prop where
  runs : s.running = some p
  root : p.cr3 = s.kmem.vm.cr3
  ends : p.oldBrk = brk
  floor : heapBase ≤ brk
  ready : Ready slots s.kmem.vm
  bounded : s.kmem.Bounded
  pages : Assigned (UserPage slots s.kmem.vm) (pageCount brk)

/-- The break has gone from `brk` to `new`: the pages below stay, and those added are zero. -/
structure Resized (slots : Set ℕ) (s s' : Sys) (brk new : ℕ) : Prop where
  serving : ∃ p, Serving slots s' p new ∧ p.brkVirt = new
  spared : Spared slots (heapBase+4096*pageCount brk) s.kmem.vm s'.kmem.vm
  zero : ∀ i f, pageCount brk ≤ i → i < pageCount new → UserPage slots s'.kmem.vm i f →
    s'.kmem.vm.mem f = fun _ => 0

section
variable {slots : Set ℕ} {s s' s'' : Sys} {p : Proc} {brk new : ℕ} {inc : ℤ} {grow : ℕ → Bool}

theorem running_spec (h : s.running = some p) : s.current = some p.pid ∧ s.find p.pid = some p := by
  obtain ⟨pid,hcur,hfind⟩ := Option.bind_eq_some_iff.mp h
  have hpid : p.pid = pid := by simpa using List.find?_some hfind
  rw [hpid]
  exact ⟨hcur,hfind⟩

theorem running_setBrk (h : s.running = some p) (v : ℕ) :
    (s.update p.pid fun q => { q with brkVirt := v }).running = some { p with brkVirt := v } := by
  obtain ⟨hcur,hfind⟩ := running_spec h
  have hcur' : (s.update p.pid fun q => { q with brkVirt := v }).current = some p.pid := hcur
  rw [Sys.running,hcur',Option.bind_some,find_setBrk hfind]

theorem running_loaded (h : s.running = some p) (l : Loading) :
    (s.loaded p.pid l).running = some { p with elfPages := l.pages } := by
  obtain ⟨hcur,hfind⟩ := running_spec h
  have hcur' : (s.loaded p.pid l).current = some p.pid := hcur
  rw [Sys.running,hcur',Option.bind_some,find_loaded hfind]

section

variable (h : Serving slots s p brk)
include h

theorem Serving.count : pageCount brk ≤ 32768 :=
  h.pages.count_le fun _ _ hp => hp.real

theorem Serving.lt : brk < 2^40 := by
  have hcount := h.count
  have hspec := pageCount_spec h.floor
  have hbase : heapBase = 0x8000200000 := rfl
  omega

theorem Serving.start {l : Loading} (hl : l.kmem = s.kmem) :
    Lengthened slots s.kmem.vm (pageCount brk) 0 l := by
  refine ⟨?_,?_,?_,?_⟩ <;> rw [hl]
  · exact h.ready
  · exact h.bounded
  · exact Spared.refl ..
  · rw [Nat.add_zero]
    exact h.pages.imp fun i hi f hf => ⟨hf,fun hle => absurd hle (by omega)⟩

theorem Serving.loop (hslots : 1 ∈ slots) {l : Loading} (hl : l.kmem = s.kmem)
    (hnew : heapBase ≤ new) (hlt : new < 2^63)
    (hmapped : brkMapped p.cr3 grow (pagesFrom (roundUp brk) (roundUp new)) l = true) :
    Ends (Lengthened slots s.kmem.vm (pageCount brk) (pageCount new-pageCount brk))
      (fun l => ∃ k, Lengthened slots s.kmem.vm (pageCount brk) k l)
      ((pagesFrom (roundUp brk) (roundUp new)).foldlM (brkPage p.cr3 grow) l) := by
  have hbrk := h.lt
  have hround := roundUp_brk h.floor (by omega)
  have hround' := roundUp_brk hnew hlt
  have hlen : (pagesFrom (roundUp brk) (roundUp new)).length = pageCount new-pageCount brk := by
    rw [pagesFrom,List.length_map,List.length_range,hround,hround']
    omega
  have hpage : ∀ j v, (pagesFrom (roundUp brk) (roundUp new))[j]? = some v →
      v = heapBase+4096*(pageCount brk+(0+j)) := by
    intro j v hv
    rw [pagesFrom,List.getElem?_map] at hv
    obtain ⟨i,hi,rfl⟩ := Option.map_eq_some_iff.mp hv
    have hij := (List.getElem?_eq_some_iff.mp hi).2
    rw [List.getElem_range] at hij
    rw [hround,← hij]
    omega
  rw [h.root] at hmapped ⊢
  have hloop := (h.start hl).loop hslots hpage hmapped
  rwa [hlen,Nat.zero_add] at hloop

/-- With the pages that the loop has added, the break may be set. -/
theorem Serving.resized {k : ℕ} {l : Loading}
    (hl : Lengthened slots s.kmem.vm (pageCount brk) k l) (hk : s'.kmem = l.kmem) {p' : Proc}
    (hrun : s'.running = some p') (hroot : p'.cr3 = p.cr3) (hbrk : p'.brkVirt = new)
    (hnew : heapBase ≤ new) (hcount : pageCount new ≤ pageCount brk+k) : Resized slots s s' brk new := by
  have hcr3 := hl.spared.cr3
  have hpos : 0 < heapBase := by decide
  have hold : p'.oldBrk = new := by
    rw [Proc.oldBrk,hbrk,if_neg (by omega)]
  refine ⟨⟨p',⟨hrun,?_,hold,hnew,?_,?_,?_⟩,hbrk⟩,?_,fun i f hi hlt hf => ?_⟩ <;> rw [hk] at *
  · rw [hroot,h.root,hcr3]
  · exact hl.ready
  · exact hl.bounded
  · exact (hl.pages.mono hcount).imp fun i _ f hf => hf.1
  · exact hl.spared
  · obtain ⟨frame,hframe,-⟩ := hl.pages
    obtain ⟨hpage,hzero⟩ := hframe i (by omega)
    have hsame := Option.some.inj (hpage.mapped.symm.trans hf.mapped)
    rw [← (Leaf.mk.inj hsame).1]
    exact hzero hi

/-- A call leaves the break where it was, or sets it to the sum. -/
theorem Serving.sysBrk (hslots : 1 ∈ slots) (hinc : |inc| < brk)
    (hmapped : brkMapped p.cr3 grow (p.brkPages inc) ⟨s.kmem,p.elfPages,0⟩ = true) :
    ∃ new, Resized slots s (sysBrk s p inc grow).2 brk new ∧
      ((sysBrk s p inc grow).1 = -1 ∧ new = brk ∨ (sysBrk s p inc grow).1 = new ∧ (new : ℤ) = brk+inc) := by
  have hbound := h.lt
  have hfloor := h.floor
  rw [abs_lt] at hinc
  have hset := running_setBrk h.runs p.oldBrk
  have hstart : Lengthened slots s.kmem.vm (pageCount brk) 0 ⟨s.kmem,p.elfPages,0⟩ := h.start rfl
  have hnew : (p.newBrk inc : ℤ) = brk+inc := by
    rw [Proc.newBrk,h.ends]
    omega
  by_cases hzero : inc = 0
  · have hcall : Memory.sysBrk s p inc grow =
        ((p.oldBrk : ℤ),s.update p.pid fun q => { q with brkVirt := p.oldBrk }) := by
      simp only [Memory.sysBrk,if_pos hzero]
    rw [hcall]
    exact ⟨brk,h.resized hstart rfl hset rfl h.ends hfloor (Nat.le_add_right _ _),Or.inr ⟨by rw [h.ends],by omega⟩⟩
  by_cases hlow : p.newBrk inc < heapBase
  · rw [sysBrk_floor s grow (by omega) hlow]
    exact ⟨brk,h.resized hstart rfl hset rfl h.ends hfloor (Nat.le_add_right _ _),Or.inl ⟨rfl,rfl⟩⟩
  have hge := Nat.not_lt.mp hlow
  have hmapped' : brkMapped p.cr3 grow (pagesFrom (roundUp brk) (roundUp (p.newBrk inc)))
      ⟨s.kmem,p.elfPages,0⟩ = true := by
    rw [← h.ends]
    exact hmapped
  have hloop := h.loop hslots rfl hge (by omega) hmapped'
  rw [sysBrk_loop s grow hzero hge,Proc.brkPages,h.ends]
  rw [h.ends] at hset
  cases he : (pagesFrom (roundUp brk) (roundUp (p.newBrk inc))).foldlM (brkPage p.cr3 grow)
    ⟨s.kmem,p.elfPages,0⟩ with
  | error l =>
    rw [he] at hloop
    obtain ⟨k,hl⟩ := hloop
    exact ⟨brk,h.resized hl rfl (running_loaded hset l) rfl rfl hfloor (Nat.le_add_right _ _),
      Or.inl ⟨rfl,rfl⟩⟩
  | ok l =>
    rw [he] at hloop
    have hrun := running_setBrk (running_loaded hset l) (p.newBrk inc)
    exact ⟨p.newBrk inc,h.resized hloop rfl hrun rfl rfl hge (by omega),Or.inr ⟨rfl,hnew⟩⟩

end

theorem Resized.trans (h : Resized slots s s' brk brk) (h' : Resized slots s' s'' brk new) :
    Resized slots s s'' brk new := ⟨h'.serving,h.spared.trans h'.spared,h'.zero⟩

end

/-! `sbrk`. -/

/-- The increment is smaller than the break, and the page tables for the new pages can be had. -/
def Session.Permits (s : Session) (incr : ℤ) (grow : ℕ → Bool) : Prop :=
  ∀ p, s.sys.running = some p → |incr| < p.oldBrk ∧
    brkMapped p.cr3 grow (p.brkPages incr) ⟨s.sys.kmem,p.elfPages,0⟩ = true

section
variable {slots : Set ℕ} {s : Session} {p : Proc} {brk : ℕ} {incr : ℤ} {grow : ℕ → Bool}

/-- Breaks and -1 arrive as they are. -/
theorem bmod_result {r : ℤ} (h : -1 ≤ r) (hlt : r < 2^63) : r.bmod (2^64) = r := by
  simp only [Int.bmod]
  split <;> omega

section

variable (h : Serving slots s.sys p brk)
include h

theorem Serving.call (hslots : 1 ∈ slots) (hinc : |incr| < brk)
    (hmapped : brkMapped p.cr3 grow (p.brkPages incr) ⟨s.sys.kmem,p.elfPages,0⟩ = true) :
    ∃ new, Resized slots s.sys (s.sys.brk incr grow).2 brk new ∧
      ((s.sys.brk incr grow).1 = -1 ∧ new = brk ∨ (s.sys.brk incr grow).1 = new ∧ (new : ℤ) = brk+incr) := by
  obtain ⟨new,hres,hcase⟩ := h.sysBrk hslots hinc hmapped
  obtain ⟨q,hq,-⟩ := hres.serving
  have hlt := hq.lt
  have hresult := bmod_result (r:=(Memory.sysBrk s.sys p incr grow).1) (by omega) (by omega)
  have hcall : s.sys.brk incr grow = Memory.sysBrk s.sys p incr grow := by
    rw [Sys.brk,h.runs]
    exact Prod.ext hresult rfl
  rw [hcall]
  exact ⟨new,hres,hcase⟩

theorem Serving.same (hbrk : p.brkVirt = brk) : Resized slots s.sys s.sys brk brk :=
  ⟨⟨p,h,hbrk⟩,Spared.refl ..,fun _ _ hi hlt => absurd hi (Nat.not_le.mpr hlt)⟩

theorem moveBreak_spec (hslots : 1 ∈ slots) (hbrk : p.brkVirt = brk)
    (hcached : s.cached = brk) (hpermits : s.Permits incr grow) :
    ∃ new, Resized slots s.sys (moveBreak s incr grow).2.sys brk new ∧
      (moveBreak s incr grow).2.cached = new ∧
      ((moveBreak s incr grow).1 = -1 ∧ new = brk ∨
        (moveBreak s incr grow).1 = brk ∧ (new : ℤ) = brk+incr) := by
  obtain ⟨hinc,hmapped⟩ := hpermits p h.runs
  rw [h.ends] at hinc
  simp only [moveBreak]
  split
  · rename_i hzero
    exact ⟨brk,h.same hbrk,hcached,Or.inr ⟨hcached,by omega⟩⟩
  obtain ⟨new,hres,hcase⟩ := h.call hslots hinc hmapped
  rcases hcase with ⟨hfail,rfl⟩ | ⟨hok,hsum⟩
  · rw [if_pos hfail]
    exact ⟨new,hres,hcached,Or.inl ⟨rfl,rfl⟩⟩
  · rw [if_neg (by omega)]
    exact ⟨new,hres,hok,Or.inr ⟨hcached,hsum⟩⟩

theorem Serving.query (grow : ℕ → Bool) :
    (s.sys.brk 0 grow).1 = brk ∧ Resized slots s.sys (s.sys.brk 0 grow).2 brk brk ∧
      (s.sys.brk 0 grow).2.kmem = s.sys.kmem ∧
      (s.sys.brk 0 grow).2.running = some { p with brkVirt := brk } := by
  have hpos : 0 < heapBase := by decide
  have hfloor := h.floor
  have hlt := h.lt
  have hcall : s.sys.brk 0 grow =
      ((brk : ℤ),s.sys.update p.pid fun q => { q with brkVirt := brk }) := by
    rw [Sys.brk,h.runs]
    simp only [Memory.sysBrk,if_true,h.ends]
    rw [bmod_result (by omega) (by omega)]
  rw [hcall]
  have hrun := running_setBrk h.runs brk
  exact ⟨rfl,h.resized (h.start (l:=⟨s.sys.kmem,p.elfPages,0⟩) rfl) rfl hrun rfl rfl hfloor
    (Nat.le_add_right _ _),rfl,hrun⟩

theorem sbrk_spec (hslots : 1 ∈ slots) (hcached : s.cached = p.brkVirt)
    (hpermits : s.Permits incr grow) :
    ∃ new, Resized slots s.sys (sbrk s incr grow).2.sys brk new ∧ (sbrk s incr grow).2.cached = new ∧
      ((sbrk s incr grow).1 = -1 ∧ new = brk ∨ (sbrk s incr grow).1 = brk ∧ (new : ℤ) = brk+incr) := by
  simp only [sbrk]
  split
  · obtain ⟨hresult,hres,hkmem,hrun⟩ := h.query grow
    rw [if_neg (by omega)]
    obtain ⟨q,hq,hvirt⟩ := hres.serving
    have hpermits' : Session.Permits ⟨(s.sys.brk 0 grow).2,(s.sys.brk 0 grow).1⟩ incr grow := by
      intro r hr
      have hold : r.oldBrk = p.oldBrk := by
        rw [Option.some.inj (hr.symm.trans hq.runs),hq.ends,h.ends]
      have hpages : r.brkPages incr = p.brkPages incr := by
        simp only [Proc.brkPages,Proc.newBrk,hold]
      obtain rfl := Option.some.inj (hr.symm.trans hrun)
      rw [hold,hpages,hkmem]
      exact hpermits p h.runs
    obtain ⟨new,hres',hrest⟩ := moveBreak_spec (s:=⟨_,_⟩) hq hslots hvirt hresult hpermits'
    exact ⟨new,hres.trans hres',hrest⟩
  · rename_i hset
    have hbrk : p.brkVirt = brk := by
      rw [← h.ends,Proc.oldBrk,if_neg (by omega)]
    exact moveBreak_spec h hslots hbrk (by omega) hpermits

end

end

/-! Bytes. -/

section
variable {slots : Set ℕ} {s s' : Session} {p : Proc} {brk new a f i v : ℕ} {m m' : Mem} {b : BitVec 8}

theorem translation_offset {root o : ℕ} (hv : 4096 ∣ v) (ho : o < 4096) :
    translation m root (v+o) = translation m root v := by
  obtain ⟨k,rfl⟩ := hv
  have h4 : pml4Idx (4096*k+o) = pml4Idx (4096*k) := by simp only [pml4Idx]; omega
  have h3 : pdptIdx (4096*k+o) = pdptIdx (4096*k) := by simp only [pdptIdx]; omega
  have h2 : pdIdx (4096*k+o) = pdIdx (4096*k) := by simp only [pdIdx]; omega
  have h1 : ptIdx (4096*k+o) = ptIdx (4096*k) := by simp only [ptIdx]; omega
  have hpage : (4096*k+o)/4096 = 4096*k/4096 := by omega
  have hcan : Canonical (4096*k+o) ↔ Canonical (4096*k) := by simp only [Canonical]; omega
  simp only [translation,h4,h3,h2,h1,hpage,hcan]

theorem loadByte_congr {o : ℕ} (hm : m' f = m f) (ho : o < 4096) :
    loadByte m' (f*4096+o) = loadByte m (f*4096+o) := by
  have hframe : (f*4096+o)/4096 = f := by omega
  rw [loadByte,loadByte,hframe,hm]

/-- The page of an address of the heap. -/
def pageOfAddr (a : ℕ) : ℕ := (a-heapBase)/4096

theorem pageOfAddr_spec (ha : heapBase ≤ a) : a = heapBase+4096*pageOfAddr a+a%4096 := by
  have hal : heapBase%4096 = 0 := by decide
  simp only [pageOfAddr]
  generalize heapBase = base at *
  omega

theorem UserPage.place (h : UserPage slots s.vm (pageOfAddr a) f) (ha : heapBase ≤ a) :
    s.place a = some (f*4096+a%4096) := by
  have hal : 4096 ∣ heapBase+4096*pageOfAddr a := Nat.dvd_add (by decide) (Nat.dvd_mul_right _ _)
  have htr : translation s.vm.mem s.vm.cr3 (heapBase+4096*pageOfAddr a+a%4096) = _ :=
    translation_offset hal (Nat.mod_lt a (by norm_num))
  rw [← pageOfAddr_spec ha,h.mapped] at htr
  rw [Session.place,htr]
  rfl

theorem UserPage.byte (h : UserPage slots s.vm (pageOfAddr a) f) (ha : heapBase ≤ a) :
    s.byte a = some (loadByte s.vm.mem (f*4096+a%4096)) := by
  rw [Session.byte,h.place ha,Option.map_some]

theorem Serving.page (h : Serving slots s.sys p brk) (ha : heapBase ≤ a)
    (hlt : a < heapBase+4096*pageCount brk) :
    pageOfAddr a < pageCount brk ∧ ∃ f, UserPage slots s.vm (pageOfAddr a) f := by
  have hspec := pageOfAddr_spec ha
  have hin : pageOfAddr a < pageCount brk := by omega
  obtain ⟨frame,hframe,-⟩ := h.pages
  exact ⟨hin,frame _,hframe _ hin⟩

theorem Serving.page_inj (h : Serving slots s.sys p brk) {i' : ℕ} (hi : i < pageCount brk)
    (hi' : i' < pageCount brk) (hp : UserPage slots s.vm i f) (hp' : UserPage slots s.vm i' f) : i = i' := by
  obtain ⟨frame,hframe,hinj⟩ := h.pages
  have hf := Option.some.inj ((hframe i hi).mapped.symm.trans hp.mapped)
  have hf' := Option.some.inj ((hframe i' hi').mapped.symm.trans hp'.mapped)
  exact hinj i hi i' hi' ((Leaf.mk.inj hf).1.trans (Leaf.mk.inj hf').1.symm)

theorem Resized.byte (h : Resized slots s.sys s'.sys brk new) (hs : Serving slots s.sys p brk)
    (hslots : 1 ∈ slots) (ha : heapBase ≤ a) (hlt : a < heapBase+4096*pageCount brk) :
    s'.byte a = s.byte a := by
  have hcount := hs.count
  obtain ⟨hin,f,hf⟩ := hs.page ha hlt
  obtain ⟨hf',hmem⟩ := hf.spared h.spared hslots hin (by omega)
  have hpage : UserPage slots s'.vm (pageOfAddr a) f := hf'
  rw [hpage.byte ha,hf.byte ha]
  exact congrArg some (loadByte_congr hmem (Nat.mod_lt a (by norm_num)))

theorem Resized.byte_zero (h : Resized slots s.sys s'.sys brk new) (ha : heapBase ≤ a)
    (hge : heapBase+4096*pageCount brk ≤ a) (hlt : a < heapBase+4096*pageCount new) :
    s'.byte a = some 0 := by
  obtain ⟨q,hq,-⟩ := h.serving
  obtain ⟨hin,f,hf⟩ := hq.page ha hlt
  have hspec := pageOfAddr_spec ha
  have hzero : s'.vm.mem f = fun _ => 0 := h.zero _ f (by omega) hin hf
  have hbyte : loadByte s'.vm.mem (f*4096+a%4096) = loadByte (fun _ _ => 0) (f*4096+a%4096) :=
    loadByte_congr hzero (Nat.mod_lt a (by norm_num))
  rw [hf.byte ha,hbyte]
  simp [loadByte]

end

/-! Runs. -/

/-- What the rest of the system leaves alone while the process does not run: its tables, and the
frames of its heap. -/
structure LeavesAlone (slots : Set ℕ) (x : Session × UserHeap) (sys : Sys) : Prop where
  runs : sys.running = x.1.sys.running
  cr3 : sys.kmem.vm.cr3 = x.1.vm.cr3
  words : SameTables slots x.1.vm.mem sys.kmem.vm.mem x.1.vm.cr3 x.1.vm.cr3
  tables : ∀ p f, Within slots p → reach hwNext x.1.vm.mem true x.1.vm.cr3 p = some f →
    sys.kmem.vm.pmm.bitmap f = true
  pages : ∀ a phys, heapBase ≤ a → a < roundUp x.2.brk → x.1.place a = some phys →
    sys.kmem.vm.pmm.bitmap (phys/4096) = true ∧
      sys.kmem.vm.mem (phys/4096) = x.1.vm.mem (phys/4096)
  top : sys.kmem.vm.pmm.nextHigh ≤ sys.kmem.vm.pmm.zones.highEnd
  bounded : sys.kmem.Bounded

def Allowed (slots : Set ℕ) (x : Session × UserHeap) : Act → Prop
  | .sbrk incr grow => x.1.Permits incr grow
  | .store a _ => heapBase ≤ a ∧ a < roundUp x.2.brk
  | .others sys => LeavesAlone slots x sys

/-- The machine keeps what the process reckons with. -/
structure Keeping (slots : Set ℕ) (x : Session × UserHeap) : Prop where
  serving : ∃ p, Serving slots x.1.sys p x.2.brk ∧ x.1.cached = p.brkVirt
  bytes : ∀ a b, x.2.bytes a = some b →
    heapBase ≤ a ∧ a < heapBase+4096*pageCount x.2.brk ∧ x.1.byte a = some b

section
variable {slots : Set ℕ} {x : Session × UserHeap}

theorem Keeping.sbrk (h : Keeping slots x) (hslots : 1 ∈ slots) {incr : ℤ} {grow : ℕ → Bool}
    (hok : x.1.Permits incr grow) :
    ∃ y, act x (.sbrk incr grow) = some y ∧ Keeping slots y := by
  obtain ⟨p,hserving,hcached⟩ := h.serving
  obtain ⟨new,hres,hnew,hcase⟩ := sbrk_spec hserving hslots hcached hok
  refine ⟨_,rfl,?_⟩
  obtain ⟨q,hq,hvirt⟩ := hres.serving
  have hfloor := hserving.floor
  have hlt := hserving.lt
  have hlt' := hq.lt
  rcases hcase with ⟨hfail,rfl⟩ | ⟨hret,hsum⟩
  · rw [if_pos hfail]
    refine ⟨⟨q,hq,by rw [hnew,hvirt]⟩,fun a b hb => ?_⟩
    obtain ⟨h1,h2,h3⟩ := h.bytes a b hb
    exact ⟨h1,h2,(hres.byte hserving hslots h1 h2).trans h3⟩
  · have hbrk : (x.2.brk+incr).toNat = new := by omega
    rw [if_neg (by omega),hbrk]
    refine ⟨⟨q,hq,by rw [hnew,hvirt]⟩,fun a b hb => ?_⟩
    have hspec := pageCount_spec hq.floor
    simp only [UserHeap.resize] at hb ⊢
    rw [roundUp_brk hfloor (by omega),roundUp_brk hq.floor (by omega)] at hb
    split at hb
    · rename_i hadded
      obtain rfl := Option.some.inj hb
      exact ⟨by omega,hadded.2,hres.byte_zero (by omega) hadded.1 hadded.2⟩
    · split at hb
      · obtain ⟨h1,h2,h3⟩ := h.bytes a b hb
        exact ⟨h1,by omega,(hres.byte hserving hslots h1 h2).trans h3⟩
      · cases hb

/-- The tables of the process stay, and so do its pages if their frames stay in use. -/
theorem Serving.congr {s s' : Session} {p : Proc} {brk : ℕ} (h : Serving slots s.sys p brk)
    (hruns : s'.sys.running = s.sys.running) (hcr3 : s'.vm.cr3 = s.vm.cr3)
    (hwords : SameTables slots s.vm.mem s'.vm.mem s.vm.cr3 s.vm.cr3)
    (htables : ∀ q f, Within slots q → reach hwNext s.vm.mem true s.vm.cr3 q = some f →
      s'.vm.pmm.bitmap f = true)
    (hpages : ∀ i < pageCount brk, ∀ f, UserPage slots s.vm i f → s'.vm.pmm.bitmap f = true)
    (htop : s'.vm.pmm.nextHigh ≤ s'.vm.pmm.zones.highEnd) (hbounded : s'.sys.kmem.Bounded) :
    Serving slots s'.sys p brk ∧
      ∀ i < pageCount brk, ∀ f, UserPage slots s.vm i f → UserPage slots s'.vm i f := by
  have hcount := h.count
  have hnil : Within slots [] := ⟨by simp,by simp,by simp⟩
  have hproper := h.ready.proper
  have hslots : 1 ∈ slots := hproper.sub (Set.mem_insert 1 _)
  obtain ⟨hproper',htr⟩ := hproper.congr hwords (htables [] _ hnil rfl)
    (fun q hq hr => hproper.tree.unique hq hnil hr rfl) fun q f hq _ hr => htables q f hq hr
  have hkeep : ∀ i < pageCount brk, ∀ f, UserPage slots s.vm i f → UserPage slots s'.vm i f := by
    intro i hi f hf
    have hslot := heapBase_slot (show i < 65536 by omega)
    refine ⟨⟨hpages i hi f hf,?_⟩,hf.real,?_⟩ <;> rw [hcr3]
    · exact hwords.loose hf.holds.loose
    · rw [← hf.mapped]
      exact htr _ (by rw [hslot]; exact hslots)
  have hroot : p.cr3 = s'.vm.cr3 := h.root.trans hcr3.symm
  rw [← hcr3] at hproper'
  exact ⟨⟨hruns.trans h.runs,hroot,h.ends,h.floor,⟨hproper',htop⟩,hbounded,
    h.pages.imp hkeep⟩,hkeep⟩

theorem Keeping.store (h : Keeping slots x) {a : ℕ} (b : BitVec 8) (ha : heapBase ≤ a)
    (hlt : a < roundUp x.2.brk) : ∃ y, act x (.store a b) = some y ∧ Keeping slots y := by
  obtain ⟨p,hserving,hcached⟩ := h.serving
  have hbrk := hserving.lt
  rw [roundUp_brk hserving.floor (by omega)] at hlt
  obtain ⟨hin,f,hf⟩ := hserving.page ha hlt
  have ho : a%4096 < 4096 := Nat.mod_lt a (by norm_num)
  have hframe : (f*4096+a%4096)/4096 = f := by omega
  have hother : ∀ g, g ≠ f → storeByte x.1.vm.mem (f*4096+a%4096) b g = x.1.vm.mem g := fun g hg =>
    storeByte_of_ne (by rwa [hframe])
  have hproper := hserving.ready.proper
  have hcongr : Serving slots (x.1.setMem (storeByte x.1.vm.mem (f*4096+a%4096) b)).sys _ _ ∧ _ :=
    hserving.congr rfl rfl (hf.holds.loose.sameTables hother) hproper.tree.used
      (fun i _ g hg => hg.holds.used) hserving.ready.top ⟨hserving.bounded.brk,hserving.bounded.mapped⟩
  obtain ⟨hserving',hkeep⟩ := hcongr
  have hact : act x (.store a b) = some (x.1.setMem (storeByte x.1.vm.mem (f*4096+a%4096) b),
      x.2.store a b) := by
    simp only [act,hf.place ha,Option.map_some]
  refine ⟨_,hact,⟨p,hserving',hcached⟩,fun a' b' hb => ?_⟩
  simp only [UserHeap.store,Function.update_apply] at hb
  by_cases he : a' = a
  · subst he
    rw [if_pos rfl] at hb
    refine ⟨ha,hlt,?_⟩
    rw [(hkeep _ hin f hf).byte ha,← hb]
    exact congrArg some ((loadByte_storeByte ..).trans (if_pos rfl))
  · rw [if_neg he] at hb
    obtain ⟨h1,h2,h3⟩ := h.bytes a' b' hb
    refine ⟨h1,h2,?_⟩
    obtain ⟨hin',f',hf'⟩ := hserving.page h1 h2
    -- another byte of the page, or a byte of another page, which has another frame
    have hne : f'*4096+a'%4096 ≠ f*4096+a%4096 := by
      intro hsame
      have hff : f' = f := by omega
      have hpage := hserving.page_inj hin' hin hf' (hff ▸ hf)
      have hspec := pageOfAddr_spec ha
      have hspec' := pageOfAddr_spec h1
      omega
    rw [(hkeep _ hin' f' hf').byte h1]
    rw [hf'.byte h1] at h3
    exact (congrArg some ((loadByte_storeByte ..).trans (if_neg hne))).trans h3

theorem Keeping.others (h : Keeping slots x) {sys : Sys} (hok : LeavesAlone slots x sys) :
    Keeping slots ({ x.1 with sys := sys },x.2) := by
  obtain ⟨p,hserving,hcached⟩ := h.serving
  have hbrk := hserving.lt
  have hround := roundUp_brk hserving.floor (by omega)
  have hal : heapBase%4096 = 0 := by decide
  have hdata : ∀ i < pageCount x.2.brk, ∀ f, UserPage slots x.1.vm i f →
      sys.kmem.vm.pmm.bitmap f = true ∧ sys.kmem.vm.mem f = x.1.vm.mem f := by
    intro i hi f hf
    have hpage : pageOfAddr (heapBase+4096*i) = i := by
      rw [pageOfAddr,Nat.add_sub_cancel_left,Nat.mul_div_cancel_left i (by norm_num)]
    have hoff : (heapBase+4096*i)%4096 = 0 := by omega
    have hplace := UserPage.place (a:=heapBase+4096*i) (by rw [hpage]; exact hf) (by omega)
    have hleft := hok.pages _ _ (by omega) (by omega) hplace
    rwa [hoff,Nat.add_zero,Nat.mul_div_cancel f (by norm_num)] at hleft
  have hcongr : Serving slots { x.1 with sys := sys }.sys _ _ ∧ _ :=
    hserving.congr hok.runs hok.cr3 hok.words hok.tables (fun i hi f hf => (hdata i hi f hf).1) hok.top
      hok.bounded
  obtain ⟨hserving',hkeep⟩ := hcongr
  refine ⟨⟨p,hserving',hcached⟩,fun a b hb => ?_⟩
  obtain ⟨h1,h2,h3⟩ := h.bytes a b hb
  obtain ⟨hin,f,hf⟩ := hserving.page h1 h2
  refine ⟨h1,h2,?_⟩
  rw [(hkeep _ hin f hf).byte h1]
  rw [hf.byte h1] at h3
  exact (congrArg some (loadByte_congr (hdata _ hin f hf).2 (Nat.mod_lt a (by norm_num)))).trans h3

theorem Keeping.act (h : Keeping slots x) {e : Act} (hok : Allowed slots x e) :
    ∃ y, act x e = some y ∧ Keeping slots y := by
  obtain ⟨p,hserving,-⟩ := h.serving
  have hslots : 1 ∈ slots := hserving.ready.proper.sub (Set.mem_insert 1 _)
  cases e with
  | sbrk incr grow => exact h.sbrk hslots hok
  | store a b => exact h.store b hok.1 hok.2
  | others sys => exact ⟨_,rfl,h.others hok⟩

end

/-- A process that has not asked for a break yet, on a tree of tables without large pages where its
heap and the kernel's are. -/
structure Session.Fresh (slots : Set ℕ) (s : Session) : Prop where
  runs : ∃ p, s.sys.running = some p ∧ p.cr3 = s.vm.cr3 ∧ p.brkVirt = 0
  cached : s.cached = 0
  low : 0 ∈ slots
  ready : Ready slots s.vm
  bounded : s.sys.kmem.Bounded

/-- The process finds its heap as it reckons with. -/
structure Faithful (x : Session × UserHeap) : Prop where
  cached : ∃ p, x.1.sys.running = some p ∧ x.1.cached = p.brkVirt ∧ p.oldBrk = x.2.brk
  mapped : ∀ a, heapBase ≤ a → a < x.2.brk → (x.1.place a).isSome = true
  bytes : ∀ a b, x.2.bytes a = some b → x.1.byte a = some b

/-- The call returns the previous break and has moved it; or it fails, with the break and all pages
below it as they were. -/
def Session.MovesBreak (s : Session) (incr : ℤ) (grow : ℕ → Bool) : Prop :=
  ∀ p, s.sys.running = some p → ∃ p', (sbrk s incr grow).2.sys.running = some p' ∧
    ((sbrk s incr grow).1 ≠ -1 → (sbrk s incr grow).1 = p.oldBrk ∧ (p'.brkVirt : ℤ) = p.oldBrk+incr) ∧
    ((sbrk s incr grow).1 = -1 → p'.oldBrk = p.oldBrk ∧ ∀ a < p.oldBrk,
      translation (sbrk s incr grow).2.vm.mem (sbrk s incr grow).2.vm.cr3 a =
        translation s.vm.mem s.vm.cr3 a)

section
variable {slots : Set ℕ} {x : Session × UserHeap}

theorem Session.Fresh.keeping {s : Session} (h : s.Fresh slots) : Keeping slots (s,UserHeap.empty) := by
  obtain ⟨p,hruns,hroot,hzero⟩ := h.runs
  have hcount : pageCount heapBase = 0 := by
    rw [pageCount,Nat.sub_self]
  have hold : p.oldBrk = heapBase := by
    rw [Proc.oldBrk,if_pos hzero]
  have hpages : Assigned (UserPage slots s.vm) (pageCount heapBase) := by
    rw [hcount]
    exact assigned_zero
  refine ⟨⟨p,⟨hruns,hroot,hold,le_rfl,h.ready,h.bounded,hpages⟩,?_⟩,fun a b hb => ?_⟩
  · rw [h.cached,hzero]
    rfl
  · cases hb

theorem Keeping.faithful (h : Keeping slots x) : Faithful x := by
  obtain ⟨p,hserving,hcached⟩ := h.serving
  refine ⟨⟨p,hserving.runs,hcached,hserving.ends⟩,fun a ha hlt => ?_,fun a b hb => (h.bytes a b hb).2.2⟩
  have hspec := pageCount_spec hserving.floor
  obtain ⟨-,f,hf⟩ := hserving.page ha (by omega)
  rw [hf.place ha]
  rfl

theorem Keeping.movesBreak (h : Keeping slots x) (hlow : 0 ∈ slots) {incr : ℤ} {grow : ℕ → Bool}
    (hok : x.1.Permits incr grow) : x.1.MovesBreak incr grow := by
  obtain ⟨p,hserving,hcached⟩ := h.serving
  have hslots : 1 ∈ slots := hserving.ready.proper.sub (Set.mem_insert 1 _)
  obtain ⟨new,hres,-,hcase⟩ := sbrk_spec hserving hslots hcached hok
  intro p' hp'
  obtain rfl := Option.some.inj (hp'.symm.trans hserving.runs)
  obtain ⟨q,hq,hvirt⟩ := hres.serving
  have hlt := hserving.lt
  have hspec := pageCount_spec hserving.floor
  refine ⟨q,hq.runs,fun hne => ?_,fun hfail => ?_⟩ <;> rw [hserving.ends]
  · obtain ⟨hret,hsum⟩ := hcase.resolve_left fun hf => hne hf.1
    exact ⟨hret,by rw [hvirt,hsum]⟩
  · have hnew : new = x.2.brk := by omega
    refine ⟨by rw [hq.ends,hnew],fun a ha => hres.spared.below a ?_ ?_ (by omega)⟩
    · -- all addresses below the break are in the first two entries of the root
      have hslot : pml4Idx a = 0 ∨ pml4Idx a = 1 := by
        simp only [pml4Idx]
        omega
      rcases hslot with he | he <;> rw [he]
      · exact hlow
      · exact hslots
    · simp only [pml4Idx,heapSlot]
      omega

end

/-- Whatever a process does with `sbrk` and its heap, the library and the kernel agree on the break,
all bytes up to it can be written and hold what was last put there, new pages are zero, and every
further call returns the previous break or changes nothing. -/
theorem sbrk_run_faithful {slots : Set ℕ} {s : Session} (hs : s.Fresh slots) {acts : List Act}
    (hok : Admits act (Allowed slots) (s,UserHeap.empty) acts) :
    ∃ x, run act (s,UserHeap.empty) acts = some x ∧ Faithful x ∧
      ∀ incr grow, x.1.Permits incr grow → x.1.MovesBreak incr grow := by
  obtain ⟨x,hrun,hx⟩ := run_total (Keeping slots) (fun _ _ h he => h.act he) hs.keeping hok
  exact ⟨x,hrun,hx.faithful,fun incr grow hp => hx.movesBreak hs.low hp⟩

instance (s : Session) (incr : ℤ) (grow : ℕ → Bool) : Decidable (s.Permits incr grow) :=
  decidable_of_iff (∀ p ∈ s.sys.running, |incr| < (p.oldBrk : ℤ) ∧
    brkMapped p.cr3 grow (p.brkPages incr) ⟨s.sys.kmem,p.elfPages,0⟩ = true) Iff.rfl

/-- A process on empty tables, with three frames left for tables and four for pages. -/
def newProcess : Session where
  sys := ⟨⟨⟨fun _ _ => 0,{ bootPmm with
    bitmap := fun f => f < 8189 || 8195 < f, nextLow := 8189, nextHigh := 8195 },16⟩,heapStartAddr,0⟩,
    [⟨2,16,[],0,true⟩],3,some 2⟩
  cached := 0

theorem newProcess_fresh : newProcess.Fresh {0,1,288} := by
  have habsent : ∀ i ∈ ({0,1,288} : Set ℕ), present (newProcess.vm.mem newProcess.vm.cr3 i) = false :=
    fun i _ => show present 0 = false by decide
  refine ⟨⟨_,rfl,rfl,rfl⟩,rfl,Set.mem_insert 0 _,⟨proper_of_absent habsent rfl ?_,by decide⟩,
    ⟨rfl,by decide⟩⟩
  exact Set.subset_insert 0 _

theorem sbrk_run_faithful_shrunk : ∃ x, run act (newProcess,UserHeap.empty)
    [.sbrk 5000 fun _ => false,.sbrk (-4500) fun _ => false,.store heapBase 7#8] = some x ∧
      x.2.brk = heapBase+500 ∧ x.1.byte heapBase = some 7#8 := by
  have hok : Admits act (Allowed {0,1,288}) (newProcess,UserHeap.empty)
      [.sbrk 5000 fun _ => false,.sbrk (-4500) fun _ => false,.store heapBase 7#8] := by
    refine ⟨by unfold Allowed; decide +kernel,fun u hu => ?_⟩
    obtain rfl := Option.some.inj hu
    refine ⟨by unfold Allowed; decide +kernel,fun v hv => ?_⟩
    obtain rfl := Option.some.inj hv
    exact ⟨⟨le_rfl,by decide +kernel⟩,fun _ _ => trivial⟩
  have hend : (run act (newProcess,UserHeap.empty)
      [.sbrk 5000 fun _ => false,.sbrk (-4500) fun _ => false,.store heapBase 7#8]).map
      (fun x => (x.2.brk,x.2.bytes heapBase)) = some (heapBase+500,some 7#8) := by
    decide +kernel
  obtain ⟨x,hrun,hx,-⟩ := sbrk_run_faithful newProcess_fresh hok
  rw [hrun,Option.map_some,Option.some.injEq,Prod.mk.injEq] at hend
  exact ⟨x,hrun,hend.1,hx.bytes _ _ hend.2⟩

end Memory
end DonsOs
