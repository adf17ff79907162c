import DonsOs.Lib.Run
import DonsOs.Memory.Arranged
import DonsOs.Memory.Process

/-! The operations on pages keep the arrangement.
An operation may stop early, when frames run out, and a mapping call may fail silently; the
arrangement is kept in each of these cases.  Bytes that the loader stores at 1 GB or above go
to frames of the HIGH zone, whatever the segment says. -/
namespace DonsOs
namespace Memory

open Paging
open Heap (heapStartAddr heapMaxSize)

variable {L : Layout} {s s' vm vm' : Vm} {σ σ' : Shape} {f i r t n c : ℕ}

/-! The kernel heap. -/

/-- Address spaces and data stay as they are, and no frame is given back. -/
structure Aside (L : Layout) (σ : Shape) (s s' : Vm) : Prop where
  words : ∀ f r path i, σ.ty f = some (r,path) → (path = [] → i < 256) → s'.mem f i = s.mem f i
  data : ∀ f, L.zones.highStart ≤ f → s'.mem f = s.mem f
  used : ∀ f, s.pmm.bitmap f = true → s'.pmm.bitmap f = true

theorem Aside.trans {s'' : Vm} (h : Aside L σ s s') (h' : Aside L σ s' s'') : Aside L σ s s'' where
  words f r path i hf hi := (h'.words f r path i hf hi).trans (h.words f r path i hf hi)
  data f hf := (h'.data f hf).trans (h.data f hf)
  used f hf := h'.used f (h.used f hf)

theorem Aside.mono (h : Aside L σ' s s') (hle : σ.Le σ') : Aside L σ s s' :=
  ⟨fun f r path i hf => h.words f r path i (hle.ty f _ hf),h.data,h.used⟩

theorem Arranged.storeAside (h : Arranged L s σ) (ht : σ.lv t = some n) (i : ℕ) (w : Word) :
    Aside L σ s (s.store t i w) := by
  obtain ⟨-,-,hlow,-,hno⟩ := h.heap t n ht
  have hap := L.apart
  refine ⟨fun f r path j hf _ => congrFun (store_of_ne ?_) j,fun f hf => store_of_ne (by omega),
    fun _ hf => hf⟩
  rintro rfl
  rw [hno] at hf
  cases hf

theorem Arranged.allocAside (h : Arranged L s σ) {p : Pmm} (ha : pmmAllocPageForTables s.pmm = some (f,p))
    (page : ℕ → Word) : Aside L σ s { s with pmm := p, mem := fill s.mem f page } := by
  obtain ⟨htk,-,-,hlow⟩ := allocForTables_spec ha
  have hap := L.apart
  rw [h.zones] at hlow
  refine ⟨fun g r path j hg _ => congrFun (fill_of_ne ?_) j,fun g hg => fill_of_ne (by omega),fun g hg => ?_⟩
  · rintro rfl
    rw [h.forest.untyped_of_free htk.free] at hg
    cases hg
  · simp only [htk.bitmap,Function.update_apply]
    split
    · rfl
    · exact hg

theorem nextTable_heap (h : Arranged L s σ) (ht : σ.lv t = some (n+1)) {flags : Word}
    (hn : nextTable s t i (dirFlags flags) = some (f,s')) :
    ∃ σ', σ.Le σ' ∧ Arranged L s' σ' ∧ s'.cr3 = s.cr3 ∧ Aside L σ s s' ∧ σ'.lv f = some n := by
  rcases nextTable_cases hn with ⟨hp,rfl,rfl⟩ | ⟨-,pmm,ha,rfl⟩
  · have hl := h.link t n i ht hp
    refine ⟨σ,Shape.Le.refl σ,h.storeHeap ht fun k hk _ => ?_,rfl,h.storeAside ht i _,hl⟩
    rw [frameOf_rw,hl,Nat.succ.inj hk]
  · obtain ⟨h₁,hno⟩ := h.allocHeap ha n
    have hold : ∀ g k, σ.lv g = some k → Function.update σ.lv f (some n) g = some k := by
      intro g k hg
      have hgf : g ≠ f := by
        rintro rfl
        rw [hno] at hg
        cases hg
      rwa [Function.update_of_ne hgf]
    have hle : σ.Le ⟨σ.ty,Function.update σ.lv f (some n)⟩ := ⟨fun _ _ h => h,hold⟩
    refine ⟨⟨σ.ty,Function.update σ.lv f (some n)⟩,hle,h₁.storeHeap (hold t _ ht) fun k hk _ => ?_,rfl,
      (h.allocAside ha _).trans ((h₁.storeAside (hold t _ ht) i _).mono hle),Function.update_self ..⟩
    rw [frameOf_dirFlags (alloc_lt ha),← Nat.succ.inj hk]
    exact Function.update_self ..

theorem Arranged.openSlot (h : Arranged L s σ) (hslot : present (L.top heapSlot) = true) :
    present (s.mem s.cr3 heapSlot) = true ∧ frameOf (s.mem s.cr3 heapSlot) = frameOf (L.top heapSlot) ∧
      Arranged L (s.store s.cr3 heapSlot (s.mem s.cr3 heapSlot ||| rwFlags)) σ ∧
      Aside L σ s (s.store s.cr3 heapSlot (s.mem s.cr3 heapSlot ||| rwFlags)) := by
  have ho := (h.high _ h.active).shared heapSlot (by decide) (by decide) (by decide)
  obtain ⟨hp,-,hf⟩ := ho.bits
  have hrange := h.rooted_range h.active
  have hkernel : ∀ g, 512 ≤ g → g < L.zones.lowStart →
      (s.store s.cr3 heapSlot (s.mem s.cr3 heapSlot ||| rwFlags)).mem g = L.low g := fun g h1 h2 => by
    have hbel := L.below
    exact (store_of_ne (by omega)).trans (h.kernel g h1 h2)
  have hq : Arranged (L.setLow L.low) (s.store s.cr3 heapSlot (s.mem s.cr3 heapSlot ||| rwFlags)) σ := by
    refine h.quiet rfl h.active hkernel fun g _ _ j => ?_
    simp only [Vm.store,store_apply]
    split
    · rename_i he
      obtain ⟨rfl,rfl⟩ := he
      exact Or.inr ⟨(Opens.refl _).open,Or.inl ⟨h.active,by decide,by decide⟩⟩
    · exact Or.inl rfl
  refine ⟨hp.trans hslot,hf,hq,⟨fun g r path j hg hj => ?_,fun g hg => store_of_ne ?_,fun _ hg => hg⟩⟩
  · -- the entry lies in the upper half of a root
    simp only [Vm.store,store_apply]
    rw [if_neg]
    rintro ⟨rfl,rfl⟩
    rcases h.active with he | he
    · have := (h.typed hg).1
      have := L.below
      omega
    · have := hj (Prod.mk.inj (Option.some.inj (hg.symm.trans he))).2
      simp [heapSlot] at this
  · have hbel := L.below
    have hhigh := L.high
    have hap := L.apart
    omega

theorem Arranged.heapMap (h : Arranged L s σ) (hslot : present (L.top heapSlot) = true) {v : ℕ}
    (hv : pml4Idx v = heapSlot) (phys : ℕ) (flags : Word) :
    ∃ σ', σ.Le σ' ∧ Arranged L (vmmMapPage s v phys flags).2 σ' ∧
      (vmmMapPage s v phys flags).2.cr3 = s.cr3 ∧ Aside L σ s (vmmMapPage s v phys flags).2 := by
  obtain ⟨hp,hf,h₁,ha₁⟩ := h.openSlot hslot
  rw [vmmMapPage,map_eq,hv,nextTable_present hp,hf]
  simp only [mapBelowPdpt]
  split
  · exact ⟨σ,Shape.Le.refl σ,h₁,rfl,ha₁⟩
  rename_i pd s₂ hn₂
  obtain ⟨σ₂,hle₂,h₂,hc₂,ha₂,hl₂⟩ := nextTable_heap h₁ (h₁.slot hslot) hn₂
  simp only [mapBelowPd]
  split
  · exact ⟨σ₂,hle₂,h₂,hc₂,ha₁.trans ha₂⟩
  rename_i pt s₃ hn₃
  obtain ⟨σ₃,hle₃,h₃,hc₃,ha₃,hl₃⟩ := nextTable_heap h₂ hl₂ hn₃
  have hle := hle₂.trans hle₃
  exact ⟨σ₃,hle,h₃.storeHeap hl₃ (fun k hk => by cases hk),hc₃.trans hc₂,
    ((ha₁.trans ha₂).trans (ha₃.mono hle₂)).trans ((h₃.storeAside hl₃ _ _).mono hle)⟩

/-- An arrangement with at least the tables of `σ`, while the root `c` is active. -/
def Kept (L : Layout) (σ : Shape) (c : ℕ) (vm : Vm) : Prop :=
  ∃ σ', σ.Le σ' ∧ Arranged L vm σ' ∧ vm.cr3 = c

theorem Arranged.kept (h : Arranged L s σ) : Kept L σ s.cr3 s := ⟨σ,Shape.Le.refl σ,h,rfl⟩

theorem Kept.step (h : Kept L σ c vm) (hstep : ∀ σ', σ.Le σ' → Arranged L vm σ' →
    ∃ σ'', σ'.Le σ'' ∧ Arranged L vm' σ'' ∧ vm'.cr3 = vm.cr3) : Kept L σ c vm' := by
  obtain ⟨σ₁,hle₁,h₁,hc₁⟩ := h
  obtain ⟨σ₂,hle₂,h₂,hc₂⟩ := hstep σ₁ hle₁ h₁
  exact ⟨σ₂,hle₁.trans hle₂,h₂,hc₂.trans hc₁⟩

theorem Kept.same (h : Kept L σ c vm) (hstep : ∀ σ', Arranged L vm σ' → Arranged L vm' σ')
    (hc : vm'.cr3 = vm.cr3) : Kept L σ c vm' :=
  h.step fun σ' _ h' => ⟨σ',Shape.Le.refl σ',hstep σ' h',hc⟩

theorem Kept.alloc (h : Kept L σ c vm) {p : Pmm} (ha : pmmAllocPageForElf vm.pmm = some (f,p)) :
    L.High f ∧ Kept L σ c { vm with pmm := p } := by
  obtain ⟨_,_,h₁,_⟩ := id h
  exact ⟨(h₁.alloc ha).1,h.same (fun _ h' => (h'.alloc ha).2) rfl⟩

theorem Kept.write (h : Kept L σ c vm) {m : Mem} (hm : ∀ g < L.zones.highStart, m g = vm.mem g) :
    Kept L σ c { vm with mem := m } := h.same (fun _ h' => h'.write hm) rfl

/-- The heap region ends where `heap_mapped` says, within its bound. -/
structure Kmem.Bounded (k : Kmem) : Prop where
  brk : k.heapBrk = heapStartAddr+k.heapMapped
  mapped : k.heapMapped ≤ heapMaxSize

/-- What holds with frames that exist, and stays when a page of the heap is mapped. -/
structure HeapStable (P : Vm → Prop) : Prop where
  top : ∀ vm, P vm → vm.pmm.nextHigh ≤ vm.pmm.zones.highEnd
  page : ∀ vm v f p, P vm → pml4Idx v = heapSlot → pmmAllocPageForElf vm.pmm = some (f,p) →
    P (vmmMapPage { vm with pmm := p } v (f*4096) heapFlags).2

section
variable {P : Vm → Prop}

theorem HeapStable.heapPage (hP : HeapStable P) {start : ℕ} (hstart : start ≤ heapStartAddr+heapMaxSize)
    (hstart' : heapStartAddr ≤ start) {k : ℕ} (h : P vm ∧ (freeFrames vm.pmm).card+k ≤ maxPages) :
    Run.Ends (fun vm => P vm ∧ (freeFrames vm.pmm).card+(k+1) ≤ maxPages) P (heapPage start vm k) := by
  obtain ⟨hvm,hcount⟩ := h
  simp only [Memory.heapPage]
  split
  · exact hvm
  rename_i f p ha
  have htaken := (allocForElf_spec ha).1.freeFrames (allocForElf_lt (hP.top vm hvm) ha)
  -- each page costs a frame, so the pages never leave the heap's entry of the root
  have hv : pml4Idx ((start+k*4096)%2^64) = heapSlot := by
    simp only [heapStartAddr,heapMaxSize,maxPages] at hstart hstart' hcount
    simp only [pml4Idx,heapSlot]
    omega
  obtain ⟨j,-,-,hj⟩ := map_supply { vm with pmm := p } vm.cr3 ((start+k*4096)%2^64) (f*4096) heapFlags
  refine ⟨hP.page vm _ f p hvm hv ha,?_⟩
  simp only [vmmMapPage] at hj ⊢
  omega

theorem HeapStable.heapExtend (hP : HeapStable P) {k : Kmem} (h : P k.vm) (hb : k.Bounded) (bytes : ℕ) :
    P (heapExtend k bytes).2.vm ∧ (heapExtend k bytes).2.Bounded := by
  have hm := hb.mapped
  have hbrk := hb.brk
  simp only [Memory.heapExtend]
  split
  · exact ⟨h,hb⟩
  split
  · exact ⟨h,hb⟩
  rename_i hfit
  generalize hpages : (bytes+4095)%2^64/4096 = pages at hfit ⊢
  have hloop : Run.Ends (fun vm => P vm ∧
      (freeFrames vm.pmm).card+(List.range pages).length ≤ maxPages) P
      ((List.range pages).foldlM (Memory.heapPage k.heapBrk) k.vm) :=
    Run.foldlM_ends (P:=fun k vm => P vm ∧ (freeFrames vm.pmm).card+k ≤ maxPages)
    ⟨h,by rw [Nat.add_zero]; exact freeFrames_le _⟩ fun j a vm hj hP' => by
      rw [List.getElem?_range (by
        by_contra hlt
        rw [List.getElem?_eq_none (by simpa using hlt)] at hj
        cases hj),Option.some.injEq] at hj
      subst hj
      exact hP.heapPage (by omega) (by omega) hP'
  split
  · rename_i vm he
    rw [he] at hloop
    exact ⟨hloop,hbrk,hm⟩
  · rename_i vm he
    rw [he] at hloop
    obtain ⟨hk,hcount⟩ := hloop
    rw [List.length_range] at hcount
    refine ⟨hk,?_,Nat.not_lt.mp hfit⟩
    simp only [heapStartAddr,heapMaxSize,maxPages] at *
    omega

end

/-! Pages of a process. -/

variable {l : Loading}

theorem HeapStable.addPage {P : Vm → Prop} (hP : HeapStable P) (h : P l.kmem.vm) (hb : l.kmem.Bounded)
    (grow : ℕ → Bool) (f : ℕ) : P (elfAddPageToPcb grow l f).kmem.vm ∧
      (elfAddPageToPcb grow l f).kmem.Bounded := by
  simp only [elfAddPageToPcb]
  split
  · exact ⟨h,hb⟩
  split
  · split <;> exact hP.heapExtend h hb _
  · exact ⟨h,hb⟩

/-- Page addresses where the boot tables have no large pages. -/
def Mappable (v : ℕ) : Prop := v%4096 = 0 ∧ 2^30 ≤ v ∧ v < 2^47

theorem Mappable.page {v : ℕ} (h : Mappable v) :
    v = v/4096*4096 ∧ firstPage ≤ v/4096 ∧ v/4096 < lowPages := by
  obtain ⟨h1,h2,h3⟩ := h
  simp only [firstPage,lowPages]
  omega

theorem Kept.map (h : Kept L σ c vm) (hr : σ.ty r = some (r,[])) {v : ℕ} (hv : Mappable v)
    (hf : L.High f) (flags : Word) (hx : flags &&& ptNx = 0) :
    Kept L σ c (vmmMapPageInCr3 vm r v (f*4096) flags).2 := by
  obtain ⟨hpage,h1,h2⟩ := hv.page
  refine h.step fun σ' hle h' => ?_
  rw [hpage]
  exact h'.map (hle.ty r _ hr) h1 h2 hf hx

theorem Kept.fill (h : Kept L σ c vm) (hf : L.High f) (page : ℕ → Word) :
    Kept L σ c { vm with mem := fill vm.mem f page } :=
  h.write fun g hg => fill_of_ne (by have := hf.1; omega)

/-! Bytes of a segment. -/

/-! Kernel stacks. -/

/-- Where `vmm_get_phys` finds an address of the kernel's range depends on the kernel's own
memory alone: above 2 MB it takes a large page for a page table. -/
theorem Arranged.getPhys (h : Arranged L s σ) {v : ℕ} (h1 : kernelBase ≤ v)
    (h2 : v < kernelBase+4096*L.zones.lowStart) : vmmGetPhys s v =
      if pdIdx v = 0 then ptIdx v*4096+v%4096 else
      if present (L.low (512*pdIdx v) (ptIdx v)) then
        frameOf (L.low (512*pdIdx v) (ptIdx v))*4096+v%4096 else 0 := by
  have hord := L.ordered
  have hlow := L.zones.low_lt
  simp only [kernelBase,maxPages] at h1 h2 hlow
  have hidx : pml4Idx v = 511 ∧ pdptIdx v = 510 ∧ pdIdx v < 512 ∧ ptIdx v < 512 ∧
      512*pdIdx v < L.zones.lowStart := by
    simp only [pml4Idx,pdptIdx,pdIdx,ptIdx]
    omega
  obtain ⟨⟨hp4,hf4⟩,⟨hp3,hf3⟩,hpd⟩ := kernel_way h.boot L.upper (h.high _ h.active) L.below
  obtain ⟨hp2,hf2⟩ := hpd (pdIdx v) hidx.2.2.1
  simp only [vmmGetPhys,vmmGetPhysFromCr3,vmmWalk,hidx,hp4,hf4,hp3,hf3,hp2,hf2,Bool.not_true,
    Bool.false_eq_true,if_false]
  by_cases h0 : pdIdx v = 0
  · obtain ⟨hp1,hf1⟩ := h.boot.pt hidx.2.2.2.1
    simp [h0,hp1,hf1]
  · have hm := h.kernel (512*pdIdx v) (by omega) hidx.2.2.2.2
    rw [if_neg h0,if_neg h0,hm]
    cases hp1 : present (L.low (512*pdIdx v) (ptIdx v)) <;> simp

/-- The kernel stack lies in the memory reserved for the kernel, and `vmm_get_phys` finds no
address for it above 2 MB. -/
structure Vm.KernelStack (s : Vm) (v : ℕ) : Prop where
  base : kernelBase ≤ v
  below : v < kernelBase+4096*s.pmm.zones.lowStart
  phys : vmmGetPhys s v < 0x200000

theorem Kept.kernelStack (h : Arranged L s σ) {v : ℕ} (hv : s.KernelStack v) (hk : Kept L σ c vm) :
    ensureHhdmMapped vm (vmmGetPhys vm v) = vm := by
  obtain ⟨σ',-,h',-⟩ := hk
  have hbelow := hv.below
  rw [h.zones] at hbelow
  have hphys := hv.phys
  rw [h.getPhys hv.base hbelow,← h'.getPhys hv.base hbelow] at hphys
  exact ensureHhdm_below h'.boot L.upper (h'.high _ h'.active) L.below hphys

end Memory
end DonsOs
