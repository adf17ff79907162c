import DonsOs.Memory.Upkeep

/-! The user stack of a new process.
`process_create` takes sixteen frames from the HIGH zone, maps and clears them and puts them on
the page list.  Two of its calls can fail without telling: a mapping call, when a table on the way
is missing and the LOW zone is empty, and the growth of the page list, when the heap cannot be
extended.  Both are decided with the first page, for all sixteen share one page table and one
list. -/
namespace DonsOs
namespace Memory

open Paging
open Heap (heapStartAddr heapMaxSize)

/-- The number of a page of the stack. -/
def stackNo (j : ℕ) : ℕ := stackBottomAnchor/4096+j

def stackPath : List ℕ := pathOf stackBottomAnchor

theorem stackNo_addr (j : ℕ) : stackNo j*4096 = stackBottomAnchor+j*4096 := by
  simp only [stackNo,stackBottomAnchor]
  omega

theorem stackNo_range {j : ℕ} (hj : j < 16) : firstPage ≤ stackNo j ∧ stackNo j < lowPages := by
  simp only [stackNo,stackBottomAnchor,firstPage,lowPages]
  omega

theorem pathOf_stackNo {j : ℕ} (hj : j < 16) : pathOf (stackNo j*4096) = stackPath := by
  simp only [stackNo_addr,stackPath,pathOf,pml4Idx,pdptIdx,pdIdx,stackBottomAnchor,List.cons.injEq,and_true]
  omega

theorem low_stackPath : Low stackPath := low_pathOf (by decide)

theorem not_bootLarge_stackPath (w : Word) : ¬bootLarge stackPath w := by
  rintro ⟨⟨k,-,hk⟩,-⟩
  simp [stackPath,pathOf,pml4Idx,stackBottomAnchor] at hk

variable {L : Layout} {σ : Shape} {s s' vm vm' : Vm} {c r f : ℕ} {ok : Bool} {fs : List ℕ}

/-! Changes outside the tables of an address space. -/

/-- The tables of `r` and the way to a page of it depend on words of the low half alone. -/
theorem Arranged.same_space {m : Mem} (h : Arranged L s σ) (hr : σ.ty r = some (r,[]))
    (hm : ∀ f path i, σ.ty f = some (r,path) → (path = [] → i < 256) → m f i = s.mem f i) :
    (∀ n < lowPages, pageWord m r n = pageWord s.mem r n) ∧
      walkTo m r stackPath = walkTo s.mem r stackPath :=
  ⟨fun _ hn => pageWord_eq_of_words h.forest hr hn hm,
    walkTo_typed_congr h.forest hr (fun f path hf _ i hi => hm f path i hf hi) (by simp [stackPath,pathOf])
      (by simpa using low_stackPath)⟩

theorem Arranged.not_table (h : Arranged L s σ) (hf : L.zones.highStart ≤ f) {g : ℕ} {x : ℕ × List ℕ}
    (hg : σ.ty g = some x) : g ≠ f := by
  have hap := L.apart
  have hlow := (h.typed hg).2.1
  omega

/-- A clone misses the tables on the way to the stack that its source misses, and takes no frame of
the HIGH zone. -/
theorem Arranged.clone_supplies (h : Arranged L s σ) (hrun : vmmClonePageTable s s.cr3 = .ok (r,s')) :
    missing s'.mem r stackPath = missing s.mem s.cr3 stackPath ∧ highFrames s'.pmm = highFrames s.pmm := by
  obtain ⟨ty,hforest,hx,-,-,-,-,hcop⟩ := clone_spec h.forest h.source hrun
  constructor
  · obtain ⟨hst,hc⟩ := hcop 1 (by omega)
    have hpath : stackPath = [1,0,0] := by decide
    rw [hpath,missing_cons s'.mem,missing_cons s.mem,hst.link]
    by_cases hl : Paging.link (s.mem s.cr3 1) = true
    · rw [if_pos hl,if_pos hl,missing_copies (hc hl) rfl (by simp)]
    · rw [if_neg hl,if_neg hl]
  · refine highFrames_congr hx.zones hx.nextHigh fun f hf => Bool.eq_iff_iff.mpr ?_
    rw [hx.bitmap f,or_iff_left]
    rintro ⟨-,hty⟩
    obtain ⟨x,hx'⟩ := Option.ne_none_iff_exists'.mp hty
    have hlow := (hforest.typed f x hx').2.1
    rw [hx.zones] at hlow
    omega

/-! The pages mapped so far. -/

/-- The frames `fs` are the first pages of the stack of `r`, in this order; `ok` says whether they
could be mapped. -/
structure Stacking (L : Layout) (σ : Shape) (c r : ℕ) (ok : Bool) (fs : List ℕ) (vm : Vm) : Prop where
  kept : Kept L σ c vm
  blank : ∀ f ∈ fs, L.High f ∧ vm.pmm.bitmap f = true ∧ ∀ i, vm.mem f i = 0
  words : ok = true → ∀ j f, fs[j]? = some f →
    pageWord vm.mem r (stackNo j) = some (pteOf (f*4096) userFlags)
  first : fs = [] → (ok = true ↔ missing vm.mem r stackPath ≤ lowFree vm.pmm)
  broken : ok = false → fs ≠ [] → lowFree vm.pmm = 0 ∧ walkTo vm.mem r stackPath = none

theorem walkTo_of_pageWord {m : Mem} {j : ℕ} {w : Word} (hj : j < 16) (h : pageWord m r (stackNo j) = some w) :
    walkTo m r stackPath ≠ none := by
  intro hw
  rw [pageWord,pathOf_stackNo hj,hw] at h
  cases h

/-- The next page can be mapped if the first one could. -/
theorem Stacking.ok_iff (h : Stacking L σ c r ok fs vm) :
    ok = true ↔ missing vm.mem r stackPath ≤ lowFree vm.pmm := by
  cases hfs : fs with
  | nil => exact h.first hfs
  | cons f fs' =>
    cases hok : ok with
    | true =>
      have hw := walkTo_of_pageWord (by decide) (h.words hok 0 f (by simp [hfs]))
      simp [missing_eq_zero.mpr hw]
    | false =>
      obtain ⟨hz,hw⟩ := h.broken hok (by simp [hfs])
      have hne : missing vm.mem r stackPath ≠ 0 := fun h0 => missing_eq_zero.mp h0 hw
      simp only [Bool.false_eq_true,false_iff]
      omega

theorem Stacking.page (h : Stacking L σ c r ok fs vm) (hr : σ.ty r = some (r,[])) (hlen : fs.length < 16)
    {p : Pmm} (ha : pmmAllocPageForElf vm.pmm = some (f,p))
    (hm : (vmmMapPageInCr3 { vm with pmm := p } r (stackBottomAnchor+fs.length*4096) (f*4096)
      userFlags).2 = vm') :
    Stacking L σ c r ok (fs++[f]) { vm' with mem := fill vm'.mem f fun _ => 0 } := by
  obtain ⟨σ',hle,h',-⟩ := h.kept
  have hr' := hle.ty r _ hr
  obtain ⟨hf,h₁⟩ := h'.alloc ha
  obtain ⟨htk,-,-,-⟩ := allocForElf_spec ha
  obtain ⟨hn1,hn2⟩ := stackNo_range hlen
  rw [← stackNo_addr] at hm
  have hc := h₁.forest.uncovered hr' hn1 hn2
  -- the call succeeds as the first one did
  have hcases := map_cases h₁.forest hr' (low_page hn2)
    (by rw [pathOf_stackNo hlen]; exact not_bootLarge_stackPath) (f*4096) userFlags
  rw [pathOf_stackNo hlen,hm] at hcases
  simp only [allocForElf_lowFree ha] at hcases
  have hres : vmmMapPageInCr3 { vm with pmm := p } r (stackNo fs.length*4096) (f*4096) userFlags =
      (ok,vm') := by
    refine Prod.ext ?_ hm
    rcases hcases with ⟨hle,hok⟩ | ⟨hlt,hok,-⟩
    · rw [hok,h.ok_iff.mpr hle]
    · rw [hok]
      cases ok with
      | false => rfl
      | true => exact absurd (h.ok_iff.mp rfl) (by omega)
  obtain ⟨ty',hforest,hext,-,hwords⟩ := pageWord_map h₁.forest hr' hn2 hc hres
  have hbit : ∀ g, p.bitmap g = true → vm'.pmm.bitmap g = true := fun g hg => (hext.bitmap g).mpr (Or.inl hg)
  have hfree : ∀ g, vm.pmm.bitmap g = true → g ≠ f ∧ p.bitmap g = true := by
    intro g hg
    have hne : g ≠ f := by
      rintro rfl
      rw [htk.free] at hg
      cases hg
    exact ⟨hne,by rw [htk.bitmap,Function.update_of_ne hne]; exact hg⟩
  have hmap : Kept L σ c vm' := by
    have hmapped := (h.kept.alloc ha).2.map hr (v:=stackNo fs.length*4096) ⟨by omega,by
      simp only [stackNo,stackBottomAnchor]
      omega,by
      simp only [stackNo,stackBottomAnchor]
      omega⟩ hf userFlags (by decide)
    rwa [hm] at hmapped
  obtain ⟨σ₂,hle₂,h₂,-⟩ := id hmap
  -- clearing a frame of the HIGH zone touches no table
  obtain ⟨hpages,hwalk⟩ := h₂.same_space (m:=fill vm'.mem f fun _ => 0) (hle₂.ty r _ hr)
    fun g path i hg _ => congrFun (fill_of_ne (h₂.not_table hf.1 hg)) i
  refine ⟨hmap.fill hf _,fun g hg => ?_,fun hok j g hg => ?_,by simp,fun hok _ => ?_⟩
  · rcases List.mem_append.mp hg with hg | hg
    · obtain ⟨hhigh,hused,hz⟩ := h.blank g hg
      obtain ⟨hne,hp⟩ := hfree g hused
      refine ⟨hhigh,hbit g hp,fun i => ?_⟩
      have hkeep := hext.keep g (Or.inl hp) fun path hty => h'.not_table hhigh.1 hty rfl
      simp only [fill_of_ne hne,hkeep]
      exact hz i
    · rw [List.mem_singleton] at hg
      subst hg
      exact ⟨hf,hbit g (by rw [htk.bitmap,Function.update_self]),fun i => by simp⟩
  · have hj : j < (fs++[f]).length := by
      by_contra hlt
      rw [List.getElem?_eq_none (by omega)] at hg
      cases hg
    rw [List.length_append,List.length_singleton] at hj
    obtain ⟨-,hj2⟩ := stackNo_range (show j < 16 by omega)
    rw [hpages _ hj2,hwords _ hj2]
    by_cases he : j = fs.length
    · subst he
      rw [List.getElem?_concat_length,Option.some.injEq] at hg
      rw [if_pos ⟨rfl,hok⟩,hg]
    · rw [if_neg (by simp only [stackNo]; omega)]
      rw [List.getElem?_append_left (by omega)] at hg
      exact h.words hok j g hg
  · rcases hcases with ⟨hle,-⟩ | ⟨-,-,hz,hw⟩
    · rw [h.ok_iff.mpr hle] at hok
      cases hok
    · exact ⟨hz,hwalk.trans hw⟩

/-! The growth of the page list. -/

theorem Stacking.heapPage (h : Stacking L σ c r ok fs vm) (hr : σ.ty r = some (r,[])) (hfs : fs ≠ [])
    (hlen : fs.length ≤ 16) (hslot : present (L.top heapSlot) = true) {start g : ℕ}
    (hstart : pml4Idx start = heapSlot) {p : Pmm}
    (ha : pmmAllocPageForElf vm.pmm = some (g,p)) :
    Stacking L σ c r ok fs (vmmMapPage { vm with pmm := p } start (g*4096) heapFlags).2 := by
  obtain ⟨σ',hle,h',hc⟩ := h.kept
  obtain ⟨-,h₁⟩ := h'.alloc ha
  obtain ⟨htk,-,-,-⟩ := allocForElf_spec ha
  obtain ⟨σ₂,hle₂,h₂,hc₂,haside⟩ := h₁.heapMap hslot hstart (g*4096) heapFlags
  have hr' := hle.ty r _ hr
  obtain ⟨hpages,hwalk⟩ := h₁.same_space hr' fun f path i hf hi => haside.words f r path i hf hi
  refine ⟨⟨σ₂,hle.trans hle₂,h₂,hc₂.trans hc⟩,fun f hf => ?_,fun hok j f hf => ?_,fun hn => absurd hn hfs,
    fun hok _ => ?_⟩
  · obtain ⟨hhigh,hused,hz⟩ := h.blank f hf
    have hne : f ≠ g := by
      rintro rfl
      rw [htk.free] at hused
      cases hused
    refine ⟨hhigh,haside.used f ?_,fun i => ?_⟩
    · simp only [htk.bitmap,Function.update_of_ne hne]
      exact hused
    · rw [haside.data f hhigh.1]
      exact hz i
  · have hj : j < fs.length := by
      by_contra hlt
      rw [List.getElem?_eq_none (by omega)] at hf
      cases hf
    rw [hpages _ (stackNo_range (show j < 16 by omega)).2]
    exact h.words hok j f hf
  · obtain ⟨hz,hw⟩ := h.broken hok hfs
    obtain ⟨k,-,hk,-⟩ := map_supply { vm with pmm := p } vm.cr3 start (g*4096) heapFlags
    refine ⟨?_,hwalk.trans hw⟩
    simp only [allocForElf_lowFree ha,hz] at hk
    simp only [vmmMapPage]
    omega

/-- `kmalloc` asks for one page when the list needs its first 64 entries. -/
theorem heapExtend_list {k : Kmem} (hb : k.Bounded) : heapExtend k (kmallocBytes ((0+64)*8)) =
    if heapMaxSize < k.heapMapped+4096 then (false,k) else
    match pmmAllocPageForElf k.vm.pmm with
    | none => (false,k)
    | some (g,p) => (true,⟨(vmmMapPage { k.vm with pmm := p } k.heapBrk (g*4096) heapFlags).2,
        k.heapBrk+4096,k.heapMapped+4096⟩) := by
  have hbytes : kmallocBytes ((0+64)*8) = 560 := by decide
  have hm := hb.mapped
  have hbrk := hb.brk
  simp only [heapMaxSize,heapStartAddr] at hm hbrk
  have hmod : (k.heapMapped+4096)%2^64 = k.heapMapped+4096 := Nat.mod_eq_of_lt (by omega)
  have hmod' : (k.heapBrk+4096)%2^64 = k.heapBrk+4096 := Nat.mod_eq_of_lt (by omega)
  have hmod'' : k.heapBrk%2^64 = k.heapBrk := Nat.mod_eq_of_lt (by omega)
  simp only [heapExtend,hbytes,show (560+4095)%2^64/4096 = 1 by decide,show 1*4096%2^64 = 4096 by decide,
    hmod,hmod',List.range_one,List.foldlM_cons,List.foldlM_nil,OfNat.ofNat_ne_zero,if_false]
  split
  · rfl
  · simp only [heapPage]
    cases pmmAllocPageForElf k.vm.pmm with
    | none => rfl
    | some x => simp only [Nat.zero_mul,Nat.add_zero,hmod'']; rfl

/-! The loop. -/

/-- Whether the heap has room for the page list: its first part is allocated in a free block, or in
a page that is added to the heap. -/
def Kmem.Listed (k : Kmem) (grow : ℕ → Bool) : Prop := grow 0 = true → k.heapMapped+4096 ≤ heapMaxSize

/-- The frames that the stack is made of, the lowest page first: the next ones of the HIGH zone,
but for the one that goes to the heap. -/
def Kmem.stackFrames (k : Kmem) (grow : ℕ → Bool) : List ℕ :=
  if grow 0 ∧ k.heapMapped+4096 ≤ heapMaxSize then (highFrames k.vm.pmm).eraseIdx 1
  else highFrames k.vm.pmm

/-- The loop of `process_create` that started from `k`, after `n` pages. -/
structure Stacked (L : Layout) (σ : Shape) (c r : ℕ) (ok : Bool) (k : Kmem) (grow : ℕ → Bool) (n : ℕ)
    (l : Loading) : Prop where
  stacking : Stacking L σ c r ok ((k.stackFrames grow).take n) l.kmem.vm
  bounded : l.kmem.Bounded
  rest : highFrames l.kmem.vm.pmm = (k.stackFrames grow).drop n
  pages : k.Listed grow → 1 < (k.stackFrames grow).length → l.pages = (k.stackFrames grow).take n
  unlisted : ¬k.Listed grow → l.pages = [] ∧ l.kmem.heapMapped = k.heapMapped
  last : (k.stackFrames grow)[n-1]? = some l.last

section
variable {k : Kmem} {grow : ℕ → Bool} {n : ℕ} {l : Loading}

/-- The first frame on a page list. -/
theorem elfAddPageToPcb_nil (hb : l.kmem.Bounded) (hp : l.pages = []) : elfAddPageToPcb grow l f =
    if grow 0 = false then { l with pages := [f] } else
    if heapMaxSize < l.kmem.heapMapped+4096 then l else
    match pmmAllocPageForElf l.kmem.vm.pmm with
    | none => l
    | some (g,p) => { l with
        kmem := ⟨(vmmMapPage { l.kmem.vm with pmm := p } l.kmem.heapBrk (g*4096) heapFlags).2,
          l.kmem.heapBrk+4096,l.kmem.heapMapped+4096⟩
        pages := [f] } := by
  obtain ⟨k,pages,last⟩ := l
  subst hp
  simp only [elfAddPageToPcb,List.not_mem_nil,if_false,List.length_nil,Nat.zero_mod,true_and,
    heapExtend_list hb,List.nil_append]
  cases grow 0 with
  | false => rfl
  | true =>
    simp only [if_true,reduceCtorEq,if_false]
    split
    · rfl
    · cases pmmAllocPageForElf k.vm.pmm <;> rfl

theorem page_highFrames {p : Pmm} (ha : pmmAllocPageForElf vm.pmm = some (f,p)) (v phys : ℕ) (flags : Word) :
    highFrames vm.pmm = f::highFrames (vmmMapPageInCr3 { vm with pmm := p } r v phys flags).2.pmm := by
  rw [map_highFrames]
  exact highFrames_alloc ha

theorem Stacking.list (h : Stacking L σ c r ok [f] l.kmem.vm) (hslot : present (L.top heapSlot) = true)
    (hr : σ.ty r = some (r,[])) (hb : l.kmem.Bounded) (hmapped : l.kmem.heapMapped = k.heapMapped)
    (hpages : l.pages = []) (hlast : l.last = f)
    (hhigh : highFrames k.vm.pmm = f::highFrames l.kmem.vm.pmm) :
    Stacked L σ c r ok k grow 1 (elfAddPageToPcb grow l f) := by
  rw [elfAddPageToPcb_nil hb hpages]
  by_cases hgrow : grow 0 = false
  · have hframes : k.stackFrames grow = f::highFrames l.kmem.vm.pmm := by
      rw [Kmem.stackFrames,if_neg (by simp [hgrow]),hhigh]
    have hyes : k.Listed grow := fun h => by
      rw [hgrow] at h
      cases h
    rw [if_pos hgrow]
    exact ⟨by simpa [hframes] using h,hb,by simp [hframes],fun _ _ => by simp [hframes],
      fun h => absurd hyes h,by simp [hframes,hlast]⟩
  rw [if_neg hgrow]
  rw [Bool.not_eq_false] at hgrow
  by_cases hfull : heapMaxSize < l.kmem.heapMapped+4096
  · -- the heap is full, and the list stays empty
    have hframes : k.stackFrames grow = f::highFrames l.kmem.vm.pmm := by
      rw [Kmem.stackFrames,if_neg (by omega),hhigh]
    have hno : ¬k.Listed grow := fun h => by
      have := h hgrow
      omega
    rw [if_pos hfull]
    exact ⟨by simpa [hframes] using h,hb,by simp [hframes],fun h => absurd h hno,
      fun _ => ⟨hpages,hmapped⟩,by simp [hframes,hlast]⟩
  have hframes : k.stackFrames grow = f::(highFrames l.kmem.vm.pmm).tail := by
    rw [Kmem.stackFrames,if_pos ⟨hgrow,by omega⟩,hhigh]
    cases highFrames l.kmem.vm.pmm <;> rfl
  have hyes : k.Listed grow := fun _ => by omega
  rw [if_neg hfull]
  cases hg : pmmAllocPageForElf l.kmem.vm.pmm with
  | none =>
    -- the stack has taken the last frame
    have hnil := allocForElf_none.mp hg
    rw [hnil] at hframes
    exact ⟨by simpa [hframes] using h,hb,by simp [hframes,hnil],by simp [hframes],
      fun h => absurd hyes h,by simp [hframes,hlast]⟩
  | some x =>
    obtain ⟨g,q⟩ := x
    rw [highFrames_alloc hg,List.tail_cons] at hframes
    have hbrk := hb.brk
    have hmax := hb.mapped
    have hstart : pml4Idx l.kmem.heapBrk = heapSlot := by
      simp only [heapStartAddr,heapMaxSize] at hbrk hmax
      simp only [pml4Idx,heapSlot]
      omega
    have hheap := h.heapPage hr (by simp) (by simp) hslot hstart hg
    refine ⟨by simpa [hframes] using hheap,⟨by simp only; omega,by simp only; omega⟩,?_,
      fun _ _ => by simp [hframes],fun h => absurd hyes h,by simp [hframes,hlast]⟩
    simp only [vmmMapPage,hframes,List.drop_succ_cons,List.drop_zero]
    exact map_highFrames _ _ _ _ _

theorem stackPage_first (hslot : present (L.top heapSlot) = true) (hr : σ.ty r = some (r,[]))
    (hs : Stacking L σ c r ok [] k.vm) (hb : k.Bounded) :
    Run.Ends (Stacked L σ c r ok k grow 1) (fun _ => (k.stackFrames grow).length < 16)
      (stackPage r grow ⟨k,[],0⟩ 0) := by
  simp only [stackPage]
  split
  · rename_i ha
    have hno := allocForElf_none.mp ha
    simp only [Run.Ends,Kmem.stackFrames,hno]
    split <;> simp
  · rename_i f p ha
    exact (hs.page hr (by simp) ha rfl).list hslot hr ⟨hb.brk,hb.mapped⟩ rfl rfl rfl
      (page_highFrames ha _ _ _)

theorem pairwise_stackFrames (k : Kmem) (grow : ℕ → Bool) : (k.stackFrames grow).Pairwise (· > ·) := by
  rw [Kmem.stackFrames]
  split
  · exact (pairwise_highFrames _).sublist (List.eraseIdx_sublist _ _)
  · exact pairwise_highFrames _

theorem Stacked.add (h : Stacked L σ c r ok k grow n l) (h0 : 0 < n) (hn : n < 16) {l' : Loading}
    (hf : (k.stackFrames grow)[n]? = some f)
    (hs : Stacking L σ c r ok ((k.stackFrames grow).take (n+1)) l'.kmem.vm)
    (hhigh : highFrames l.kmem.vm.pmm = f::highFrames l'.kmem.vm.pmm) (hb : l'.kmem.Bounded)
    (hmapped : l'.kmem.heapMapped = l.kmem.heapMapped) (hpages : l'.pages = l.pages) (hlast : l'.last = f) :
    Stacked L σ c r ok k grow (n+1) (elfAddPageToPcb grow l' f) := by
  obtain ⟨hlt,hget⟩ := List.getElem?_eq_some_iff.mp hf
  have htake : (k.stackFrames grow).take (n+1) = (k.stackFrames grow).take n++[f] := by
    rw [List.take_succ_eq_append_getElem hlt,hget]
  have hrest : highFrames l'.kmem.vm.pmm = (k.stackFrames grow).drop (n+1) := by
    have hdrop := h.rest.symm.trans hhigh
    rw [List.drop_eq_getElem_cons hlt,List.cons.injEq] at hdrop
    exact hdrop.2.symm
  by_cases hlist : k.Listed grow
  · have hold := h.pages hlist (by omega)
    have hnew : f ∉ l'.pages := by
      rw [hpages,hold]
      intro hmem
      have hnd : ((k.stackFrames grow).take n++[f]).Pairwise (· > ·) := by
        rw [← htake]
        exact (pairwise_stackFrames k grow).sublist (List.take_sublist _ _)
      have := (List.pairwise_append.mp hnd).2.2 f hmem f (by simp)
      omega
    have hmod : ¬l'.pages.length%64 = 0 := by
      rw [hpages,hold,List.length_take]
      omega
    simp only [elfAddPageToPcb,hnew,hmod,false_and,if_false]
    exact ⟨hs,hb,hrest,fun _ _ => by rw [htake,hpages,hold],fun hno => absurd hlist hno,
      by rw [hlast]; exact hf⟩
  · obtain ⟨hold,hsame⟩ := h.unlisted hlist
    have hfull : grow 0 = true ∧ heapMaxSize < k.heapMapped+4096 := by
      simpa [Kmem.Listed] using hlist
    rw [elfAddPageToPcb_nil hb (hpages.trans hold),if_neg (by simp [hfull.1]),if_pos (by omega)]
    exact ⟨hs,hb,hrest,fun hyes => absurd hyes hlist,fun _ => ⟨hpages.trans hold,hmapped.trans hsame⟩,
      by rw [hlast]; exact hf⟩

theorem stackPage_next (hr : σ.ty r = some (r,[])) (h : Stacked L σ c r ok k grow n l) (h0 : 0 < n)
    (hn : n < 16) :
    Run.Ends (Stacked L σ c r ok k grow (n+1)) (fun _ => (k.stackFrames grow).length < 16)
      (stackPage r grow l n) := by
  simp only [stackPage]
  split
  · rename_i ha
    have hno := h.rest.symm.trans (allocForElf_none.mp ha)
    rw [List.drop_eq_nil_iff] at hno
    simp only [Run.Ends]
    omega
  rename_i f p ha
  have hhigh := page_highFrames ha (r:=r) (stackBottomAnchor+n*4096) (f*4096) userFlags
  have hdrop := h.rest.symm.trans hhigh
  have hlt : n < (k.stackFrames grow).length := by
    by_contra hlt
    rw [List.drop_eq_nil_of_le (by omega)] at hdrop
    cases hdrop
  rw [List.drop_eq_getElem_cons hlt,List.cons.injEq] at hdrop
  have hlen : ((k.stackFrames grow).take n).length = n := by
    rw [List.length_take]
    omega
  have hpage := h.stacking.page hr (by omega) ha rfl
  rw [hlen,← hdrop.1,← List.take_succ_eq_append_getElem hlt,hdrop.1] at hpage
  exact h.add h0 hn (by rw [List.getElem?_eq_getElem hlt,hdrop.1]) hpage hhigh
    ⟨h.bounded.brk,h.bounded.mapped⟩ rfl rfl rfl

/-- The loop over the sixteen pages ends well if there are frames for all of them. -/
theorem userStack_ends (hslot : present (L.top heapSlot) = true) (hr : σ.ty r = some (r,[]))
    (hs : Stacking L σ c r ok [] k.vm) (hb : k.Bounded) (grow : ℕ → Bool) :
    Run.Ends (Stacked L σ c r ok k grow 16) (fun _ => (k.stackFrames grow).length < 16)
      ((List.range userStackPages).foldlM (stackPage r grow) ⟨k,[],0⟩) := by
  have hrange : List.range userStackPages = List.range 16 := rfl
  rw [hrange]
  refine Run.foldlM_ends (P:=fun n l => if n = 0 then l = ⟨k,[],0⟩ else Stacked L σ c r ok k grow n l)
    (by simp) fun n i l hi hP => ?_
  obtain ⟨hn,rfl⟩ : n < 16 ∧ n = i := by
    rw [List.getElem?_eq_some_iff] at hi
    obtain ⟨hlt,he⟩ := hi
    exact ⟨by simpa using hlt,by simpa using he⟩
  simp only [Nat.add_eq_zero_iff,one_ne_zero,and_false,if_false]
  split at hP
  · rename_i h0
    subst h0 hP
    exact stackPage_first hslot hr hs hb
  · exact stackPage_next hr hP (by omega) hn

end

/-! The alias of the last frame.  `ensure_hhdm_mapped` may store an entry for it into a table, but
not over an entry that is there. -/

section
variable {large : List ℕ → Word → Prop} {ty : Typing} {m : Mem} {v n t i : ℕ} {w : Word} {path : List ℕ}

theorem Forest.step (h : Forest large s ty) (ht : ty t = some (r,path)) (hi : path = [] → i < 256)
    (hlen : path.length < 3) (hl : path.length = 2 → ∀ w, ¬large (path++[i]) w)
    (hp : present (s.mem t i) = true) :
    link (s.mem t i) = true ∧ ty (frameOf (s.mem t i)) = some (r,path++[i]) := by
  rcases (h.node t r path ht).link i hlen hi hp with ⟨hh,hty⟩ | ⟨h2,-,hlarge⟩
  · exact ⟨by simp [link,hp,hh],hty⟩
  · exact absurd hlarge (hl h2 _)

/-- Entries that are there stay: pages that are mapped stay mapped. -/
theorem Forest.walk_kept (h : Forest large s ty) (hr : ty r = some (r,[])) (hn : n < lowPages)
    (hm : ∀ t path i, ty t = some (r,path) → (path = [] → i < 256) → present (s.mem t i) = true →
      m t i = s.mem t i) (hw : pageWord s.mem r n = some w) : vmmWalk m r (n*4096) = some w := by
  have h256 := low_page hn
  rw [pageWord,Option.bind_eq_some_iff] at hw
  obtain ⟨t,hwalk,hword⟩ := hw
  simp only [pathOf] at hwalk
  obtain ⟨hl4,hwalk⟩ := walkTo_cons.mp hwalk
  obtain ⟨hl3,hwalk⟩ := walkTo_cons.mp hwalk
  obtain ⟨hl2,hwalk⟩ := walkTo_cons.mp hwalk
  rw [walkTo_nil,Option.some.injEq] at hwalk
  subst hwalk
  have ht3 := h.link_typed hr (by simp) (fun _ => h256) hl4
  have ht2 := h.link_typed ht3 (by simp) (by simp) hl3
  have ht1 := h.link_typed ht2 (by simp) (by simp) hl2
  have hp4 := link_present hl4
  have hp3 := link_present hl3
  have hp2 := link_present hl2
  dsimp only at hword
  split at hword
  · rename_i hp1
    rw [← hword]
    have he4 := hm r [] _ hr (fun _ => h256) hp4
    have he3 := hm _ _ _ ht3 (by simp) hp3
    have he2 := hm _ _ _ ht2 (by simp) hp2
    have he1 := hm _ _ _ ht1 (by simp) hp1
    simp only [vmmWalk,he4,hp4,he3,hp3,he2,hp2,he1,hp1,Bool.not_true,Bool.false_eq_true,if_false]
  · cases hword

/-- Where a new entry leads to an empty frame, it gives access to no page. -/
theorem Forest.walk_back (h : Forest large s ty) (hr : ty r = some (r,[])) (hv : pml4Idx v < 256)
    (hl : ∀ w, ¬large (pathOf v) w)
    (hm : ∀ t path i, ty t = some (r,path) → (path = [] → i < 256) → m t i = s.mem t i ∨
      ∀ j, present (m (frameOf (m t i)) j) = false) (hw : vmmWalk m r v = some w) :
    walkTo s.mem r (pathOf v) ≠ none := by
  -- a level of the walk: the entry is an old one, for another level follows
  have hlevel : ∀ t path i, ty t = some (r,path) → (path = [] → i < 256) → path.length < 3 →
      (path.length = 2 → ∀ w, ¬large (path++[i]) w) → present (m t i) = true →
      (∃ j, present (m (frameOf (m t i)) j) = true) →
      m t i = s.mem t i ∧ link (s.mem t i) = true ∧ ty (frameOf (s.mem t i)) = some (r,path++[i]) := by
    rintro t path i ht hi hlen hl hp ⟨j,hj⟩
    rcases hm t path i ht hi with he | he
    · exact ⟨he,h.step ht hi hlen hl (he ▸ hp)⟩
    · rw [he j] at hj
      cases hj
  simp only [vmmWalk] at hw
  split_ifs at hw with h4 h3 h2 h1
  simp only [Bool.not_eq_true',Bool.not_eq_false] at h4 h3 h2 h1
  obtain ⟨e4,hl4,ht3⟩ := hlevel r [] _ hr (fun _ => hv) (by simp) (by simp) h4 ⟨_,h3⟩
  rw [e4] at h3 h2 h1
  obtain ⟨e3,hl3,ht2⟩ := hlevel _ _ _ ht3 (by simp) (by simp) (by simp) h3 ⟨_,h2⟩
  rw [e3] at h2 h1
  obtain ⟨-,hl2,-⟩ := hlevel _ _ _ ht2 (by simp) (by simp) (fun _ => hl) h2 ⟨_,h1⟩
  simp [pathOf,walkTo,hl4,hl3,hl2]

/-- The entry for the frame `f` may land in a table of an address space, in an unused word. -/
theorem Arranged.aliased_table (h : Arranged L s σ) (hf : L.High f) (ht : σ.ty t = some (r,path))
    (hi : path = [] → i < 256) : (ensureHhdmMapped s (f*4096)).mem t i = s.mem t i ∨
      t = 512*(f/512) ∧ present (s.mem t i) = false ∧
        frameOf ((ensureHhdmMapped s (f*4096)).mem t i) = f := by
  have h512 := (h.typed ht).1
  have hbel := L.below
  have hlt := L.high_lt hf
  rcases (h.aliased hf).words t i with he | ⟨hg,hp,he⟩ | ⟨-,⟨hg,hi'⟩ | ⟨hg,-⟩ | hg⟩
  · exact Or.inl he
  · exact Or.inr ⟨hg,hp,by rw [he,frameOf_pteOf (by decide) (by omega)]⟩
  · rcases h.active with hr | hr
    · omega
    · rw [hg,hr,Option.some.injEq,Prod.mk.injEq] at ht
      have := hi ht.2.symm
      omega
  · omega
  · omega

/-- Data changes in the first frame of the 2 MB block only. -/
theorem Arranged.aliased_data (h : Arranged L s σ) (hf : L.High f) {g : ℕ} (hg : L.zones.highStart ≤ g)
    (hne : g ≠ 512*(f/512)) : (ensureHhdmMapped s (f*4096)).mem g = s.mem g := by
  have hhigh := L.high
  have hbel := L.below
  have hap := L.apart
  have hrange := h.rooted_range h.active
  funext i
  rcases (h.aliased hf).words g i with he | ⟨he,-⟩ | ⟨-,⟨he,-⟩ | ⟨he,-⟩ | he⟩
  · exact he
  · exact absurd he hne
  · omega
  · omega
  · omega

end
/-- The sixteen pages of the stack are mapped to different frames, which are empty and on the page
list. -/
def StackMapped (m : Mem) (r : ℕ) (pages : List ℕ) : Prop :=
  ∃ frame : ℕ → ℕ, (∀ i < 16, ∀ j < 16, frame i = frame j → i = j) ∧
    ∀ i < 16, (∃ w, vmmWalk m r (stackBottomAnchor+i*4096) = some w ∧ frameOf w = frame i) ∧
      (∀ j < 512, m (frame i) j = 0) ∧ frame i ∈ pages

section
variable {k : Kmem} {grow : ℕ → Bool} {l : Loading}

theorem Stacked.last_mem (h : Stacked L σ c r ok k grow 16 l) :
    l.last ∈ (k.stackFrames grow).take 16 ∧ L.High l.last := by
  have hmem : l.last ∈ (k.stackFrames grow).take 16 := by
    rw [List.mem_take_iff_getElem]
    obtain ⟨hlt,he⟩ := List.getElem?_eq_some_iff.mp h.last
    exact ⟨15,by omega,he⟩
  exact ⟨hmem,(h.stacking.blank _ hmem).1⟩

/-- The frame of the last page is the lowest one. -/
theorem Stacked.last_le (h : Stacked L σ c r ok k grow 16 l) {g : ℕ} (hg : g ∈ (k.stackFrames grow).take 16) :
    l.last ≤ g := by
  obtain ⟨hlt,he⟩ := List.getElem?_eq_some_iff.mp h.last
  rw [List.mem_take_iff_getElem] at hg
  obtain ⟨i,hi,rfl⟩ := hg
  rw [← he]
  by_cases h15 : i = 15
  · subst h15
    exact le_rfl
  · exact (List.pairwise_iff_getElem.mp (pairwise_stackFrames k grow) i 15 _ _ (by omega)).le

/-- The stack is as it should be exactly when its pages could be mapped and listed, and the frame of
the last one does not begin a 2 MB block: its alias would be stored in the frame itself. -/
theorem Stacked.mapped_iff (h : Stacked L σ c r ok k grow 16 l) (hr : σ.ty r = some (r,[])) :
    StackMapped (ensureHhdmMapped l.kmem.vm (l.last*4096)).mem r l.pages ↔
      ok = true ∧ k.Listed grow ∧ l.last%512 ≠ 0 := by
  obtain ⟨σ',hle,h',-⟩ := h.stacking.kept
  have hr' := hle.ty r _ hr
  obtain ⟨hmem,hhigh⟩ := h.last_mem
  have hlen : 16 ≤ (k.stackFrames grow).length := by
    obtain ⟨hlt,-⟩ := List.getElem?_eq_some_iff.mp h.last
    omega
  -- a page that is mapped before the alias is stored stays mapped
  have hwalk : ok = true → ∀ i f, i < 16 → (k.stackFrames grow)[i]? = some f →
      vmmWalk (ensureHhdmMapped l.kmem.vm (l.last*4096)).mem r (stackBottomAnchor+i*4096) =
        some (pteOf (f*4096) userFlags) := by
    intro hok i f hi hf
    rw [← stackNo_addr]
    refine h'.forest.walk_kept hr' (stackNo_range hi).2 (fun t path j ht hj hp => ?_)
      (h.stacking.words hok i f (by rw [List.getElem?_take_of_lt hi]; exact hf))
    rcases h'.aliased_table hhigh ht hj with he | ⟨-,hno,-⟩
    · exact he
    · rw [hp] at hno
      cases hno
  constructor
  · rintro ⟨frame,-,hall⟩
    have hok : ok = true := by
      by_contra hno
      rw [Bool.not_eq_true] at hno
      obtain ⟨-,hnone⟩ := h.stacking.broken hno (List.ne_nil_of_mem hmem)
      obtain ⟨⟨w,hw,-⟩,-⟩ := hall 0 (by omega)
      refine h'.forest.walk_back hr' (by decide) not_bootLarge_stackPath (fun t path j ht hj => ?_) hw hnone
      rcases h'.aliased_table hhigh ht hj with he | ⟨hblock,-,hframe⟩
      · exact Or.inl he
      · -- the entry leads to the last frame, which is empty
        have hne := h'.not_table hhigh.1 ht
        refine Or.inr fun i => ?_
        rw [hframe,h'.aliased_data hhigh hhigh.1 (by omega),(h.stacking.blank _ hmem).2.2 i]
        rfl
    refine ⟨hok,?_,fun h0 => ?_⟩
    · by_contra hno
      obtain ⟨-,-,hin⟩ := hall 0 (by omega)
      rw [(h.unlisted hno).1] at hin
      cases hin
    · obtain ⟨⟨w,hw,hframe⟩,hz,-⟩ := hall 15 (by omega)
      have hlt := L.high_lt hhigh
      rw [hwalk hok 15 _ (by omega) h.last,Option.some.injEq] at hw
      rw [← hw,frameOf_pteOf (by decide) (by omega)] at hframe
      have hstored := (h'.aliased hhigh).stored
      rw [← hframe] at hz
      rw [h0,show 512*(l.last/512) = l.last by omega,hz 0 (by omega)] at hstored
      cases hstored
  · rintro ⟨hok,hlist,hne⟩
    have hget : ∀ i < 16, (k.stackFrames grow)[i]? = some ((k.stackFrames grow).getD i 0) := by
      intro i hi
      rw [List.getD_eq_getElem?_getD,List.getElem?_eq_getElem (by omega)]
      rfl
    refine ⟨fun i => (k.stackFrames grow).getD i 0,fun i hi j hj he => ?_,fun i hi => ?_⟩
    · have hnodup : (k.stackFrames grow).Nodup :=
        (pairwise_stackFrames k grow).imp fun hgt => Nat.ne_of_gt hgt
      have hsame : (k.stackFrames grow)[i]? = (k.stackFrames grow)[j]? :=
        (hget i hi).trans ((congrArg some he).trans (hget j hj).symm)
      exact (List.getElem?_inj (by omega) hnodup).mp hsame
    · have hin : (k.stackFrames grow).getD i 0 ∈ (k.stackFrames grow).take 16 := by
        rw [List.mem_take_iff_getElem]
        obtain ⟨hlt,he⟩ := List.getElem?_eq_some_iff.mp (hget i hi)
        exact ⟨i,by omega,he⟩
      obtain ⟨hhigh',-,hz⟩ := h.stacking.blank _ hin
      have hlt := L.high_lt hhigh'
      have hle := h.last_le hin
      refine ⟨⟨_,hwalk hok i _ hi (hget i hi),frameOf_pteOf (by decide) (by omega)⟩,fun j _ => ?_,?_⟩
      · rw [h'.aliased_data hhigh hhigh'.1 (by omega)]
        exact hz j
      · rw [h.pages hlist (by omega)]
        exact hin

end

end Memory
end DonsOs
