import DonsOs.Memory.Frames
import DonsOs.Memory.Process

/-! The user frames of processes.
`process_create`, `elf_load_into_process` and `sys_brk` allocate frames for a process and record
them on its `elf_page_list`; `process_reclaim` frees what is on the list.  A history beside the
system keeps the frames that were allocated for each process, in order. -/
namespace DonsOs
namespace Memory

open Paging Run

namespace Grows

theorem clone (s : Vm) (src : ℕ) : Grows s.pmm (clonedRoot (vmmClonePageTable s src)).2.pmm := by
  simp only [vmmClonePageTable]
  split
  · exact refl _
  · rename_i new pmm ha
    generalize List.range 512 = l
    have hloop := loop (clonePml4Entry src new) l
      { s with pmm := pmm, mem := fill s.mem new fun _ => 0 }
    cases he : l.foldlM (Memory.clonePml4Entry src new)
        { s with pmm := pmm, mem := fill s.mem new fun _ => 0 } with
    | error t => exact (alloc ha).trans (hloop t (Or.inr he))
    | ok t => exact (alloc ha).trans (hloop t (Or.inl he))

theorem heapPage (start : ℕ) (s : Vm) (i : ℕ) : GrowsTo s (heapPage start s i) := by
  simp only [Memory.heapPage]
  split
  · exact .error (refl _)
  · rename_i f pmm ha
    exact .ok ((alloc ha).trans (map { s with pmm := pmm } _ _ _ _))

theorem heapExtend (k : Kmem) (bytes : ℕ) : Grows k.vm.pmm (heapExtend k bytes).2.vm.pmm := by
  simp only [Memory.heapExtend]
  split
  · exact refl _
  · split
    · exact refl _
    · have hloop := loop (heapPage k.heapBrk) (List.range ((bytes+4095)%2^64/4096)) k.vm
      split
      · rename_i vm he
        exact hloop vm (Or.inr he)
      · rename_i vm he
        exact hloop vm (Or.inl he)

end Grows

/-! Frames in use. -/

/-- A frame that one `pmm_free_page` returns to the pool. -/
structure InUse (p : Pmm) (f : ℕ) : Prop where
  bitmap : p.bitmap f = true
  refCount : p.refCount f = 1
  ne_zero : f ≠ 0
  lt : f < maxPages

structure Pmm.Ready (p : Pmm) : Prop where
  zero : p.bitmap 0 = true
  nextHigh : p.nextHigh ≤ p.zones.highEnd

theorem Grows.inUse {p p' : Pmm} {f : ℕ} (h : Grows p p') (hf : InUse p f) : InUse p' f :=
  ⟨h.bitmap f hf.bitmap,(h.refCount f hf.bitmap).trans hf.refCount,hf.ne_zero,hf.lt⟩

theorem Grows.ready {p p' : Pmm} (h : Grows p p') (hp : p.Ready) : p'.Ready := by
  have hn := h.nextHigh
  have hp' := hp.nextHigh
  refine ⟨h.bitmap 0 hp.zero,?_⟩
  rw [h.zones]
  omega

theorem Pmm.Ready.alloc {p p' : Pmm} (hp : p.Ready) {f : ℕ}
    (h : pmmAllocPage p .userData = some (f,p')) : InUse p' f ∧ p.bitmap f = false := by
  obtain ⟨htk,hcase⟩ := alloc_spec h
  have hn := hp.nextHigh
  have hlt := p.zones.high_lt
  have hle : f ≤ p.nextHigh := by
    rcases hcase with hc | hc
    · exact hc.2.2.1
    · cases hc.1
  refine ⟨⟨by simp [htk.bitmap],by simp [htk.refCount],?_,by omega⟩,htk.free⟩
  rintro rfl
  have hz := hp.zero
  rw [htk.free] at hz
  cases hz

/-! The pages of one process. -/

/-- What `process_create`, `elf_load_into_process` and `sys_brk` do with the frame `f` that they
get for a page, before they record it. -/
def stackPlace (cr3 : ℕ) (l : Loading) (i f : ℕ) (pmm : Pmm) : Loading :=
  let vm := (vmmMapPageInCr3 { l.kmem.vm with pmm := pmm } cr3 (stackBottomAnchor+i*4096) (f*4096)
    userFlags).2
  { l.setVm { vm with mem := fill vm.mem f fun _ => 0 } with last := f }

def loadPlace (cr3 : ℕ) (l : Loading) (virt f : ℕ) (pmm : Pmm) : Loading :=
  let vm := (vmmMapPageInCr3 { l.kmem.vm with pmm := pmm } cr3 virt (f*4096) elfMapFlags).2
  { l.setVm (ensureHhdmMapped vm (f*4096)) with last := f }

def brkPlace (cr3 : ℕ) (l : Loading) (virt f : ℕ) (pmm : Pmm) : Loading :=
  let vm := (vmmMapPageInCr3 { l.kmem.vm with pmm := pmm, mem := fill l.kmem.vm.mem f fun _ => 0 }
    cr3 virt (f*4096) userFlags).2
  { l.setVm vm with last := f }

/-- A frame is allocated, placed and recorded. -/
def pageStep (place : Loading → ℕ → ℕ → Pmm → Loading) (grow : ℕ → Bool) (l : Loading) (i : ℕ) :
    Except Loading Loading :=
  match pmmAllocPage l.kmem.vm.pmm .userData with
  | none => .error l
  | some (f,pmm) => .ok (elfAddPageToPcb grow (place l i f pmm) f)

theorem stackPage_eq (cr3 : ℕ) (grow : ℕ → Bool) :
    stackPage cr3 grow = pageStep (stackPlace cr3) grow := rfl
theorem loadPage_eq (cr3 : ℕ) (grow : ℕ → Bool) :
    loadPage cr3 grow = pageStep (loadPlace cr3) grow := rfl
theorem brkPage_eq (cr3 : ℕ) (grow : ℕ → Bool) :
    brkPage cr3 grow = pageStep (brkPlace cr3) grow := rfl

/-- Whether `kmalloc` has a block for the list when the next page is recorded. -/
def listGranted (grow : ℕ → Bool) (l : Loading) : Bool :=
  if l.pages.length%64 = 0 ∧ grow l.pages.length then
    (heapExtend l.kmem (kmallocBytes ((l.pages.length+64)*8))).1
  else true

/-- The frames that are allocated for the pages `is`, each with whether the list could be
had for it. -/
def pageTrace (place : Loading → ℕ → ℕ → Pmm → Loading) (grow : ℕ → Bool) (l : Loading) :
    List ℕ → List (ℕ × Bool)
  | [] => []
  | i::is =>
    match pmmAllocPage l.kmem.vm.pmm .userData with
    | none => []
    | some (f,pmm) => (f,listGranted grow (place l i f pmm))::
        pageTrace place grow (elfAddPageToPcb grow (place l i f pmm) f) is

/-- The same for the segments of an image. -/
def loadTrace (cr3 : ℕ) (img : Image) (grow : ℕ → Bool) : List Phdr → Loading → List (ℕ × Bool)
  | [], _ => []
  | ph::phs, l =>
    if ph.pType ≠ ptLoad then loadTrace cr3 img grow phs l else
    pageTrace (loadPlace cr3) grow l (pagesFrom ph.startPage ph.endPage)++
      match loadSegment cr3 img grow ph l with
      | (.done,l) => loadTrace cr3 img grow phs l
      | _ => []

/-- The pages recorded in `l` are in use, and none of them is one of `others`, which are in use
as well. -/
structure Carrying (others : ℕ → Prop) (l : Loading) : Prop where
  ready : l.kmem.vm.pmm.Ready
  elsewhere : ∀ f, others f → InUse l.kmem.vm.pmm f
  pages : ∀ f ∈ l.pages, InUse l.kmem.vm.pmm f ∧ ¬others f
  nodup : l.pages.Nodup

/-- From `l` to `l'` the frames of the trace are recorded, if there is always a list. -/
def Records (others : ℕ → Prop) (l : Loading) (trace : List (ℕ × Bool)) (l' : Loading) : Prop :=
  Carrying others l' ∧ ((∀ x ∈ trace, x.2 = true) → l'.pages = l.pages++trace.map Prod.fst)

section

variable {others : ℕ → Prop} {l l' : Loading} {place : Loading → ℕ → ℕ → Pmm → Loading}
  {grow : ℕ → Bool}

theorem Carrying.grows (h : Carrying others l) (hg : Grows l.kmem.vm.pmm l'.kmem.vm.pmm)
    (hp : l'.pages = l.pages) : Carrying others l' where
  ready := hg.ready h.ready
  elsewhere := fun f hf => hg.inUse (h.elsewhere f hf)
  pages := fun f hf => by
    rw [hp] at hf
    exact ⟨hg.inUse (h.pages f hf).1,(h.pages f hf).2⟩
  nodup := hp ▸ h.nodup

theorem Carrying.same (h : Carrying others l) (hpmm : l'.kmem.vm.pmm = l.kmem.vm.pmm)
    (hp : l'.pages = l.pages) : Carrying others l' :=
  h.grows (hpmm ▸ Grows.refl _) hp

theorem Carrying.addPage (h : Carrying others l) {f : ℕ} (hf : InUse l.kmem.vm.pmm f)
    (ho : ¬others f) (hfresh : f ∉ l.pages) :
    Carrying others (elfAddPageToPcb grow l f) ∧
      (listGranted grow l = true → (elfAddPageToPcb grow l f).pages = l.pages++[f]) := by
  have happend : ∀ k : Kmem,Grows l.kmem.vm.pmm k.vm.pmm →
      Carrying others { l with kmem := k, pages := l.pages++[f] } := by
    intro k hg
    refine ⟨hg.ready h.ready,fun g hg' => hg.inUse (h.elsewhere g hg'),fun g hg' => ?_,?_⟩
    · rcases List.mem_append.mp hg' with hg' | hg'
      · exact ⟨hg.inUse (h.pages g hg').1,(h.pages g hg').2⟩
      · rw [List.mem_singleton] at hg'
        subst hg'
        exact ⟨hg.inUse hf,ho⟩
    · rw [List.nodup_append]
      refine ⟨h.nodup,List.nodup_singleton f,fun g hg' c hc e => ?_⟩
      rw [List.mem_singleton] at hc
      exact hfresh (hc ▸ e ▸ hg')
  simp only [elfAddPageToPcb,if_neg hfresh,listGranted]
  by_cases hfull : l.pages.length%64 = 0 ∧ grow l.pages.length = true
  · rw [if_pos hfull,if_pos hfull]
    have hg := Grows.heapExtend l.kmem (kmallocBytes ((l.pages.length+64)*8))
    cases hr : (heapExtend l.kmem (kmallocBytes ((l.pages.length+64)*8))).1 with
    | true => exact ⟨happend _ hg,fun _ => rfl⟩
    | false => exact ⟨h.grows hg rfl,fun hno => by cases hno⟩
  · rw [if_neg hfull,if_neg hfull]
    exact ⟨happend l.kmem (Grows.refl _),fun _ => rfl⟩

/-- Mapping and clearing a page only take frames for tables. -/
def Placing (place : Loading → ℕ → ℕ → Pmm → Loading) : Prop :=
  ∀ l i f pmm, Grows pmm (place l i f pmm).kmem.vm.pmm ∧ (place l i f pmm).pages = l.pages

theorem placing_stack (cr3 : ℕ) : Placing (stackPlace cr3) := fun l _ _ pmm =>
  ⟨Grows.map { l.kmem.vm with pmm := pmm } _ _ _ _,rfl⟩

theorem placing_load (cr3 : ℕ) : Placing (loadPlace cr3) := fun l _ _ pmm =>
  ⟨(Grows.map { l.kmem.vm with pmm := pmm } _ _ _ _).trans (Grows.hhdm _ _),rfl⟩

theorem placing_brk (cr3 : ℕ) : Placing (brkPlace cr3) := fun l _ f pmm =>
  ⟨Grows.map { l.kmem.vm with pmm := pmm, mem := fill l.kmem.vm.mem f fun _ => 0 } _ _ _ _,rfl⟩

theorem Carrying.takePages (hplace : Placing place) {is : List ℕ} (h : Carrying others l)
    (hr : is.foldlM (pageStep place grow) l = .ok l' ∨
      is.foldlM (pageStep place grow) l = .error l') :
    Records others l (pageTrace place grow l is) l' := by
  induction is generalizing l with
  | nil =>
    rcases hr with hr | hr <;> cases hr
    exact ⟨h,fun _ => by simp [pageTrace]⟩
  | cons i is ih =>
    simp only [List.foldlM_cons,pageStep] at hr
    cases ha : pmmAllocPage l.kmem.vm.pmm .userData with
    | none =>
      simp only [ha] at hr
      rcases hr with hr | hr <;> cases hr
      exact ⟨h,fun _ => by simp [pageTrace,ha]⟩
    | some r =>
      obtain ⟨f,pmm⟩ := r
      simp only [ha] at hr
      obtain ⟨hf,hfree⟩ := h.ready.alloc ha
      obtain ⟨hg,hp⟩ := hplace l i f pmm
      have hnot : ∀ g,InUse l.kmem.vm.pmm g → g ≠ f := by
        rintro g hg' rfl
        have hb := hg'.bitmap
        rw [hfree] at hb
        cases hb
      have hplaced : Carrying others (place l i f pmm) := h.grows ((Grows.alloc ha).trans hg) hp
      have ho : ¬others f := fun ho => hnot f (h.elsewhere f ho) rfl
      have hfresh : f ∉ (place l i f pmm).pages := fun hm => hnot f (h.pages f (hp ▸ hm)).1 rfl
      obtain ⟨hadd,hlist⟩ : Carrying others (elfAddPageToPcb grow (place l i f pmm) f) ∧ _ :=
        hplaced.addPage (hg.inUse hf) ho hfresh
      obtain ⟨hc,hall⟩ := ih hadd hr
      refine ⟨hc,fun htrace => ?_⟩
      simp only [pageTrace,ha,List.mem_cons,forall_eq_or_imp,List.map_cons] at htrace ⊢
      rw [hall htrace.2,hlist htrace.1,hp,List.append_assoc]
      rfl

theorem Records.trans {t t' : List (ℕ × Bool)} {l'' : Loading} (h : Records others l t l')
    (h' : Records others l' t' l'') : Records others l (t++t') l'' := by
  refine ⟨h'.1,fun hall => ?_⟩
  rw [h'.2 fun x hx => hall x (List.mem_append_right _ hx),
    h.2 fun x hx => hall x (List.mem_append_left _ hx),List.map_append,List.append_assoc]

theorem Records.loadBytes {t : List (ℕ × Bool)} (h : Records others l t l') (cr3 base count : ℕ)
    (src : ℕ → BitVec 8) : Records others l t (loadBytes cr3 base count src l').2 :=
  ⟨h.1.same rfl rfl,h.2⟩

variable {cr3 : ℕ} {img : Image}

theorem Carrying.loadSegment (h : Carrying others l) (ph : Phdr) :
    Records others l (pageTrace (loadPlace cr3) grow l (pagesFrom ph.startPage ph.endPage))
      (loadSegment cr3 img grow ph l).2 := by
  simp only [Memory.loadSegment,loadPage_eq]
  split
  · rename_i l₁ he
    exact h.takePages (placing_load cr3) (Or.inr he)
  · rename_i l₁ he
    have hpages := h.takePages (placing_load cr3) (Or.inl he)
    have hbytes := hpages.loadBytes cr3 ph.pVaddr ph.pFilesz fun i => img ((ph.pOffset+i)%2^64)
    split
    · rename_i l₂ hr
      rw [hr] at hbytes
      exact hbytes.loadBytes cr3 _ _ _
    · exact hbytes

theorem Carrying.loadSegments (h : Carrying others l) (phs : List Phdr) :
    Records others l (loadTrace cr3 img grow phs l) (loadSegments cr3 img grow phs l).2 := by
  induction phs generalizing l with
  | nil => exact ⟨h,fun _ => by simp [loadTrace,Memory.loadSegments]⟩
  | cons ph phs ih =>
    simp only [loadTrace,Memory.loadSegments]
    split
    · exact ih h
    · have hseg : Records others l
          (pageTrace (loadPlace cr3) grow l (pagesFrom ph.startPage ph.endPage))
          (Memory.loadSegment cr3 img grow ph l).2 := h.loadSegment ph
      generalize Memory.loadSegment cr3 img grow ph l = r at hseg
      obtain ⟨e,l₁⟩ := r
      cases e with
      | done => exact hseg.trans (ih hseg.1)
      | failed => simpa using hseg
      | fault => simpa using hseg

end

/-! The system with the history of its allocations. -/

/-- The process that an event allocates pages for, and the trace of them. -/
def Sys.allocated (s : Sys) : Event → Option (ℕ × List (ℕ × Bool))
  | .create entry _ grow =>
    if maxProcesses ≤ s.procs.length then none else
    let root := clonedRoot (vmmClonePageTable s.kmem.vm s.kmem.vm.cr3)
    some (s.nextPid,if isUser entry then
      pageTrace (stackPlace root.1) grow ⟨{ s.kmem with vm := root.2 },[],0⟩ (List.range userStackPages)
      else [])
  | .load pid img grow => (s.user pid).map fun p =>
      (pid,if elfValidate img then
        loadTrace p.cr3 img grow (phdrs img) ⟨s.kmem,p.elfPages,0⟩ else [])
  | .brk inc grow => (s.current.bind s.user).map fun p =>
      (p.pid,if inc = 0 ∨ inc < 0 ∧ p.newBrk inc < heapBase then [] else
        pageTrace (brkPlace p.cr3) grow ⟨s.kmem,p.elfPages,0⟩ (p.brkPages inc))
  | _ => none

/-- `given pid` are the frames that have been allocated on behalf of `pid`. -/
structure Tracked where
  sys : Sys
  given : ℕ → List ℕ

namespace Tracked

def step (h : Tracked) (e : Event) : Option Tracked :=
  (h.sys.step e).map fun s =>
    match h.sys.allocated e with
    | none => ⟨s,h.given⟩
    | some (pid,trace) => ⟨s,Function.update h.given pid (h.given pid++trace.map Prod.fst)⟩

/-- `kmalloc` for the page list does not fail. -/
def Roomy (h : Tracked) (e : Event) : Prop :=
  ∀ pid trace, h.sys.allocated e = some (pid,trace) → ∀ x ∈ trace, x.2 = true

/-- The machine after `process_init`; `kernel_idle_loop` is in the kernel. -/
def start (vm : Vm) (idleOffset kernelStackVirt : ℕ) : Tracked :=
  ⟨processInit (heapReady vm) (kernelBase+idleOffset) kernelStackVirt,fun _ => []⟩

structure Conserved (h : Tracked) : Prop where
  ready : h.sys.kmem.vm.pmm.Ready
  inUse : ∀ p ∈ h.sys.procs, ∀ f ∈ p.elfPages, InUse h.sys.kmem.vm.pmm f
  nodup : ∀ p ∈ h.sys.procs, p.elfPages.Nodup
  apart : ∀ p ∈ h.sys.procs, ∀ q ∈ h.sys.procs, q.pid ≠ p.pid → ∀ f ∈ p.elfPages, f ∉ q.elfPages
  given : ∀ p ∈ h.sys.procs, h.given p.pid = p.elfPages
  fresh : ∀ p ∈ h.sys.procs, p.pid < h.sys.nextPid
  ahead : ∀ pid, h.sys.nextPid ≤ pid → h.given pid = []

variable {h : Tracked} {s : Sys} {p : Proc} {pid : ℕ}

/-- The frames of the other processes. -/
def elsewhere (s : Sys) (pid f : ℕ) : Prop := ∃ q ∈ s.procs, q.pid ≠ pid ∧ f ∈ q.elfPages

theorem Conserved.same (hc : Conserved h) (hg : Grows h.sys.kmem.vm.pmm s.kmem.vm.pmm)
    (hnext : s.nextPid = h.sys.nextPid)
    (hprocs : ∀ q' ∈ s.procs, ∃ q ∈ h.sys.procs, q.pid = q'.pid ∧ q.elfPages = q'.elfPages) :
    Conserved ⟨s,h.given⟩ := by
  refine ⟨hg.ready hc.ready,fun q' hq' => ?_,fun q' hq' => ?_,fun p' hp' q' hq' hne => ?_,
    fun q' hq' => ?_,fun q' hq' => ?_,fun pid hle => hc.ahead pid (hnext ▸ hle)⟩
  · obtain ⟨q,hq,-,he⟩ := hprocs q' hq'
    rw [← he]
    exact fun f hf => hg.inUse (hc.inUse q hq f hf)
  · obtain ⟨q,hq,-,he⟩ := hprocs q' hq'
    exact he ▸ hc.nodup q hq
  · obtain ⟨p,hp,hpid,hpe⟩ := hprocs p' hp'
    obtain ⟨q,hq,hqid,hqe⟩ := hprocs q' hq'
    rw [← hpe,← hqe]
    exact hc.apart p hp q hq (by rwa [hpid,hqid])
  · obtain ⟨q,hq,hid,he⟩ := hprocs q' hq'
    rw [← hid,← he]
    exact hc.given q hq
  · obtain ⟨q,hq,hid,-⟩ := hprocs q' hq'
    rw [← hid,hnext]
    exact hc.fresh q hq

theorem Conserved.record (hc : Conserved h) {l : Loading} (hl : Carrying (elsewhere h.sys pid) l)
    {new : List ℕ} (hgiven : h.given pid++new = l.pages)
    (hpmm : Grows l.kmem.vm.pmm s.kmem.vm.pmm) (hnext : h.sys.nextPid ≤ s.nextPid)
    (hpid : pid < s.nextPid)
    (hprocs : ∀ q' ∈ s.procs, q'.pid = pid ∧ q'.elfPages = l.pages ∨
      q'.pid ≠ pid ∧ ∃ q ∈ h.sys.procs, q.pid = q'.pid ∧ q.elfPages = q'.elfPages) :
    Conserved ⟨s,Function.update h.given pid (h.given pid++new)⟩ := by
  have hother : ∀ q' ∈ s.procs,q'.pid ≠ pid → ∀ f ∈ q'.elfPages,elsewhere h.sys pid f := by
    intro q' hq' hne f hf
    rcases hprocs q' hq' with ⟨he,-⟩ | ⟨-,q,hq,hid,he⟩
    · exact absurd he hne
    · exact ⟨q,hq,hid ▸ hne,he ▸ hf⟩
  refine ⟨hpmm.ready hl.ready,fun q' hq' f hf => hpmm.inUse ?_,fun q' hq' => ?_,
    fun p' hp' q' hq' hne f hf hf' => ?_,fun q' hq' => ?_,fun q' hq' => ?_,fun pid' hle => ?_⟩
  · rcases hprocs q' hq' with ⟨-,he⟩ | ⟨hne,-⟩
    · exact (hl.pages f (he ▸ hf)).1
    · exact hl.elsewhere f (hother q' hq' hne f hf)
  · rcases hprocs q' hq' with ⟨-,he⟩ | ⟨-,q,hq,-,he⟩
    · exact he ▸ hl.nodup
    · exact he ▸ hc.nodup q hq
  · rcases hprocs p' hp' with ⟨hp,hpe⟩ | ⟨hp,p,hp₀,hpid₀,hpe⟩
    · exact (hl.pages f (hpe ▸ hf)).2 (hother q' hq' (fun e => hne (e.trans hp.symm)) f hf')
    · rcases hprocs q' hq' with ⟨hq,hqe⟩ | ⟨-,q,hq₀,hqid,hqe⟩
      · exact (hl.pages f (hqe ▸ hf')).2 (hother p' hp' hp f hf)
      · exact hc.apart p hp₀ q hq₀ (by rwa [hpid₀,hqid]) f (hpe ▸ hf) (hqe ▸ hf')
  · rcases hprocs q' hq' with ⟨he,hpages⟩ | ⟨hne,q,hq,hid,he⟩
    · simp only [he,Function.update_self]
      rw [hgiven,hpages]
    · simp only [Function.update_of_ne hne]
      rw [← hid,← he]
      exact hc.given q hq
  · rcases hprocs q' hq' with ⟨he,-⟩ | ⟨-,q,hq,hid,-⟩
    · exact he ▸ hpid
    · have hlt := hc.fresh q hq
      rw [hid] at hlt
      exact Nat.lt_of_lt_of_le hlt hnext
  · have hle' : s.nextPid ≤ pid' := hle
    have hne : pid' ≠ pid := by omega
    simp only [Function.update_of_ne hne]
    exact hc.ahead pid' (by omega)

theorem user_mem {s : Sys} (h : s.user pid = some p) : p ∈ s.procs ∧ p.pid = pid := by
  simp only [Sys.user,Option.filter_eq_some_iff] at h
  have hid := List.find?_some h.1
  exact ⟨List.mem_of_find?_eq_some h.1,by simpa using hid⟩

theorem Conserved.carrying (hc : Conserved h) (hp : p ∈ h.sys.procs) :
    Carrying (elsewhere h.sys p.pid) ⟨h.sys.kmem,p.elfPages,0⟩ where
  ready := hc.ready
  elsewhere := fun f ⟨q,hq,_,hf⟩ => hc.inUse q hq f hf
  pages := fun f hf => ⟨hc.inUse p hp f hf,fun ⟨q,hq,hne,hf'⟩ => hc.apart p hp q hq hne f hf hf'⟩
  nodup := hc.nodup p hp

variable {q' : Proc} {h' : Tracked}

theorem mem_update {s : Sys} {g : Proc → Proc} (hq : q' ∈ (s.update pid g).procs) :
    ∃ q ∈ s.procs, q' = if q.pid = pid then g q else q := by
  simp only [Sys.update,List.mem_map] at hq
  obtain ⟨q,hq,rfl⟩ := hq
  exact ⟨q,hq,rfl⟩

theorem Conserved.loaded (hc : Conserved h) (hp : p ∈ h.sys.procs) {l : Loading}
    {trace : List (ℕ × Bool)} (hroom : ∀ x ∈ trace, x.2 = true)
    (hl : Records (elsewhere h.sys p.pid) ⟨h.sys.kmem,p.elfPages,0⟩ trace l) {s : Sys}
    (hk : s.kmem = l.kmem) (hnext : s.nextPid = h.sys.nextPid)
    (hprocs : ∀ q' ∈ s.procs, ∃ q ∈ h.sys.procs, q.pid = q'.pid ∧
      q'.elfPages = if q.pid = p.pid then l.pages else q.elfPages) :
    Conserved ⟨s,Function.update h.given p.pid (h.given p.pid++trace.map Prod.fst)⟩ := by
  refine hc.record hl.1 ?_ (hk ▸ Grows.refl _) hnext.ge (hnext ▸ hc.fresh p hp) fun q' hq' => ?_
  · rw [hc.given p hp,hl.2 hroom]
  · obtain ⟨q,hq,hid,he⟩ := hprocs q' hq'
    by_cases hqp : q.pid = p.pid
    · rw [if_pos hqp] at he
      exact Or.inl ⟨hid.symm.trans hqp,he⟩
    · rw [if_neg hqp] at he
      exact Or.inr ⟨hid ▸ hqp,q,hq,hid,he.symm⟩

theorem mem_loaded {s : Sys} {l : Loading} (hq : q' ∈ (s.loaded pid l).procs) :
    ∃ q ∈ s.procs, q.pid = q'.pid ∧ q'.elfPages = if q.pid = pid then l.pages else q.elfPages := by
  obtain ⟨q,hmem,rfl⟩ := mem_update hq
  refine ⟨q,hmem,?_,?_⟩ <;> split <;> rfl

/-- The pages that `process_create` starts from: none, in the cloned tables. -/
def created (s : Sys) : Loading :=
  ⟨{ s.kmem with vm := (clonedRoot (vmmClonePageTable s.kmem.vm s.kmem.vm.cr3)).2 },[],0⟩

def createdRoot (s : Sys) : ℕ := (clonedRoot (vmmClonePageTable s.kmem.vm s.kmem.vm.cr3)).1

/-- The user stack of `process_create`, and the trace of its pages. -/
def userStack (s : Sys) (entry : ℕ) (grow : ℕ → Bool) : Except Loading Loading :=
  if isUser entry then (List.range userStackPages).foldlM (stackPage (createdRoot s) grow) (created s)
  else .ok (created s)

def stackTrace (s : Sys) (entry : ℕ) (grow : ℕ → Bool) : List (ℕ × Bool) :=
  if isUser entry then
    pageTrace (stackPlace (createdRoot s)) grow (created s) (List.range userStackPages)
  else []

theorem stack_records {others : ℕ → Prop} (hstart : Carrying others (created s)) {entry : ℕ}
    {grow : ℕ → Bool} {l : Loading}
    (hr : userStack s entry grow = .ok l ∨ userStack s entry grow = .error l) :
    Records others (created s) (stackTrace s entry grow) l := by
  by_cases hu : isUser entry = true
  · simp only [userStack,stackTrace,if_pos hu,stackPage_eq] at hr ⊢
    exact hstart.takePages (placing_stack _) hr
  · simp only [userStack,stackTrace,if_neg hu] at hr ⊢
    rcases hr with hr | hr <;> cases hr
    exact ⟨hstart,fun _ => by simp⟩

/-- Whether `process_create` fails or not, the new process is in the table with its pages. -/
theorem create_cases {others : ℕ → Prop} (s : Sys) (entry kstack : ℕ) (grow : ℕ → Bool)
    (hle : ¬maxProcesses ≤ s.procs.length) (hstart : Carrying others (created s)) :
    ∃ l k, Records others (created s) (stackTrace s entry grow) l ∧
      Grows l.kmem.vm.pmm k.vm.pmm ∧ (processCreate s entry kstack grow).2 =
        { s with
          kmem := k
          procs := s.procs++[⟨s.nextPid,createdRoot s,l.pages,0,isUser entry⟩]
          nextPid := s.nextPid+1 } := by
  simp only [processCreate,if_neg hle]
  cases he : userStack s entry grow with
  | error l =>
    refine ⟨l,l.kmem,stack_records hstart (Or.inr he),Grows.refl _,?_⟩
    simp only [userStack,createdRoot,created] at he
    simp only [he]
    rfl
  | ok l =>
    have hkernel := Grows.hhdm l.kmem.vm (vmmGetPhys l.kmem.vm kstack)
    refine ⟨l,(l.setVm (if l.last ≠ 0 then
      ensureHhdmMapped (ensureHhdmMapped l.kmem.vm (vmmGetPhys l.kmem.vm kstack)) (l.last*4096)
      else ensureHhdmMapped l.kmem.vm (vmmGetPhys l.kmem.vm kstack))).kmem,
      stack_records hstart (Or.inl he),?_,?_⟩
    · simp only [Loading.setVm]
      split
      · exact hkernel.trans (Grows.hhdm _ _)
      · exact hkernel
    · simp only [userStack,createdRoot,created] at he
      simp only [he]
      rfl

theorem Conserved.create (hc : Conserved h) {entry kstack : ℕ} {grow : ℕ → Bool}
    (hroom : h.Roomy (.create entry kstack grow))
    (hs : h.step (.create entry kstack grow) = some h') : Conserved h' := by
  simp only [step,Sys.step,Option.map_some,Option.some.injEq] at hs
  subst hs
  by_cases hle : maxProcesses ≤ h.sys.procs.length
  · simp only [Sys.allocated,if_pos hle,processCreate]
    exact hc
  · have hg : Grows h.sys.kmem.vm.pmm (created h.sys).kmem.vm.pmm := Grows.clone _ _
    have hstart : Carrying (elsewhere h.sys h.sys.nextPid) (created h.sys) :=
      ⟨hg.ready hc.ready,fun f ⟨q,hq,_,hf⟩ => hg.inUse (hc.inUse q hq f hf),
        fun f hf => by simp [created] at hf,List.nodup_nil⟩
    have ht : h.sys.allocated (.create entry kstack grow) =
        some (h.sys.nextPid,stackTrace h.sys entry grow) := if_neg hle
    obtain ⟨l,k,hl,hk,he⟩ := create_cases h.sys entry kstack grow hle hstart
    simp only [ht,he]
    refine hc.record hl.1 ?_ hk (Nat.le_succ _) (Nat.lt_succ_self _) fun q' hq' => ?_
    · rw [hc.ahead _ le_rfl,hl.2 (hroom _ _ ht)]
      rfl
    · rcases List.mem_append.mp hq' with hq' | hq'
      · exact Or.inr ⟨(hc.fresh q' hq').ne,q',hq',rfl,rfl⟩
      · rw [List.mem_singleton] at hq'
        subst hq'
        exact Or.inl ⟨rfl,rfl⟩

theorem Conserved.load (hc : Conserved h) {img : Image} {grow : ℕ → Bool}
    (hroom : h.Roomy (.load pid img grow))
    (hs : h.step (.load pid img grow) = some h') : Conserved h' := by
  obtain ⟨s',hs',rfl⟩ := Option.map_eq_some_iff.mp hs
  obtain ⟨p,hp,rfl⟩ := Option.map_eq_some_iff.mp hs'
  obtain ⟨hmem,rfl⟩ := user_mem hp
  have ht : h.sys.allocated (.load p.pid img grow) = some (p.pid,if elfValidate img then
      loadTrace p.cr3 img grow (phdrs img) ⟨h.sys.kmem,p.elfPages,0⟩ else []) := by
    simp only [Sys.allocated,hp,Option.map_some]
  simp only [ht]
  refine hc.loaded hmem (hroom _ _ ht) ?_ rfl rfl fun q' hq' => mem_loaded hq'
  simp only [elfLoadIntoProcess]
  split
  · exact (hc.carrying hmem).loadSegments _
  · exact ⟨hc.carrying hmem,fun _ => by simp⟩

/-- `sys_brk` writes the field `brk_virt` in any case. -/
theorem mem_setBrk {s : Sys} {v : ℕ}
    (hq : q' ∈ (s.update pid fun q => { q with brkVirt := v }).procs) :
    ∃ q ∈ s.procs, q.pid = q'.pid ∧ q.elfPages = q'.elfPages := by
  obtain ⟨q,hmem,rfl⟩ := mem_update hq
  refine ⟨q,hmem,?_,?_⟩ <;> split <;> rfl

theorem Conserved.brk (hc : Conserved h) {inc : ℤ} {grow : ℕ → Bool}
    (hroom : h.Roomy (.brk inc grow)) (hs : h.step (.brk inc grow) = some h') :
    Conserved h' := by
  obtain ⟨s',hs',rfl⟩ := Option.map_eq_some_iff.mp hs
  obtain ⟨p,hp,rfl⟩ := Option.map_eq_some_iff.mp hs'
  obtain ⟨pid,-,huser⟩ := Option.bind_eq_some_iff.mp hp
  obtain ⟨hmem,-⟩ := user_mem huser
  have ht : h.sys.allocated (.brk inc grow) = some (p.pid,
      if inc = 0 ∨ inc < 0 ∧ p.newBrk inc < heapBase then [] else
        pageTrace (brkPlace p.cr3) grow ⟨h.sys.kmem,p.elfPages,0⟩ (p.brkPages inc)) := by
    simp only [Sys.allocated,hp,Option.map_some]
  have htrace := hroom _ _ ht
  simp only [ht]
  by_cases hquiet : inc = 0 ∨ inc < 0 ∧ p.newBrk inc < heapBase
  · have he : (sysBrk h.sys p inc grow).2 =
        h.sys.update p.pid fun q => { q with brkVirt := p.oldBrk } := by
      simp only [sysBrk]
      rcases hquiet with hz | hlow
      · rw [if_pos hz]
      · split
        · rfl
        · rfl
    simp only [if_pos hquiet,List.map_nil,List.append_nil,Function.update_eq_self]
    rw [he]
    exact hc.same (Grows.refl _) rfl fun q' hq' => mem_setBrk hq'
  · obtain ⟨hz,hlow⟩ := not_or.mp hquiet
    rw [if_neg hquiet] at htrace
    simp only [sysBrk,if_neg hquiet,if_neg hz,if_neg hlow]
    split
    · rename_i l he
      rw [brkPage_eq] at he
      refine hc.loaded hmem htrace ((hc.carrying hmem).takePages (placing_brk _) (Or.inr he)) rfl rfl
        fun q' hq' => ?_
      obtain ⟨q,hq,hid,hpages⟩ := mem_loaded hq'
      obtain ⟨r,hr,hrid,hrpages⟩ := mem_setBrk hq
      exact ⟨r,hr,hrid.trans hid,by rw [hpages,hrid,hrpages]⟩
    · rename_i l he
      rw [brkPage_eq] at he
      refine hc.loaded hmem htrace ((hc.carrying hmem).takePages (placing_brk _) (Or.inl he)) rfl rfl
        fun q' hq' => ?_
      obtain ⟨t,ht,htid,htpages⟩ := mem_setBrk hq'
      obtain ⟨q,hq,hid,hpages⟩ := mem_loaded ht
      obtain ⟨r,hr,hrid,hrpages⟩ := mem_setBrk hq
      exact ⟨r,hr,(hrid.trans hid).trans htid,by rw [← htpages,hpages,hrid,hrpages]⟩

/-! Reclaiming. -/

/-- A list of distinct frames in use is freed frame by frame: exactly these leave the bitmap. -/
theorem freeAll_spec {p : Pmm} {xs : List ℕ} (hp : p.Ready) (hx : ∀ f ∈ xs, InUse p f)
    (hnodup : xs.Nodup) : (xs.foldl pmmFreePage p).Ready ∧
      (∀ f, (xs.foldl pmmFreePage p).bitmap f = true ↔ p.bitmap f = true ∧ f ∉ xs) ∧
      (∀ f, InUse p f → f ∉ xs → InUse (xs.foldl pmmFreePage p) f) := by
  induction xs generalizing p with
  | nil => exact ⟨hp,fun f => by simp,fun f hf _ => hf⟩
  | cons x xs ih =>
    obtain ⟨hnot,hnodup⟩ := List.nodup_cons.mp hnodup
    have hux := hx x (by simp)
    obtain ⟨hz,hbit,href,-,hh⟩ := free_spec hux.ne_zero hux.lt hux.bitmap hux.refCount
    have hkeep : ∀ f,InUse p f → f ≠ x → InUse (pmmFreePage p x) f := fun f hf hne =>
      ⟨by rw [hbit,Function.update_of_ne hne,hf.bitmap],by rw [href f hne,hf.refCount],
        hf.ne_zero,hf.lt⟩
    have hready : (pmmFreePage p x).Ready := by
      have hn := hp.nextHigh
      refine ⟨by rw [hbit,Function.update_of_ne (Ne.symm hux.ne_zero),hp.zero],?_⟩
      rw [hz]
      omega
    obtain ⟨hr,hb,hk⟩ := ih hready
      (fun f hf => hkeep f (hx f (List.mem_cons_of_mem _ hf)) fun e => hnot (e ▸ hf)) hnodup
    refine ⟨hr,fun f => ?_,fun f hf hfx => ?_⟩
    · rw [List.foldl_cons,hb,hbit,Function.update_apply]
      by_cases hfx : f = x
      · simp [hfx]
      · simp [hfx]
    · rw [List.mem_cons,not_or] at hfx
      exact hk f (hkeep f hf hfx.1) hfx.2

theorem Conserved.reclaim (hc : Conserved h) (hp : p ∈ h.sys.procs) :
    Conserved ⟨processReclaim h.sys p,h.given⟩ := by
  obtain ⟨hr,-,hk⟩ := freeAll_spec hc.ready (hc.inUse p hp) (hc.nodup p hp)
  have hsub : ∀ q,q ∈ (processReclaim h.sys p).procs → q ∈ h.sys.procs ∧ q.pid ≠ p.pid := by
    intro q hq
    simp only [processReclaim,List.mem_filter,decide_eq_true_eq] at hq
    exact hq
  exact ⟨hr,
    fun q hq f hf => hk f (hc.inUse q (hsub q hq).1 f hf) fun hfp =>
      hc.apart p hp q (hsub q hq).1 (hsub q hq).2 f hfp hf,
    fun q hq => hc.nodup q (hsub q hq).1,
    fun q hq r hr' => hc.apart q (hsub q hq).1 r (hsub r hr').1,
    fun q hq => hc.given q (hsub q hq).1,fun q hq => hc.fresh q (hsub q hq).1,hc.ahead⟩

theorem Conserved.dispatch (hc : Conserved h) (p : Proc) : Conserved ⟨h.sys.dispatch p,h.given⟩ := by
  simp only [Sys.dispatch]
  split
  · exact hc
  · cases h.sys.current with
    | none => exact hc.same (Grows.refl _) rfl fun q hq => ⟨q,hq,rfl,rfl⟩
    | some pid =>
      refine hc.same (Grows.refl _) rfl fun q' hq' => ?_
      obtain ⟨q,hq,rfl⟩ := mem_update (s:=h.sys) hq'
      refine ⟨q,hq,?_,?_⟩ <;> split <;> rfl

theorem Conserved.step (hc : Conserved h) {e : Event} (hroom : h.Roomy e)
    (hs : h.step e = some h') : Conserved h' := by
  cases e with
  | create entry kstack grow => exact hc.create hroom hs
  | load pid img grow => exact hc.load hroom hs
  | brk inc grow => exact hc.brk hroom hs
  | extend bytes =>
    cases hs
    exact hc.same (Grows.heapExtend _ _) rfl fun q hq => ⟨q,hq,rfl,rfl⟩
  | reclaim pid =>
    obtain ⟨s',hs',rfl⟩ := Option.map_eq_some_iff.mp hs
    obtain ⟨p,hp,rfl⟩ := Option.map_eq_some_iff.mp hs'
    exact hc.reclaim (List.mem_of_find?_eq_some hp)
  | dispatch pid =>
    obtain ⟨s',hs',rfl⟩ := Option.map_eq_some_iff.mp hs
    obtain ⟨p,-,rfl⟩ := Option.map_eq_some_iff.mp hs'
    exact hc.dispatch p
  | write f i w =>
    obtain ⟨s',hs',rfl⟩ := Option.map_eq_some_iff.mp hs
    simp only [Sys.step] at hs'
    split at hs'
    · cases hs'
      exact hc.same (Grows.refl _) rfl fun q hq => ⟨q,hq,rfl,rfl⟩
    · cases hs'

/-! From boot on. -/

theorem grows_vmmInit (vm : Vm) : Grows vm.pmm (vmmInit vm).pmm := by
  simp only [vmmInit]
  generalize List.range 512 = l
  induction l generalizing vm with
  | nil => exact Grows.refl _
  | cons i l ih => exact (Grows.map vm _ _ _ _).trans (ih _)

theorem ready_init (info : Option BootInfo) (kernelEnd : ℕ) : (pmmInit info kernelEnd).Ready :=
  ⟨init_bitmap_zero info kernelEnd,(owned_init info kernelEnd).nextHigh⟩

theorem grows_heapInit (vm : Vm) (first size : ℕ) : Grows vm.pmm (heapInit vm first size).vm.pmm := by
  simp only [heapInit]
  exact Grows.heapExtend ⟨vm,first,0⟩ _

theorem Conserved.init (hc : Conserved ⟨s,fun _ => []⟩) (hempty : s.procs = [])
    (idleOffset kernelStackVirt : ℕ) :
    Conserved ⟨processInit s (kernelBase+idleOffset) kernelStackVirt,fun _ => []⟩ := by
  have hkernel : isUser (kernelBase+idleOffset) = false := by simp [isUser]
  have ht : s.allocated (.create (kernelBase+idleOffset) kernelStackVirt fun _ => false) =
      some (s.nextPid,[]) := by
    simp [Sys.allocated,hkernel,hempty,maxProcesses]
  have hroom : Roomy ⟨s,fun _ => []⟩
      (.create (kernelBase+idleOffset) kernelStackVirt fun _ => false) := by
    intro pid trace he
    rw [ht] at he
    cases he
    simp
  have hidle := hc.create hroom rfl
  simp only [ht,List.map_nil,List.append_nil,Function.update_eq_self] at hidle
  simp only [processInit]
  split
  · rename_i hmade
    rwa [hmade] at hidle
  · rename_i pid s' hmade
    rw [hmade] at hidle
    exact hidle.same (Grows.refl _) rfl fun q hq => ⟨q,hq,rfl,rfl⟩

theorem start_conserved (vm : Vm) (hvm : vm.pmm.Ready) (idleOffset kernelStackVirt : ℕ) :
    Conserved (start vm idleOffset kernelStackVirt) := by
  have hgrows : Grows vm.pmm (heapReady vm).kmem.vm.pmm := by
    simp only [heapReady]
    exact (grows_vmmInit vm).trans (grows_heapInit _ _ _)
  have hprocs : (heapReady vm).procs = [] := rfl
  have hempty : Conserved ⟨heapReady vm,fun _ => []⟩ := by
    generalize heapReady vm = s at hgrows hprocs
    refine ⟨hgrows.ready hvm,?_,?_,?_,?_,?_,fun _ _ => rfl⟩ <;> simp [hprocs]
  exact hempty.init hprocs idleOffset kernelStackVirt

end Tracked

/-- A heap that needs no extension always has room for a list. -/
theorem pageTrace_granted {place : Loading → ℕ → ℕ → Pmm → Loading} {l : Loading} {is : List ℕ} :
    ∀ x ∈ pageTrace place (fun _ => false) l is, x.2 = true := by
  induction is generalizing l with
  | nil => simp [pageTrace]
  | cons i is ih =>
    simp only [pageTrace]
    split
    · simp
    · intro x hx
      rcases List.mem_cons.mp hx with rfl | hx
      · simp [listGranted]
      · exact ih x hx

end Memory
end DonsOs
