import DonsOs.Memory.Conserve

/-! Shrinking the break too far.
`sys_brk` compares the new break with the start of the heap after an addition in 64 bits.  An
increment that would take the break below 0 wraps around: the new break is then above all others,
and the call goes on as one that grows the heap. -/
namespace DonsOs
namespace Memory

open Paging

/-- The call returns -1; the break, memory with all page tables, and the frames in use are as they
were. -/
def Sys.RefusesBrk (s : Sys) (p : Proc) (inc : ℤ) (grow : ℕ → Bool) : Prop :=
  (sysBrk s p inc grow).1 = -1 ∧
    ((sysBrk s p inc grow).2.find p.pid).map Proc.brkVirt = some p.brkVirt ∧
    (sysBrk s p inc grow).2.kmem.vm.mem = s.kmem.vm.mem ∧
    (sysBrk s p inc grow).2.kmem.vm.pmm.bitmap = s.kmem.vm.pmm.bitmap

/-- The break has been set, and the sum does not wrap; or it wraps, but there is no frame for the
first of the pages. -/
def Sys.HeedsFloor (s : Sys) (p : Proc) (inc : ℤ) : Prop :=
  p.brkVirt ≠ 0 ∧ (0 ≤ p.oldBrk+inc ∨
    p.newBrk inc ≤ 2^64-4096 ∧ pmmAllocPageForElf s.kmem.vm.pmm = none)

variable {s : Sys} {p : Proc} {inc : ℤ} {grow : ℕ → Bool}

theorem find_update {f : Proc → Proc} {pid : ℕ} (hf : ∀ q, (f q).pid = q.pid) :
    (s.update pid f).find pid = (s.find pid).map f := by
  have hmap (ps : List Proc) : (ps.map fun q => if q.pid = pid then f q else q).find?
      (fun q => q.pid = pid) = (ps.find? fun q => q.pid = pid).map f := by
    induction ps with
    | nil => rfl
    | cons q ps ih =>
      by_cases hq : q.pid = pid
      · simp [hq,hf]
      · simpa [hq] using ih
  exact hmap s.procs

/-! The increments in question. -/

theorem newBrk_of_nonneg (hbrk : p.oldBrk < 2^64) (hneg : inc < 0) (h : 0 ≤ p.oldBrk+inc) :
    (p.newBrk inc : ℤ) = p.oldBrk+inc := by
  simp only [Proc.newBrk]
  omega

theorem newBrk_of_wrap (hmin : -2^63 ≤ inc) (h : p.oldBrk+inc < 0) :
    (p.newBrk inc : ℤ) = 2^64+p.oldBrk+inc := by
  simp only [Proc.newBrk]
  omega

/-! The loop. -/

theorem Grows.addPage (l : Loading) (f : ℕ) :
    Grows l.kmem.vm.pmm (elfAddPageToPcb grow l f).kmem.vm.pmm := by
  simp only [elfAddPageToPcb]
  split
  · exact refl _
  · split
    · split <;> exact heapExtend _ _
    · exact refl _

/-- From the frame on, a page of `sys_brk` only takes more frames. -/
theorem Grows.brkPlaced (cr3 : ℕ) (l : Loading) (v f : ℕ) (pmm : Pmm) :
    Grows pmm (elfAddPageToPcb grow (brkPlace cr3 l v f pmm) f).kmem.vm.pmm :=
  (map { l.kmem.vm with pmm := pmm, mem := fill l.kmem.vm.mem f fun _ => 0 } cr3 v (f*4096)
    userFlags).trans (addPage (brkPlace cr3 l v f pmm) f)

/-- What holds of the allocator and stays true when it only takes frames holds after the loop. -/
theorem brkPages_ends {P : Pmm → Prop} (hP : ∀ {p p' : Pmm}, Grows p p' → P p → P p') (cr3 : ℕ)
    (vs : List ℕ) {l : Loading} (h : P l.kmem.vm.pmm) :
    Run.Ends (fun t : Loading => P t.kmem.vm.pmm) (fun t : Loading => P t.kmem.vm.pmm)
      (vs.foldlM (brkPage cr3 grow) l) := by
  refine Run.foldlM_ends (P:=fun _ (t : Loading) => P t.kmem.vm.pmm) h fun _ v t _ ht => ?_
  rw [brkPage_eq]
  simp only [pageStep]
  split
  · exact ht
  · rename_i f pmm ha
    exact hP (Grows.brkPlaced cr3 t v f pmm) (hP (Grows.alloc ha) ht)

/-- A first page that gets a frame leaves it taken, however the loop ends. -/
theorem brkPages_taken (cr3 : ℕ) (grow : ℕ → Bool) (v : ℕ) (vs : List ℕ) {l : Loading} {f : ℕ}
    {pmm : Pmm} (ha : pmmAllocPageForElf l.kmem.vm.pmm = some (f,pmm)) :
    Run.Ends (fun t : Loading => t.kmem.vm.pmm.bitmap f = true)
      (fun t : Loading => t.kmem.vm.pmm.bitmap f = true) ((v::vs).foldlM (brkPage cr3 grow) l) := by
  have htaken : pmm.bitmap f = true := by
    rw [(alloc_spec ha).1.bitmap,Function.update_self]
  have hstep : brkPage cr3 grow l v = .ok (elfAddPageToPcb grow (brkPlace cr3 l v f pmm) f) := by
    rw [brkPage_eq]
    simp only [pageStep]
    rw [show pmmAllocPage l.kmem.vm.pmm .userData = some (f,pmm) from ha]
  rw [List.foldlM_cons,hstep]
  exact brkPages_ends (P:=fun p => p.bitmap f = true) (fun hg => hg.bitmap f) cr3 vs
    ((Grows.brkPlaced cr3 l v f pmm).bitmap f htaken)

/-! The call. -/

theorem sysBrk_floor (s : Sys) (grow : ℕ → Bool) (hneg : inc < 0) (hlow : p.newBrk inc < heapBase) :
    sysBrk s p inc grow = (-1,s.update p.pid fun q => { q with brkVirt := p.oldBrk }) := by
  simp only [sysBrk]
  rw [if_neg (by omega),if_pos ⟨hneg,hlow⟩]

theorem sysBrk_loop (s : Sys) (grow : ℕ → Bool) (hinc : inc ≠ 0) (hpass : heapBase ≤ p.newBrk inc) :
    sysBrk s p inc grow =
      match (p.brkPages inc).foldlM (brkPage p.cr3 grow) ⟨s.kmem,p.elfPages,0⟩ with
      | .error l => (-1,(s.update p.pid fun q => { q with brkVirt := p.oldBrk }).loaded p.pid l)
      | .ok l => (p.newBrk inc,((s.update p.pid fun q => { q with brkVirt := p.oldBrk }).loaded p.pid
          l).update p.pid fun q => { q with brkVirt := p.newBrk inc }) := by
  simp only [sysBrk]
  rw [if_neg hinc,if_neg (by omega)]
  rfl

theorem oldBrk_eq_iff : p.oldBrk = p.brkVirt ↔ p.brkVirt ≠ 0 := by
  simp only [Proc.oldBrk]
  split
  · rename_i h
    simp [h,heapBase]
  · rename_i h
    simp [h]

/-- What the break is after an update, and after pages have been loaded. -/
theorem find_setBrk (hp : s.find p.pid = some p) (v : ℕ) :
    (s.update p.pid fun q => { q with brkVirt := v }).find p.pid = some { p with brkVirt := v } := by
  rw [find_update (f:=fun q => { q with brkVirt := v }) fun _ => rfl,hp]
  rfl

theorem find_loaded {pid : ℕ} {q : Proc} (hq : s.find pid = some q) (l : Loading) :
    (s.loaded pid l).find pid = some { q with elfPages := l.pages } := by
  have hfind : ({ s with kmem := l.kmem } : Sys).find pid = some q := hq
  simp only [Sys.loaded]
  rw [find_update (f:=fun q => { q with elfPages := l.pages }) fun _ => rfl,hfind]
  rfl

/-- The sum does not wrap: the floor is noticed. -/
theorem refuses_of_nonneg (hp : s.find p.pid = some p) (hold : p.oldBrk < 2^64) (hneg : inc < 0)
    (hbelow : p.oldBrk+inc < heapBase) (h : 0 ≤ p.oldBrk+inc) :
    s.RefusesBrk p inc grow ↔ p.brkVirt ≠ 0 := by
  have hnew := newBrk_of_nonneg hold hneg h
  have hcall := sysBrk_floor s grow hneg (show p.newBrk inc < heapBase by omega)
  rw [Sys.RefusesBrk,hcall]
  simp only [find_setBrk hp,Option.map_some,Option.some.injEq]
  rw [← oldBrk_eq_iff]
  exact ⟨fun h => h.2.1,fun h => ⟨trivial,h,rfl,rfl⟩⟩

/-- The sum wraps: the call fails cleanly only if there is no frame at all for it. -/
theorem refuses_of_wrap (hp : s.find p.pid = some p) (hmin : -2^63 ≤ inc) (hneg : inc < 0)
    (h : p.oldBrk+inc < 0) : s.RefusesBrk p inc grow ↔
      p.brkVirt ≠ 0 ∧ p.newBrk inc ≤ 2^64-4096 ∧ pmmAllocPageForElf s.kmem.vm.pmm = none := by
  have hnew := newBrk_of_wrap hmin h
  have hbase : heapBase = 0x8000200000 := rfl
  have hcall := sysBrk_loop s grow hneg.ne (show heapBase ≤ p.newBrk inc by omega)
  have hset := find_setBrk hp p.oldBrk
  have hloaded (l : Loading) := find_loaded hset l
  rw [Sys.RefusesBrk,hcall]
  by_cases htop : p.newBrk inc ≤ 2^64-4096
  · obtain ⟨v,vs,hvs⟩ : ∃ v vs, p.brkPages inc = v::vs := by
      refine List.exists_cons_of_ne_nil fun hnil => ?_
      have hlen := congrArg List.length hnil
      simp only [Proc.brkPages,pagesFrom,roundUp,List.length_map,List.length_range,
        List.length_nil] at hlen
      omega
    rw [hvs]
    cases ha : pmmAllocPageForElf s.kmem.vm.pmm with
    | none =>
      have hstep : brkPage p.cr3 grow ⟨s.kmem,p.elfPages,0⟩ v = .error ⟨s.kmem,p.elfPages,0⟩ := by
        simp only [brkPage,ha]
      have herr : (v::vs).foldlM (brkPage p.cr3 grow) ⟨s.kmem,p.elfPages,0⟩ =
          .error ⟨s.kmem,p.elfPages,0⟩ := by
        rw [List.foldlM_cons,hstep]
        rfl
      simp only [herr,hloaded,Option.map_some,Option.some.injEq]
      rw [← oldBrk_eq_iff]
      exact ⟨fun h => ⟨h.2.1,htop,trivial⟩,fun h => ⟨trivial,h.1,rfl,rfl⟩⟩
    | some r =>
      obtain ⟨f,pmm⟩ := r
      have hends := brkPages_taken p.cr3 grow v vs (l:=⟨s.kmem,p.elfPages,0⟩) ha
      have hfree : s.kmem.vm.pmm.bitmap f = false := (alloc_spec ha).1.free
      -- the frame of the first page is still taken
      refine iff_of_false (fun hr => ?_) (by simp)
      have hbit := congrFun hr.2.2.2 f
      rw [hfree] at hbit
      cases hloop : (v::vs).foldlM (brkPage p.cr3 grow) ⟨s.kmem,p.elfPages,0⟩ with
      | error l =>
        rw [hloop] at hends hbit
        cases hbit.symm.trans hends
      | ok l =>
        rw [hloop] at hends hbit
        cases hbit.symm.trans hends
  · -- the end of the new heap rounds to 0, and the break is set without a page
    have hnil : p.brkPages inc = [] := by
      have hround : roundUp (p.newBrk inc) = 0 := by
        simp only [roundUp]
        omega
      rw [Proc.brkPages,hround,pagesFrom]
      simp
    refine iff_of_false (fun hr => ?_) fun hc => htop hc.2.1
    have hfind := hr.2.1
    rw [hnil] at hfind
    have hl := find_setBrk (s:=(s.update p.pid fun q => { q with brkVirt := p.oldBrk }).loaded p.pid
      ⟨s.kmem,p.elfPages,0⟩) (p:={ p with brkVirt := p.oldBrk }) (hloaded _) (p.newBrk inc)
    simp only [List.foldlM_nil,pure,Except.pure,hl,Option.map_some,Option.some.injEq] at hfind
    have hold : p.brkVirt = 0 ∨ p.oldBrk = p.brkVirt := by
      simp only [Proc.oldBrk]
      split
      · left
        assumption
      · exact Or.inr rfl
    omega

/-- An increment that would take the break below the start of the heap is refused without a trace
exactly if the break has been set and the sum does not wrap, or nothing can be allocated. -/
theorem over_shrink_refused_iff (s : Sys) (p : Proc) (inc : ℤ) (grow : ℕ → Bool)
    (hp : s.find p.pid = some p) (hbrk : p.brkVirt < 2^64) (hmin : -2^63 ≤ inc) (hneg : inc < 0)
    (hbelow : p.oldBrk+inc < heapBase) : s.RefusesBrk p inc grow ↔ s.HeedsFloor p inc := by
  have hold : p.oldBrk < 2^64 := by
    simp only [Proc.oldBrk,heapBase]
    split <;> omega
  by_cases h : 0 ≤ p.oldBrk+inc
  · rw [refuses_of_nonneg hp hold hneg hbelow h]
    exact ⟨fun hz => ⟨hz,Or.inl h⟩,fun hf => hf.1⟩
  · rw [refuses_of_wrap hp hmin hneg (by omega)]
    exact ⟨fun hc => ⟨hc.1,Or.inr hc.2⟩,fun hf => ⟨hf.1,hf.2.resolve_left h⟩⟩

/-- A process with a heap of one byte. -/
def oneByte : Proc := ⟨2,16,[],heapBase+1,true⟩

def oneByteSys : Sys := ⟨⟨bootVm 16,Heap.heapStartAddr,0⟩,[oneByte],3,some 2⟩

/-- One byte too many makes the break the last address of all. -/
theorem break_wraps : oneByte.oldBrk+(-(heapBase+2) : ℤ) < heapBase ∧
    ((sysBrk oneByteSys oneByte (-(heapBase+2)) fun _ => false).2.find 2).map Proc.brkVirt =
      some (2^64-1) ∧
    ¬oneByteSys.RefusesBrk oneByte (-(heapBase+2)) (fun _ => false) := by
  have hbrk : ((sysBrk oneByteSys oneByte (-(heapBase+2)) fun _ => false).2.find 2).map
      Proc.brkVirt = some (2^64-1) := by decide +kernel
  refine ⟨by decide,hbrk,fun h => ?_⟩
  have hkept := hbrk.symm.trans h.2.1
  revert hkept
  decide

theorem over_shrink_refused_iff_two : oneByteSys.RefusesBrk oneByte (-2) (fun _ => false) :=
  (over_shrink_refused_iff oneByteSys oneByte (-2) (fun _ => false) rfl (by decide) (by decide)
    (by decide) (by decide)).mpr ⟨by decide,Or.inl (by decide)⟩

end Memory
end DonsOs
