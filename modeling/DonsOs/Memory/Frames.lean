import DonsOs.Lib.Run
import DonsOs.Memory.Init
import DonsOs.Memory.Mapping

/-! Frames in the hands of their owners.
A client allocates frames and frees those it owns.  The bitmap then marks exactly the frames
that were never free and those that are owned, whatever the two cursors do. -/
namespace DonsOs
namespace Memory

open Paging Run

/-- The address that `pmm_alloc_page` returns, or 0. -/
def allocResult (p : Pmm) (type : PageType) : ℕ :=
  match pmmAllocPage p type with
  | none => 0
  | some (f,_) => f*4096

def PageType.user (type : PageType) : Bool := type = .userData ∨ type = .userPageTable

/-- The allocator and the frames of live allocations. -/
structure Frames where
  pmm : Pmm
  live : List ℕ

inductive FrameCall where
  | alloc (type : PageType)
  | free (page : ℕ)

def Frames.alloc (s : Frames) (type : PageType) : Frames :=
  match pmmAllocPage s.pmm type with
  | none => s
  | some (f,pmm) => ⟨pmm,f::s.live⟩

def Frames.free (s : Frames) (page : ℕ) : Frames := ⟨pmmFreePage s.pmm page,s.live.erase page⟩

def Frames.step (s : Frames) : FrameCall → Option Frames
  | .alloc type => some (s.alloc type)
  | .free page => some (s.free page)

/-- Allocations have a type, and only what is allocated is freed. -/
def Frames.Allowed (s : Frames) : FrameCall → Prop
  | .alloc type => type ≠ .free
  | .free page => page ∈ s.live

instance (s : Frames) : (c : FrameCall) → Decidable (s.Allowed c)
  | .alloc type => inferInstanceAs (Decidable (type ≠ .free))
  | .free page => inferInstanceAs (Decidable (page ∈ s.live))

/-! One allocation. -/

theorem alloc_spec {p p' : Pmm} {type : PageType} {f : ℕ} (h : pmmAllocPage p type = some (f,p')) :
    Taken p p' f ∧
      (type.user = true ∧ p.zones.highStart ≤ f ∧ f ≤ p.nextHigh ∧ p'.nextLow = p.nextLow ∧
          p'.nextHigh ≤ f ∨
        type.user = false ∧ p.nextLow ≤ f ∧ f ≤ p.zones.lowEnd ∧ f ≤ p'.nextLow ∧
          p'.nextHigh = p.nextHigh) := by
  simp only [pmmAllocPage] at h
  by_cases hu : type = .userData ∨ type = .userPageTable
  · rw [if_pos hu] at h
    split at h
    · cases h
    · obtain ⟨page,hp,he⟩ := Option.map_eq_some_iff.mp h
      have hfree := List.find?_some hp
      have hmem := List.mem_range'_1.mp (List.mem_reverse.mp (List.mem_of_find?_eq_some hp))
      obtain ⟨rfl,rfl⟩ := Prod.mk.inj he
      refine ⟨⟨by simpa using hfree,rfl,rfl,rfl⟩,Or.inl ⟨by simpa [PageType.user] using hu,hmem.1,
        by omega,rfl,?_⟩⟩
      simp only
      split <;> omega
  · rw [if_neg hu] at h
    split at h
    · cases h
    · obtain ⟨page,hp,he⟩ := Option.map_eq_some_iff.mp h
      have hfree := List.find?_some hp
      have hmem := List.mem_range'_1.mp (List.mem_of_find?_eq_some hp)
      obtain ⟨rfl,rfl⟩ := Prod.mk.inj he
      refine ⟨⟨by simpa using (decide_eq_true_eq.mp hfree).2,rfl,rfl,rfl⟩,
        Or.inr ⟨by simpa [PageType.user] using hu,hmem.1,by omega,?_,rfl⟩⟩
      simp only
      split <;> omega

/-! Everything but `pmm_free_page` only takes frames. -/

structure Grows (p p' : Pmm) : Prop where
  zones : p'.zones = p.zones
  bitmap : ∀ f, p.bitmap f = true → p'.bitmap f = true
  refCount : ∀ f, p.bitmap f = true → p'.refCount f = p.refCount f
  nextHigh : p'.nextHigh ≤ p.nextHigh ∨ p'.nextHigh ≤ p.zones.highEnd

/-- A step that may stop early takes frames only. -/
def GrowsTo (s : Vm) (r : Except Vm Vm) : Prop := ∀ t, r = .ok t ∨ r = .error t → Grows s.pmm t.pmm

theorem GrowsTo.ok {s u : Vm} (h : Grows s.pmm u.pmm) : GrowsTo s (.ok u) := by
  rintro t (he | he) <;> cases he
  exact h

theorem GrowsTo.error {s u : Vm} (h : Grows s.pmm u.pmm) : GrowsTo s (.error u) := by
  rintro t (he | he) <;> cases he
  exact h

namespace Grows

theorem refl (p : Pmm) : Grows p p := ⟨rfl,fun _ h => h,fun _ _ => rfl,Or.inl le_rfl⟩

theorem trans {p q r : Pmm} (h : Grows p q) (h' : Grows q r) : Grows p r where
  zones := h'.zones.trans h.zones
  bitmap := fun f hf => h'.bitmap f (h.bitmap f hf)
  refCount := fun f hf => (h'.refCount f (h.bitmap f hf)).trans (h.refCount f hf)
  nextHigh := by
    have h₁ := h.nextHigh
    have h₂ := h'.nextHigh
    rw [h.zones] at h₂
    omega

theorem alloc {p p' : Pmm} {type : PageType} {f : ℕ} (h : pmmAllocPage p type = some (f,p')) :
    Grows p p' := by
  obtain ⟨htk,hcase⟩ := alloc_spec h
  have hne : ∀ g,p.bitmap g = true → g ≠ f := by
    rintro g hg rfl
    rw [htk.free] at hg
    cases hg
  refine ⟨htk.zones,fun g hg => ?_,fun g hg => ?_,?_⟩
  · rw [htk.bitmap,Function.update_of_ne (hne g hg),hg]
  · rw [htk.refCount,Function.update_of_ne (hne g hg)]
  · rcases hcase with hc | hc <;> omega

theorem nextTable {s s' : Vm} {t i f : ℕ} {d : Word} (h : nextTable s t i d = some (f,s')) :
    Grows s.pmm s'.pmm := by
  rcases nextTable_cases h with ⟨-,-,rfl⟩ | ⟨-,pmm,ha,rfl⟩
  · exact refl _
  · exact alloc ha

theorem map (s : Vm) (cr3 virt phys : ℕ) (flags : Word) :
    Grows s.pmm (vmmMapPageInCr3 s cr3 virt phys flags).2.pmm := by
  rw [map_eq]
  split
  · exact refl _
  rename_i pdpt s₁ h₁
  simp only [mapBelowPdpt]
  split
  · exact nextTable h₁
  rename_i pd s₂ h₂
  simp only [mapBelowPd]
  split
  · exact (nextTable h₁).trans (nextTable h₂)
  rename_i pt s₃ h₃
  have h₁₃ : Grows s.pmm s₃.pmm := ((nextTable h₁).trans (nextTable h₂)).trans (nextTable h₃)
  exact h₁₃

theorem hhdm (s : Vm) (phys : ℕ) : Grows s.pmm (ensureHhdmMapped s phys).pmm := by
  simp only [ensureHhdmMapped]
  split
  · exact refl _
  · exact map s _ _ _ _

theorem loop {step : Vm → ℕ → Except Vm Vm} (hstep : ∀ s i, GrowsTo s (step s i)) (l : List ℕ)
    (s : Vm) : GrowsTo s (l.foldlM step s) := by
  induction l generalizing s with
  | nil => exact .ok (refl _)
  | cons i l ih =>
    rw [List.foldlM_cons]
    cases he : step s i with
    | error u => exact .error (hstep s i u (Or.inr he))
    | ok u => exact fun t ht => (hstep s i u (Or.inl he)).trans (ih u t ht)

theorem clonePdEntry (src new : ℕ) (s : Vm) (k : ℕ) : GrowsTo s (clonePdEntry src new s k) := by
  simp only [Memory.clonePdEntry]
  split
  · exact .ok (refl _)
  · split
    · exact .ok (refl _)
    · split
      · exact .error (refl _)
      · rename_i ha
        exact .ok (alloc ha)

/-- The upper levels allocate a table and clone the entries below. -/
theorem below {s : Vm} {f : ℕ} {pmm : Pmm} {m : Mem} (ha : pmmAllocPageForTables s.pmm = some (f,pmm))
    {step : Vm → ℕ → Except Vm Vm} {finish : Vm → Vm} (hfinish : ∀ t, (finish t).pmm = t.pmm)
    (hstep : ∀ s i, GrowsTo s (step s i)) (l : List ℕ) :
    GrowsTo s ((l.foldlM step { s with pmm := pmm, mem := m }).map finish) := by
  have hloop := loop hstep l { s with pmm := pmm, mem := m }
  cases he : l.foldlM step { s with pmm := pmm, mem := m } with
  | error t => exact .error ((alloc ha).trans (hloop t (Or.inr he)))
  | ok t =>
    refine .ok ?_
    rw [hfinish]
    exact (alloc ha).trans (hloop t (Or.inl he))

theorem clonePdptEntry (src new : ℕ) (s : Vm) (j : ℕ) : GrowsTo s (clonePdptEntry src new s j) := by
  simp only [Memory.clonePdptEntry]
  split
  · exact .ok (refl _)
  · split
    · exact .error (refl _)
    · rename_i ha
      generalize List.range 512 = l
      refine below ha ?_ (clonePdEntry _ _) l
      exact fun _ => rfl

theorem clonePml4Entry (src new : ℕ) (s : Vm) (i : ℕ) : GrowsTo s (clonePml4Entry src new s i) := by
  simp only [Memory.clonePml4Entry]
  split
  · exact .ok (refl _)
  · split
    · exact .ok (refl _)
    · split
      · exact .ok (refl _)
      · split
        · exact .error (refl _)
        · rename_i ha
          generalize List.range 512 = l
          refine below ha ?_ (clonePdptEntry _ _) l
          exact fun _ => rfl

end Grows

/-! The bitmap against the list of owners. -/

structure Owned (p₀ : Pmm) (s : Frames) : Prop where
  zones : s.pmm.zones = p₀.zones
  bitmap : ∀ f, s.pmm.bitmap f = true ↔ p₀.bitmap f = true ∨ f ∈ s.live
  live : ∀ f ∈ s.live, p₀.bitmap f = false ∧ s.pmm.refCount f = 1 ∧ f < maxPages
  nodup : s.live.Nodup
  nextLow : p₀.zones.lowStart ≤ s.pmm.nextLow
  nextHigh : s.pmm.nextHigh ≤ p₀.zones.highEnd

variable {p₀ : Pmm} {s : Frames}

theorem Owned.alloc (h : Owned p₀ s) {type : PageType} {f : ℕ} {p : Pmm}
    (ha : pmmAllocPage s.pmm type = some (f,p)) :
    Owned p₀ ⟨p,f::s.live⟩ ∧ f ∉ s.live ∧ p₀.bitmap f = false ∧
      (type.user = true ∧ p₀.zones.highStart ≤ f ∧ f ≤ p₀.zones.highEnd ∨
        type.user = false ∧ p₀.zones.lowStart ≤ f ∧ f ≤ p₀.zones.lowEnd) := by
  obtain ⟨htk,hcase⟩ := alloc_spec ha
  have hzones := h.zones
  have hnext := h.nextLow
  have hnext' := h.nextHigh
  have hlow := p₀.zones.low_lt
  have hhigh := p₀.zones.high_lt
  have hnot : ¬(p₀.bitmap f = true ∨ f ∈ s.live) := fun hor => by
    have hb := (h.bitmap f).mpr hor
    rw [htk.free] at hb
    cases hb
  obtain ⟨hb₀,hlive⟩ := not_or.mp hnot
  rw [Bool.not_eq_true] at hb₀
  rw [hzones] at hcase
  have hlt : f < maxPages := by omega
  refine ⟨⟨htk.zones.trans hzones,fun g => ?_,fun g hg => ?_,List.nodup_cons.mpr ⟨hlive,h.nodup⟩,
    by simp only; omega,by simp only; omega⟩,hlive,hb₀,?_⟩
  · rw [htk.bitmap,Function.update_apply]
    by_cases hgf : g = f
    · simp [hgf]
    · simp [hgf,h.bitmap g]
  · rw [htk.refCount,Function.update_apply]
    rcases List.mem_cons.mp hg with rfl | hg
    · simpa using ⟨hb₀,hlt⟩
    · have hgf : g ≠ f := fun e => hlive (e ▸ hg)
      simpa [hgf] using h.live g hg
  · rcases hcase with hc | hc
    · exact Or.inl ⟨hc.1,hc.2.1,by omega⟩
    · exact Or.inr ⟨hc.1,by omega,hc.2.2.1⟩

theorem free_spec {p : Pmm} {page : ℕ} (h0 : page ≠ 0) (hmax : page < maxPages)
    (hb : p.bitmap page = true) (hc : p.refCount page = 1) :
    (pmmFreePage p page).zones = p.zones ∧
    (pmmFreePage p page).bitmap = Function.update p.bitmap page false ∧
    (∀ g, g ≠ page → (pmmFreePage p page).refCount g = p.refCount g) ∧
    ((pmmFreePage p page).nextLow = p.nextLow ∨
      (pmmFreePage p page).nextLow = page ∧ p.zones.lowStart ≤ page) ∧
    ((pmmFreePage p page).nextHigh = p.nextHigh ∨
      (pmmFreePage p page).nextHigh = page ∧ page ≤ p.zones.highEnd) := by
  have hno : ¬(page = 0 ∨ maxPages ≤ page ∨ p.bitmap page = false) := by
    simp [h0,hb,Nat.not_le.mpr hmax]
  rw [pmmFreePage,if_neg hno]
  simp only [hc,Nat.sub_self,Function.update_self,if_true]
  refine ⟨trivial,trivial,fun g hg => by simp [Function.update_of_ne hg],?_,?_⟩
  · split
    · rename_i h
      exact Or.inr ⟨rfl,h.1⟩
    · exact Or.inl rfl
  · split
    · rename_i h
      exact Or.inr ⟨rfl,h.2.1⟩
    · exact Or.inl rfl

theorem Owned.free (h : Owned p₀ s) (h0 : p₀.bitmap 0 = true) {page : ℕ} (hp : page ∈ s.live) :
    Owned p₀ (s.free page) := by
  obtain ⟨hb₀,hc,hmax⟩ := h.live page hp
  have hne : page ≠ 0 := by
    rintro rfl
    rw [h0] at hb₀
    cases hb₀
  have hlow := h.nextLow
  have hhigh := h.nextHigh
  obtain ⟨hz,hbit,href,hl,hh⟩ := free_spec hne hmax ((h.bitmap page).mpr (Or.inr hp)) hc
  rw [h.zones] at hl hh
  refine ⟨hz.trans h.zones,fun g => ?_,fun g hg => ?_,h.nodup.erase page,
    by simp only [Frames.free]; omega,by simp only [Frames.free]; omega⟩ <;> simp only [Frames.free] at *
  · rw [hbit,Function.update_apply,h.nodup.mem_erase_iff]
    by_cases hg : g = page
    · simp [hg,hb₀]
    · simp [hg,h.bitmap g]
  · rw [h.nodup.mem_erase_iff] at hg
    rw [href g hg.1]
    exact h.live g hg.2

theorem Owned.step (h : Owned p₀ s) (h0 : p₀.bitmap 0 = true) {c : FrameCall} {s' : Frames}
    (hok : s.Allowed c) (hs : s.step c = some s') : Owned p₀ s' := by
  cases c with
  | alloc type =>
    simp only [Frames.step,Frames.alloc,Option.some.injEq] at hs
    split at hs
    · exact hs ▸ h
    · rename_i f p ha
      exact hs ▸ (h.alloc ha).1
  | free page =>
    simp only [Frames.step,Option.some.injEq] at hs
    exact hs ▸ h.free h0 hok

/-! Histories from `pmm_init` on. -/

theorem owned_pmmOf (bitmap : ℕ → Bool) (pages : ℕ) : Owned (pmmOf bitmap pages) ⟨pmmOf bitmap pages,[]⟩ :=
  ⟨rfl,by simp,by simp,List.nodup_nil,le_rfl,le_rfl⟩

theorem owned_init (info : Option BootInfo) (kernelEnd : ℕ) :
    Owned (pmmInit info kernelEnd) ⟨pmmInit info kernelEnd,[]⟩ := by
  cases info with
  | none => exact owned_pmmOf _ _
  | some info =>
    simp only [pmmInit]
    split <;> exact owned_pmmOf _ _

theorem init_bitmap_zero (info : Option BootInfo) (kernelEnd : ℕ) :
    (pmmInit info kernelEnd).bitmap 0 = true := by
  have hfall : fallbackBitmap 0 = true := by decide
  cases info with
  | none => exact hfall
  | some info =>
    simp only [pmmInit]
    split
    · exact hfall
    · cases hb : initBitmap info kernelEnd 0 with
      | true => simpa [pmmOf] using hb
      | false =>
        have hfree := ((initBitmap_free_iff info kernelEnd 0).mp hb).2.2
        exact absurd (Or.inl (by decide)) hfree

theorem run_owned {info : Option BootInfo} {kernelEnd : ℕ} {calls : List FrameCall}
    (ha : Admits Frames.step Frames.Allowed ⟨pmmInit info kernelEnd,[]⟩ calls)
    (hr : run Frames.step ⟨pmmInit info kernelEnd,[]⟩ calls = some s) :
    Owned (pmmInit info kernelEnd) s :=
  run_invariant (Owned (pmmInit info kernelEnd))
    (fun _ _ _ h hok hs => h.step (init_bitmap_zero info kernelEnd) hok hs)
    (owned_init info kernelEnd) ha hr

/-- After any history, no frame has two owners, and an allocation that succeeds returns the
address of a frame of its zone that is not allocated and that `pmm_init` left free. -/
theorem frames_exclusive (info : Option BootInfo) (kernelEnd : ℕ) (calls : List FrameCall)
    (ha : Admits Frames.step Frames.Allowed ⟨pmmInit info kernelEnd,[]⟩ calls)
    (hr : run Frames.step ⟨pmmInit info kernelEnd,[]⟩ calls = some s) :
    s.live.Nodup ∧ ∀ type, type ≠ .free → allocResult s.pmm type ≠ 0 →
      allocResult s.pmm type%4096 = 0 ∧ allocResult s.pmm type/4096 ∉ s.live ∧
      (pmmInit info kernelEnd).bitmap (allocResult s.pmm type/4096) = false ∧
      if type.user then
        (pmmInit info kernelEnd).zones.highStart ≤ allocResult s.pmm type/4096 ∧
          allocResult s.pmm type/4096 ≤ (pmmInit info kernelEnd).zones.highEnd
      else (pmmInit info kernelEnd).zones.lowStart ≤ allocResult s.pmm type/4096 ∧
          allocResult s.pmm type/4096 ≤ (pmmInit info kernelEnd).zones.lowEnd := by
  have h := run_owned ha hr
  refine ⟨h.nodup,fun type _ hne => ?_⟩
  simp only [allocResult] at hne ⊢
  split at hne
  · exact absurd rfl hne
  · rename_i f p hal
    obtain ⟨-,hlive,hfree,hzone⟩ := h.alloc hal
    rw [Nat.mul_div_cancel f (by omega)]
    refine ⟨by omega,hlive,hfree,?_⟩
    rcases hzone with hz | hz
    · rw [if_pos hz.1]
      exact hz.2
    · rw [if_neg (by simp [hz.1])]
      exact hz.2

theorem frames_exclusive_two :
    (((⟨pmmInit none 0,[]⟩ : Frames).alloc .userData).alloc .kernel).live.Nodup :=
  (frames_exclusive none 0 [.alloc .userData,.alloc .kernel]
    ⟨by decide,fun _ _ => ⟨by simp [Frames.Allowed],fun _ _ => trivial⟩⟩ rfl).1

/-! Usable memory. -/

/-- Every byte of the frame is in a usable range of the map. -/
def BootInfo.Covers (info : BootInfo) (page : ℕ) : Prop :=
  ∀ a, page*4096 ≤ a → a < (page+1)*4096 →
    ∃ e ∈ info.memoryMap, e.type = 1 ∧ e.base ≤ a ∧ a < e.base+e.length

/-- Only frames of usable memory are in the pool, and so only such frames are ever handed out. -/
def BootInfo.OnlyRam (info : BootInfo) (kernelEnd : ℕ) : Prop :=
  (∀ page, (pmmInit (some info) kernelEnd).bitmap page = false → info.Covers page) ∧
    ∀ calls s, Admits Frames.step Frames.Allowed ⟨pmmInit (some info) kernelEnd,[]⟩ calls →
      run Frames.step ⟨pmmInit (some info) kernelEnd,[]⟩ calls = some s →
      ∀ type, allocResult s.pmm type ≠ 0 → info.Covers (allocResult s.pmm type/4096)

/-- The pool holds usable memory only, exactly if each frame that a usable range reaches after
rounding is covered by the usable ranges or withheld for another reason. -/
theorem only_ram_iff (info : BootInfo) (kernelEnd : ℕ) (hmap : info.memoryMap ≠ [])
    (hwrap : ∀ e ∈ info.memoryMap, e.base+e.length < 2^64) :
    info.OnlyRam kernelEnd ↔ ∀ page < info.top/4096, info.Reaches usable page →
      info.Covers page ∨ info.Withheld kernelEnd page := by
  have hfree : ∀ page, (pmmInit (some info) kernelEnd).bitmap page = false ↔
      page < info.top/4096 ∧ info.Reaches usable page ∧ ¬info.Withheld kernelEnd page := fun page => by
    rw [pmmInit_bitmap hmap,initBitmap_free_iff,maxPages_eq info hwrap]
  constructor
  · intro h page hp hu
    by_cases hw : info.Withheld kernelEnd page
    · exact Or.inr hw
    · exact Or.inl (h.1 page ((hfree page).mpr ⟨hp,hu,hw⟩))
  · intro h
    have hpool : ∀ page, (pmmInit (some info) kernelEnd).bitmap page = false → info.Covers page := by
      intro page hb
      obtain ⟨hp,hu,hno⟩ := (hfree page).mp hb
      exact (h page hp hu).resolve_right hno
    refine ⟨hpool,fun calls s ha hr type hne => ?_⟩
    simp only [allocResult] at hne ⊢
    split at hne
    · exact absurd rfl hne
    · rename_i f p hal
      rw [Nat.mul_div_cancel f (by omega)]
      exact hpool f ((run_owned ha hr).alloc hal).2.2.1

/-- A usable range that begins in the middle of a frame. -/
def unalignedMap : BootInfo := ⟨[⟨0x1000800,0x1000000,1⟩],0x100000,0x200000⟩

/-- The whole frame goes to the pool, although its first half is not in the map. -/
theorem half_frame_free : ¬unalignedMap.OnlyRam 0xFFFFFFFF80300000 := by
  intro h
  have hfree : (pmmInit (some unalignedMap) 0xFFFFFFFF80300000).bitmap 0x1000 = false := by
    rw [pmmInit_bitmap (by decide),initBitmap_free_iff]
    decide
  obtain ⟨e,he,-,hbase,-⟩ := h.1 0x1000 hfree 0x1000000 (by decide) (by decide)
  simp only [unalignedMap,List.mem_singleton] at he
  subst he
  revert hbase
  decide

/-- A usable range with page boundaries. -/
def alignedMap : BootInfo := ⟨[⟨0x1000000,0x1000000,1⟩],0x100000,0x200000⟩

theorem only_ram_iff_aligned : alignedMap.OnlyRam 0xFFFFFFFF80300000 := by
  refine (only_ram_iff alignedMap 0xFFFFFFFF80300000 (by decide) (by decide)).mpr ?_
  rintro page - ⟨e,he,-,h1,h2,-⟩
  refine Or.inl fun a ha ha' => ⟨e,he,?_,?_⟩ <;> simp only [alignedMap,List.mem_singleton] at he <;>
    subst he
  · rfl
  · have hlast : (⟨0x1000000,0x1000000,1⟩ : MapEntry).last = 0x2000000 := by decide
    simp only [hlast] at h1 h2
    simp only
    omega

end Memory
end DonsOs
