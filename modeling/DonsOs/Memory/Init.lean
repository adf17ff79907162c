import DonsOs.Memory.Model

/-! `pmm_init`: from the memory map to the bitmap.
Every frame starts out in use.  One pass over the map frees the frames of usable ranges, and
three later passes take back the first megabyte, the kernel and the reserved ranges.  A frame
is free in the end exactly if the first pass touches it and no later one does. -/
namespace DonsOs
namespace Memory

/-- An entry of the memory map, 64-bit fields. -/
structure MapEntry where
  base : ℕ
  length : ℕ
  type : ℕ
deriving DecidableEq

def MapEntry.last (e : MapEntry) : ℕ := (e.base+e.length)%2^64

structure BootInfo where
  memoryMap : List MapEntry
  kernelPhysStart : ℕ
  kernelPhysEnd : ℕ

def maxPhysMem : ℕ := 128*1024*1024
def kernelReserveMargin : ℕ := 0x4000

/-! Passes. -/

/-- The pages of the loops over `addr` from `base` on, below `last` and `max`. -/
def pagesBetween (base last max : ℕ) : List ℕ :=
  List.range' (base/4096) ((min last max+4095)/4096-base/4096)

/-- One loop: each page below `maxPages` whose bit is not `v` yet gets it. -/
def mark (v : Bool) (pages : ℕ) : List ℕ → (ℕ → Bool) → ℕ → Bool
  | [], bitmap => bitmap
  | page::rest, bitmap =>
    mark v pages rest (if page < pages then
      if bitmap page = v then bitmap else Function.update bitmap page v
    else bitmap)

/-- A pass over the entries whose type is selected. -/
def mapPass (sel : ℕ → Bool) (v : Bool) (max pages : ℕ) : List MapEntry → (ℕ → Bool) → ℕ → Bool
  | [], bitmap => bitmap
  | e::es, bitmap =>
    mapPass sel v max pages es (if sel e.type then
      mark v pages (pagesBetween (e.base/4096*4096) (roundUp e.last) max) bitmap
    else bitmap)

def usable (type : ℕ) : Bool := type = 1
def reserved (type : ℕ) : Bool := type = 2 ∨ type = 3 ∨ type = 4 ∨ type = 5

/-- The largest end of an entry. -/
def mapEnd : List MapEntry → ℕ → ℕ
  | [], max => max
  | e::es, max => mapEnd es (if max < e.last then e.last else max)

def BootInfo.maxPhysical (info : BootInfo) : ℕ := min (mapEnd info.memoryMap 0) maxPhysMem
def BootInfo.maxPages (info : BootInfo) : ℕ := min (info.maxPhysical/4096) Memory.maxPages

/-- The physical address of the end of the kernel; `kernelEnd` is the address of
`_kernel_end`. -/
def kendPhys (kernelEnd : ℕ) : ℕ := (kernelEnd+2^64-0xFFFFFFFF80000000)%2^64

/-- The end of the range that is reserved for the kernel, before rounding. -/
def BootInfo.kend (info : BootInfo) (kernelEnd : ℕ) : ℕ :=
  let floor := (info.kernelPhysEnd+kernelReserveMargin)%2^64
  if kendPhys kernelEnd < floor then floor else kendPhys kernelEnd

/-- The bitmap that `pmm_init` builds from a map that is not empty. -/
def initBitmap (info : BootInfo) (kernelEnd : ℕ) : ℕ → Bool :=
  let max := info.maxPhysical
  let pages := info.maxPages
  let bitmap := mapPass usable false max pages info.memoryMap fun _ => true
  let bitmap := mark true pages (pagesBetween 0 0x100000 0x100000) bitmap
  let bitmap := mark true pages (pagesBetween (info.kernelPhysStart/4096*4096)
    (roundUp (info.kend kernelEnd)) max) bitmap
  mapPass reserved true max pages info.memoryMap bitmap

/-- Without a map, everything from 16 MB to 128 MB is free. -/
def fallbackBitmap : ℕ → Bool := fun page => page*4096 < 16*1024*1024 ∨ maxPages ≤ page

/-! Zones. -/

/-- First and last free page; the loop of `pmm_compute_zones`. -/
def freeSpan (bitmap : ℕ → Bool) : List ℕ → ℕ × ℕ → ℕ × ℕ
  | [], span => span
  | page::rest, (first,last) =>
    freeSpan bitmap rest (if bitmap page then (first,last) else
      (if page < first then page else first,if last < page then page else last))

/-- No zone at all. -/
def noZones : Zones := ⟨0,0,0,0,maxPages_pos,maxPages_pos,Or.inr ⟨rfl,rfl⟩⟩

/-- `pmm_compute_zones`, from the bitmap. -/
def zonesOf (bitmap : ℕ → Bool) (pages : ℕ) : Zones :=
  let span := freeSpan bitmap (List.range pages) (pages,0)
  if span.1 = pages then noZones else
  if h : span.1 ≤ span.2 ∧ span.2 < maxPages then pmmComputeZones span.1 span.2 h else noZones

/-- The allocator with a bitmap and its zones, before any allocation. -/
def pmmOf (bitmap : ℕ → Bool) (pages : ℕ) : Pmm :=
  let zones := zonesOf bitmap pages
  ⟨zones,bitmap,fun _ => 0,zones.lowStart,zones.highEnd⟩

/-- `pmm_init`; without boot information or with an empty map it falls back to a fixed
layout. -/
def pmmInit (info : Option BootInfo) (kernelEnd : ℕ) : Pmm :=
  match info with
  | none => pmmOf fallbackBitmap maxPages
  | some info =>
    if info.memoryMap = [] then pmmOf fallbackBitmap maxPages
    else pmmOf (initBitmap info kernelEnd) info.maxPages

/-! What the passes compute. -/

theorem mem_pagesBetween {base last max page : ℕ} : page ∈ pagesBetween (base/4096*4096) last max ↔
    base/4096 ≤ page ∧ page*4096 < last ∧ page*4096 < max := by
  simp only [pagesBetween,List.mem_range'_1]
  omega

theorem mark_apply (v : Bool) (pages : ℕ) (l : List ℕ) (bitmap : ℕ → Bool) (page : ℕ) :
    mark v pages l bitmap page = if page ∈ l ∧ page < pages then v else bitmap page := by
  induction l generalizing bitmap with
  | nil => simp [mark]
  | cons a l ih =>
    rw [mark,ih]
    by_cases hl : page ∈ l ∧ page < pages
    · simp [hl]
    · by_cases ha : page = a
      · subst ha
        by_cases hp : page < pages
        · by_cases hv : bitmap page = v <;> simp [hp,hv]
        · simp [hp]
      · have hne : (if a < pages then if bitmap a = v then bitmap else Function.update bitmap a v
            else bitmap) page = bitmap page := by
          split_ifs <;> simp [Function.update_of_ne ha]
        simp [ha,hl,hne]

theorem mapPass_apply (sel : ℕ → Bool) (v : Bool) (max pages : ℕ) (es : List MapEntry)
    (bitmap : ℕ → Bool) (page : ℕ) : mapPass sel v max pages es bitmap page =
      if (∃ e ∈ es, sel e.type = true ∧
        page ∈ pagesBetween (e.base/4096*4096) (roundUp e.last) max) ∧ page < pages then v
      else bitmap page := by
  induction es generalizing bitmap with
  | nil => simp [mapPass]
  | cons e es ih =>
    rw [mapPass,ih]
    cases hs : sel e.type with
    | false => simp [hs]
    | true =>
      simp only [if_true,mark_apply]
      by_cases hp : page < pages
      · by_cases he : page ∈ pagesBetween (e.base/4096*4096) (roundUp e.last) max <;> simp [hp,he,hs]
      · simp [hp]

/-! Ranges of the boot information, as sets of pages. -/

/-- Rounding the end of the range up to a page does not wrap. -/
def Rounds (last : ℕ) : Prop := last+0xFFF < 2^64

instance (last : ℕ) : Decidable (Rounds last) := inferInstanceAs (Decidable (_ < _))

/-- After rounding, the range from `first` to `last` has the page. -/
def Touches (first last page : ℕ) : Prop := first/4096 ≤ page ∧ page*4096 < last ∧ Rounds last

instance (first last page : ℕ) : Decidable (Touches first last page) :=
  inferInstanceAs (Decidable (_ ∧ _))

theorem lt_roundUp {last page : ℕ} (hl : last < 2^64) :
    page*4096 < roundUp last ↔ page*4096 < last ∧ Rounds last := by
  simp only [roundUp,Rounds]
  omega

theorem last_lt (e : MapEntry) : e.last < 2^64 := Nat.mod_lt _ (by decide)

theorem kend_lt (info : BootInfo) (kernelEnd : ℕ) : info.kend kernelEnd < 2^64 := by
  simp only [BootInfo.kend]
  split
  · exact Nat.mod_lt _ (by decide)
  · exact Nat.mod_lt _ (by decide)

/-- A page that a pass over the map reaches. -/
def BootInfo.Reaches (info : BootInfo) (sel : ℕ → Bool) (page : ℕ) : Prop :=
  ∃ e ∈ info.memoryMap, sel e.type = true ∧ Touches e.base e.last page

/-- A page that a later pass keeps out of the pool. -/
def BootInfo.Withheld (info : BootInfo) (kernelEnd page : ℕ) : Prop :=
  page < 256 ∨ Touches info.kernelPhysStart (info.kend kernelEnd) page ∨ info.Reaches reserved page

theorem maxPages_le (info : BootInfo) : info.maxPages*4096 ≤ info.maxPhysical := by
  simp only [BootInfo.maxPages]
  omega

instance (info : BootInfo) (sel : ℕ → Bool) (page : ℕ) : Decidable (info.Reaches sel page) :=
  inferInstanceAs (Decidable (∃ e ∈ info.memoryMap, _))

instance (info : BootInfo) (kernelEnd page : ℕ) : Decidable (info.Withheld kernelEnd page) :=
  inferInstanceAs (Decidable (_ ∨ _ ∨ _))

theorem mapPass_info (info : BootInfo) (sel : ℕ → Bool) (v : Bool) (bitmap : ℕ → Bool) {page : ℕ}
    (hp : page < info.maxPages) :
    mapPass sel v info.maxPhysical info.maxPages info.memoryMap bitmap page =
      if info.Reaches sel page then v else bitmap page := by
  have hmax : page*4096 < info.maxPhysical := by
    have hle := maxPages_le info
    omega
  rw [mapPass_apply]
  refine if_congr ?_ rfl rfl
  simp only [mem_pagesBetween,lt_roundUp (last_lt _),hmax,hp,and_true,BootInfo.Reaches,Touches]

theorem initBitmap_free_iff (info : BootInfo) (kernelEnd page : ℕ) :
    initBitmap info kernelEnd page = false ↔
      page < info.maxPages ∧ info.Reaches usable page ∧ ¬info.Withheld kernelEnd page := by
  by_cases hp : page < info.maxPages
  · have hmax : page*4096 < info.maxPhysical := by
      have hle := maxPages_le info
      omega
    have hlow : page ∈ pagesBetween 0 0x100000 0x100000 ↔ page < 256 := by
      rw [show 0 = 0/4096*4096 from rfl,mem_pagesBetween]
      omega
    have hkernel : page ∈ pagesBetween (info.kernelPhysStart/4096*4096) (roundUp (info.kend kernelEnd))
        info.maxPhysical ↔ Touches info.kernelPhysStart (info.kend kernelEnd) page := by
      simp only [mem_pagesBetween,lt_roundUp (kend_lt _ _),hmax,and_true,Touches]
    simp only [initBitmap,mapPass_info info _ _ _ hp,mark_apply,hlow,hkernel,hp,and_true,true_and,
      BootInfo.Withheld]
    by_cases hr : info.Reaches reserved page
    · simp [hr]
    by_cases hk : Touches info.kernelPhysStart (info.kend kernelEnd) page
    · simp [hr,hk]
    by_cases hl : page < 256
    · simp [hr,hk,hl]
    · simp [hr,hk,hl]
  · simp [initBitmap,mapPass_apply,mark_apply,hp]

theorem pmmInit_bitmap {info : BootInfo} (hmap : info.memoryMap ≠ []) (kernelEnd : ℕ) :
    (pmmInit (some info) kernelEnd).bitmap = initBitmap info kernelEnd := by
  simp [pmmInit,hmap,pmmOf]

/-! What must stay out of the pool. -/

/-- The frame has a byte of the range. -/
def Meets (page first last : ℕ) : Prop :=
  ∃ a, page*4096 ≤ a ∧ a < (page+1)*4096 ∧ first ≤ a ∧ a < last

theorem touches_of_meets {page first last : ℕ} (h : Meets page first last) (hr : Rounds last) :
    Touches first last page := by
  obtain ⟨a,h1,h2,h3,h4⟩ := h
  exact ⟨by omega,by omega,hr⟩

/-- The largest end of a range of the map, up to 128 MB. -/
def BootInfo.top (info : BootInfo) : ℕ :=
  min ((info.memoryMap.map fun e => e.base+e.length).foldr max 0) (128*2^20)

theorem mapEnd_eq (es : List MapEntry) (m : ℕ) (h : ∀ e ∈ es, e.base+e.length < 2^64) :
    mapEnd es m = max m ((es.map fun e => e.base+e.length).foldr max 0) := by
  induction es generalizing m with
  | nil => simp [mapEnd]
  | cons e es ih =>
    have hlast : e.last = e.base+e.length := Nat.mod_eq_of_lt (h e (by simp))
    rw [mapEnd,ih _ fun e' he' => h e' (by simp [he']),hlast]
    simp only [List.map_cons,List.foldr_cons]
    split <;> omega

theorem maxPages_eq (info : BootInfo) (h : ∀ e ∈ info.memoryMap, e.base+e.length < 2^64) :
    info.maxPages = info.top/4096 := by
  rw [BootInfo.maxPages,BootInfo.maxPhysical,mapEnd_eq _ _ h,BootInfo.top]
  simp only [maxPhysMem,maxPages,Nat.zero_max]
  omega

/-- No free frame meets the first megabyte, a range of type 2 to 5 or the kernel, and all of
them lie below the end of the map and 128 MB. -/
def BootInfo.Shielded (info : BootInfo) (kernelEnd : ℕ) (bitmap : ℕ → Bool) : Prop :=
  ∀ page, bitmap page = false →
    ¬Meets page 0 0x100000 ∧
    (∀ e ∈ info.memoryMap, reserved e.type = true → ¬Meets page e.base (e.base+e.length)) ∧
    ¬Meets page info.kernelPhysStart
      (max (kendPhys kernelEnd) (info.kernelPhysEnd+kernelReserveMargin)) ∧
    page < info.top/4096

/-- Protected memory stays out of the pool exactly if each range of type 2 to 5 whose end
cannot be rounded up in 64 bits meets only frames that no usable range reaches, or that are
withheld for another reason. -/
theorem shielded_iff (info : BootInfo) (kernelEnd : ℕ) (hmap : info.memoryMap ≠ [])
    (hwrap : ∀ e ∈ info.memoryMap, e.base+e.length < 2^64)
    (hend : info.kernelPhysEnd+kernelReserveMargin < 2^64)
    (hround : Rounds (max (kendPhys kernelEnd) (info.kernelPhysEnd+kernelReserveMargin))) :
    info.Shielded kernelEnd (pmmInit (some info) kernelEnd).bitmap ↔
      ∀ e ∈ info.memoryMap, reserved e.type = true → ¬Rounds (e.base+e.length) →
        ∀ page < info.top/4096, info.Reaches usable page → Meets page e.base (e.base+e.length) →
          info.Withheld kernelEnd page := by
  have hkend : info.kend kernelEnd =
      max (kendPhys kernelEnd) (info.kernelPhysEnd+kernelReserveMargin) := by
    simp only [BootInfo.kend,Nat.mod_eq_of_lt hend]
    split <;> omega
  have hlast : ∀ e ∈ info.memoryMap, e.last = e.base+e.length := fun e he =>
    Nat.mod_eq_of_lt (hwrap e he)
  rw [pmmInit_bitmap hmap]
  simp only [BootInfo.Shielded,initBitmap_free_iff,maxPages_eq info hwrap]
  constructor
  · intro h e he hr _ page hp hu hm
    by_contra hno
    exact (h page ⟨hp,hu,hno⟩).2.1 e he hr hm
  · rintro h page ⟨hp,hu,hno⟩
    refine ⟨fun hm => hno (Or.inl ?_),fun e he hr hm => ?_,fun hm => hno (Or.inr (Or.inl ?_)),hp⟩
    · obtain ⟨a,h1,-,-,h4⟩ := hm
      omega
    · -- a range that rounds is withheld by the last pass, any other one by assumption
      by_cases hrd : Rounds (e.base+e.length)
      · refine hno (Or.inr (Or.inr ⟨e,he,hr,?_⟩))
        rw [hlast e he]
        exact touches_of_meets hm hrd
      · exact hno (h e he hr hrd page hp hu hm)
    · rw [hkend]
      exact touches_of_meets hm hround

/-- Sixteen megabytes are usable, and a range that ends with the address space reserves them. -/
def endlessReserved : BootInfo :=
  ⟨[⟨0x1000000,0x1000000,1⟩,⟨0x1000000,2^64-1-0x1000000,2⟩],0x100000,0x200000⟩

/-- Rounding the end of the reserved range up gives 0, and nothing is reserved. -/
theorem endless_range_ignored :
    ¬endlessReserved.Shielded 0xFFFFFFFF80300000
      (pmmInit (some endlessReserved) 0xFFFFFFFF80300000).bitmap := by
  intro h
  have hfree : (pmmInit (some endlessReserved) 0xFFFFFFFF80300000).bitmap 0x1000 = false := by
    rw [pmmInit_bitmap (by decide),initBitmap_free_iff]
    decide
  refine (h 0x1000 hfree).2.1 ⟨0x1000000,2^64-1-0x1000000,2⟩ (by decide) rfl ?_
  exact ⟨0x1000000,by decide,by decide,by decide,by decide⟩

/-- A map as a firmware reports it. -/
def plainMap : BootInfo :=
  ⟨[⟨0,0x9FC00,1⟩,⟨0xF0000,0x10000,2⟩,⟨0x100000,0x6F00000,1⟩,⟨0xFFFC0000,0x40000,2⟩],0x100000,0x200000⟩

theorem shielded_iff_plain :
    plainMap.Shielded 0xFFFFFFFF80300000 (pmmInit (some plainMap) 0xFFFFFFFF80300000).bitmap := by
  refine (shielded_iff plainMap 0xFFFFFFFF80300000 (by decide) (by decide) (by decide) (by decide)).mpr ?_
  intro e he hr hno
  have hrounds : ∀ e ∈ plainMap.memoryMap, Rounds (e.base+e.length) := by decide
  exact absurd (hrounds e he) hno

end Memory
end DonsOs
