import DonsOs.Lib.Census
import DonsOs.Memory.Supply
import DonsOs.Memory.Frames

/-! `pmm.c` with its records.
Beside the bitmap the allocator keeps the type of every page, the number of free pages and the
number of pages of each type, and updates them by hand in every operation.  Addresses come from
callers and may be anything: all operations work on the page that has the address. -/
namespace DonsOs
namespace Memory

open Run Census

structure Accounts extends Pmm where
  type : ℕ → PageType
  freePages : BitVec 64
  pagesByType : PageType → BitVec 64

/-! `pmm_init`. -/

/-- The bit and the type of a page. -/
def Accounts.enter (b : Accounts) (page : ℕ) (inUse : Bool) (t : PageType) : Accounts :=
  { b with
    bitmap := Function.update b.bitmap page inUse
    type := Function.update b.type page t }

/-- A page of usable memory.  The count of reserved pages is not lowered. -/
def Accounts.supply (b : Accounts) (page : ℕ) : Accounts :=
  { b.enter page false .free with
    freePages := b.freePages+1
    pagesByType := Function.update b.pagesByType .free (b.pagesByType .free+1) }

/-- A free page that a later pass takes back. -/
def Accounts.withhold (t : PageType) (b : Accounts) (page : ℕ) : Accounts :=
  { b.enter page true t with
    freePages := b.freePages-1
    pagesByType := recount b.pagesByType .free t }

/-- One loop of a pass, as `mark`: each page below `pages` whose bit is not `v` yet. -/
def sweep (v : Bool) (act : Accounts → ℕ → Accounts) (pages : ℕ) : List ℕ → Accounts → Accounts
  | [], b => b
  | page::rest, b =>
    sweep v act pages rest (if page < pages then if b.bitmap page = v then b else act b page else b)

/-- A pass over the entries whose type is selected, as `mapPass`. -/
def mapSweep (sel : ℕ → Bool) (v : Bool) (act : Accounts → ℕ → Accounts) (max pages : ℕ) :
    List MapEntry → Accounts → Accounts
  | [], b => b
  | e::es, b =>
    mapSweep sel v act max pages es (if sel e.type then
      sweep v act pages (pagesBetween (e.base/4096*4096) (roundUp e.last) max) b
    else b)

/-- Every page is reserved, and none is counted as such. -/
def blankAccounts : Accounts where
  zones := noZones
  bitmap _ := true
  refCount _ := 0
  nextLow := 0
  nextHigh := 0
  type _ := .reserved
  freePages := 0
  pagesByType _ := 0

/-- A page of the fixed layout: the first 16 MB are the kernel's. -/
def fallbackPage (b : Accounts) (page : ℕ) : Accounts :=
  if page*4096 < 16*1024*1024 then
    { b.enter page true .kernel with
      pagesByType := Function.update b.pagesByType .kernel (b.pagesByType .kernel+1) }
  else b.supply page

def fallbackAccounts : Accounts := (List.range maxPages).foldl fallbackPage blankAccounts

def Accounts.computeZones (b : Accounts) (pages : ℕ) : Accounts :=
  { b with toPmm := pmmOf b.bitmap pages }

def passes (info : BootInfo) (kernelEnd : ℕ) : Accounts :=
  let max := info.maxPhysical
  let pages := info.maxPages
  let b := mapSweep usable false Accounts.supply max pages info.memoryMap blankAccounts
  let b := sweep true (Accounts.withhold .kernel) pages (pagesBetween 0 0x100000 0x100000) b
  let b := sweep true (Accounts.withhold .kernel) pages
    (pagesBetween (info.kernelPhysStart/4096*4096) (roundUp (info.kend kernelEnd)) max) b
  mapSweep reserved true (Accounts.withhold .reserved) max pages info.memoryMap b

/-- `pmm_init` with all records. -/
def initAccounts (info : Option BootInfo) (kernelEnd : ℕ) : Accounts :=
  match info with
  | none => fallbackAccounts.computeZones maxPages
  | some info =>
    if info.memoryMap = [] then fallbackAccounts.computeZones maxPages
    else (passes info kernelEnd).computeZones info.maxPages

/-! The operations. -/

def Accounts.pmmAllocPage (b : Accounts) (t : PageType) : Option (ℕ × Accounts) :=
  (Memory.pmmAllocPage b.toPmm t).map fun r => (r.1,
    { b with
      toPmm := r.2
      type := Function.update b.type r.1 t
      freePages := b.freePages-1
      pagesByType := recount b.pagesByType .free t })

/-- The cursors go back to a page that became free. -/
def Pmm.rewind (p : Pmm) (page : ℕ) : Pmm :=
  { p with
    nextLow := if p.zones.lowStart ≤ page ∧ page ≤ p.zones.lowEnd ∧ page < p.nextLow then page
      else p.nextLow
    nextHigh := if p.zones.highStart ≤ page ∧ page ≤ p.zones.highEnd ∧ p.nextHigh < page then page
      else p.nextHigh }

/-- A page in use becomes free; the end of `pmm_free_page` and of `pmm_unreserve_page`. -/
def Accounts.vacate (b : Accounts) (page : ℕ) : Accounts :=
  { b with
    toPmm := { b.toPmm with bitmap := Function.update b.bitmap page false }.rewind page
    type := Function.update b.type page .free
    freePages := b.freePages+1
    pagesByType := recount b.pagesByType (b.type page) .free }

def Accounts.pmmFreePage (b : Accounts) (phys : ℕ) : Accounts :=
  if phys = 0 then b else
  let page := phys/4096
  if maxPages ≤ page then b else
  if b.bitmap page = false then b else
  let b := { b with refCount := Function.update b.refCount page (b.refCount page-1) }
  if b.refCount page = 0 then b.vacate page else b

def Accounts.pmmReservePage (b : Accounts) (phys : ℕ) : Accounts :=
  let page := phys/4096
  if maxPages ≤ page then b else
  if b.bitmap page then
    { b with
      type := Function.update b.type page .reserved
      pagesByType := recount b.pagesByType (b.type page) .reserved }
  else
    { b.enter page true .reserved with
      refCount := Function.update b.refCount page 1
      freePages := b.freePages-1
      pagesByType := recount b.pagesByType .free .reserved }

def Accounts.pmmUnreservePage (b : Accounts) (phys : ℕ) : Accounts :=
  let page := phys/4096
  if maxPages ≤ page then b else
  if b.type page = .reserved then b.vacate page else b

inductive PmmCall where
  | alloc (type : PageType)
  | free (phys : ℕ)
  | reserve (phys : ℕ)
  | unreserve (phys : ℕ)
deriving DecidableEq

def Accounts.step (b : Accounts) : PmmCall → Option Accounts
  | .alloc type => some (((b.pmmAllocPage type).map Prod.snd).getD b)
  | .free phys => some (b.pmmFreePage phys)
  | .reserve phys => some (b.pmmReservePage phys)
  | .unreserve phys => some (b.pmmUnreservePage phys)

/-- On the address of a frame, `pmm_free_page` is the operation on frames. -/
theorem freePage_toPmm (b : Accounts) (page : ℕ) :
    (b.pmmFreePage (page*4096)).toPmm = pmmFreePage b.toPmm page := by
  have hdiv : page*4096/4096 = page := Nat.mul_div_cancel page (by omega)
  simp only [Accounts.pmmFreePage,pmmFreePage,hdiv]
  by_cases h0 : page = 0
  · simp [h0]
  by_cases hm : maxPages ≤ page
  · simp [hm]
  cases hb : b.bitmap page with
  | false => simp [h0,hm]
  | true =>
    have hne : ¬page*4096 = 0 := by omega
    simp only [hne,h0,hm,Bool.true_eq_false,or_self,if_false,Function.update_self]
    split <;> rfl

/-! The passes agree with the bitmap of `pmm_init`. -/

section
variable {v : Bool} {act : Accounts → ℕ → Accounts} {pages max : ℕ}

theorem sweep_bitmap (h : ∀ b page, (act b page).bitmap = Function.update b.bitmap page v)
    (l : List ℕ) (b : Accounts) : (sweep v act pages l b).bitmap = mark v pages l b.bitmap := by
  induction l generalizing b with
  | nil => rfl
  | cons page l ih =>
    rw [sweep,mark,ih]
    congr 1
    split_ifs
    · rfl
    · exact h b page
    · rfl

theorem mapSweep_bitmap (h : ∀ b page, (act b page).bitmap = Function.update b.bitmap page v)
    (sel : ℕ → Bool) (es : List MapEntry) (b : Accounts) :
    (mapSweep sel v act max pages es b).bitmap = mapPass sel v max pages es b.bitmap := by
  induction es generalizing b with
  | nil => rfl
  | cons e es ih =>
    rw [mapSweep,mapPass,ih]
    congr 1
    split_ifs
    · exact sweep_bitmap h _ b
    · rfl

/-- What the action keeps on the pages it is applied to, a pass keeps. -/
theorem sweep_keeps {P : Accounts → Prop}
    (h : ∀ b page, page < pages → b.bitmap page = !v → P b → P (act b page)) (l : List ℕ)
    {b : Accounts} (hb : P b) : P (sweep v act pages l b) := by
  induction l generalizing b with
  | nil => exact hb
  | cons page l ih =>
    rw [sweep]
    apply ih
    split_ifs with hp hv
    · exact hb
    · exact h b page hp (by cases v <;> simpa using hv) hb
    · exact hb

theorem mapSweep_keeps {P : Accounts → Prop}
    (h : ∀ b page, page < pages → b.bitmap page = !v → P b → P (act b page)) (sel : ℕ → Bool)
    (es : List MapEntry) {b : Accounts} (hb : P b) : P (mapSweep sel v act max pages es b) := by
  induction es generalizing b with
  | nil => exact hb
  | cons e es ih =>
    rw [mapSweep]
    apply ih
    split_ifs
    · exact sweep_keeps h _ hb
    · exact hb

end

theorem passes_bitmap (info : BootInfo) (kernelEnd : ℕ) :
    (passes info kernelEnd).bitmap = initBitmap info kernelEnd := by
  have hs : ∀ (b : Accounts) page, (b.supply page).bitmap = Function.update b.bitmap page false :=
    fun _ _ => rfl
  have hw : ∀ t (b : Accounts) page,
      (b.withhold t page).bitmap = Function.update b.bitmap page true := fun _ _ _ => rfl
  rw [passes,mapSweep_bitmap (hw .reserved),sweep_bitmap (hw .kernel),sweep_bitmap (hw .kernel),
    mapSweep_bitmap hs]
  rfl

theorem fallbackPages_bitmap (n page : ℕ) :
    ((List.range n).foldl fallbackPage blankAccounts).bitmap page =
      decide (page*4096 < 16*1024*1024 ∨ n ≤ page) := by
  induction n with
  | zero => simp [blankAccounts]
  | succ n ih =>
    rw [List.range_succ,List.foldl_append,List.foldl_cons,List.foldl_nil,fallbackPage]
    by_cases hp : page = n
    · subst hp
      split_ifs with h
      · simp [Accounts.enter,h]
      · simp only [Accounts.supply,Accounts.enter,Function.update_self]
        symm
        simp only [decide_eq_false_iff_not]
        omega
    · have hdec : (n+1 ≤ page) ↔ n ≤ page := by omega
      split_ifs <;> simp [Accounts.supply,Accounts.enter,Function.update_of_ne hp,ih,hdec]

theorem fallbackAccounts_bitmap : fallbackAccounts.bitmap = fallbackBitmap := by
  funext page
  rw [fallbackAccounts,fallbackPages_bitmap,fallbackBitmap]

theorem initAccounts_toPmm (info : Option BootInfo) (kernelEnd : ℕ) :
    (initAccounts info kernelEnd).toPmm = pmmInit info kernelEnd := by
  cases info with
  | none => rw [initAccounts,pmmInit,Accounts.computeZones,fallbackAccounts_bitmap]
  | some info =>
    simp only [initAccounts,pmmInit]
    split_ifs
    · rw [Accounts.computeZones,fallbackAccounts_bitmap]
    · rw [Accounts.computeZones,passes_bitmap]

/-! The records agree. -/

/-- A bit is clear exactly for a free page, and the counters are right, but for reserved pages. -/
structure Accounts.Balanced (b : Accounts) : Prop where
  bits : ∀ page, b.bitmap page = false ↔ b.type page = .free
  free : b.freePages = b.pagesByType .free
  counts : Counts (· ≠ .reserved) maxPages b.type b.pagesByType

variable {t : PageType} {b' : Accounts} {p p' : Pmm}

/-- What every operation does to a page: it gets the type `t`, and all records follow. -/
theorem Accounts.Balanced.relabel {b : Accounts} (h : b.Balanced) {p : ℕ}
    (hp : p < maxPages) (hbit : b'.bitmap = Function.update b.bitmap p (decide (t ≠ .free)))
    (htype : b'.type = Function.update b.type p t)
    (hfree : b'.freePages =
      b.freePages-(if b.type p = .free then 1 else 0)+(if t = .free then 1 else 0))
    (hcount : ∀ k, k ≠ .reserved → b'.pagesByType k = recount b.pagesByType (b.type p) t k) :
    b'.Balanced := by
  refine ⟨fun g => ?_,?_,?_⟩
  · rw [hbit,htype,Function.update_apply,Function.update_apply]
    by_cases hg : g = p
    · simp [hg]
    · simp [hg,h.bits g]
  · rw [hcount .free (by simp),recount_apply,hfree,h.free]
  · rw [htype]
    exact h.counts.relabel hp hcount

section
variable {b : Accounts} {page : ℕ}

section

variable (h : b.Balanced)
include h

theorem Accounts.Balanced.withhold (hp : page < maxPages)
    (hb : b.bitmap page = false) (ht : t ≠ .free) : (b.withhold t page).Balanced := by
  have htype := (h.bits page).mp hb
  refine h.relabel (t:=t) hp ?_ rfl ?_ fun k _ => ?_
  · simp [Accounts.withhold,Accounts.enter,ht]
  · simp [Accounts.withhold,htype,ht]
  · rw [htype]
    rfl

theorem Accounts.Balanced.supply (hp : page < maxPages)
    (ht : b.type page = .reserved) : (b.supply page).Balanced := by
  refine h.relabel (t:=.free) hp ?_ rfl ?_ fun k hk => ?_
  · simp [Accounts.supply,Accounts.enter]
  · simp [Accounts.supply,ht]
  · rw [ht,recount_apply,if_neg (Ne.symm hk)]
    by_cases hf : k = .free
    · simp [Accounts.supply,hf]
    · simp [Accounts.supply,hf,Ne.symm hf]

theorem Accounts.Balanced.vacate (hp : page < maxPages)
    (ht : b.type page ≠ .free) : (b.vacate page).Balanced := by
  refine h.relabel (t:=.free) hp ?_ rfl ?_ fun k _ => rfl
  · simp [Accounts.vacate,Pmm.rewind]
  · simp [Accounts.vacate,ht]

theorem Accounts.Balanced.alloc (ht : t ≠ .free) {r : ℕ × Accounts}
    (ha : b.pmmAllocPage t = some r) (hp : r.1 < maxPages) : r.2.Balanced := by
  obtain ⟨⟨f,p⟩,hal,rfl⟩ := Option.map_eq_some_iff.mp ha
  obtain ⟨htk,-⟩ := alloc_spec hal
  have htype := (h.bits f).mp htk.free
  refine h.relabel (t:=t) hp ?_ rfl ?_ fun k _ => ?_
  · simp [htk.bitmap,ht]
  · simp [htype,ht]
  · rw [htype]

theorem Accounts.Balanced.reserve (phys : ℕ) : (b.pmmReservePage phys).Balanced := by
  simp only [Accounts.pmmReservePage]
  split_ifs with hm hb
  · exact h
  · have ht : b.type (phys/4096) ≠ .free := fun he => by
      rw [(h.bits _).mpr he] at hb
      cases hb
    refine h.relabel (t:=.reserved) (p:=phys/4096) (by omega) ?_ rfl ?_ fun k _ => rfl
    · simp [← hb]
    · simp [ht]
  · have ht : b.type (phys/4096) = .free := (h.bits _).mp (by simpa using hb)
    refine h.relabel (t:=.reserved) (p:=phys/4096) (by omega) ?_ rfl ?_ fun k _ => ?_
    · simp [Accounts.enter]
    · simp [ht]
    · rw [ht]

theorem Accounts.Balanced.unreserve (phys : ℕ) : (b.pmmUnreservePage phys).Balanced := by
  simp only [Accounts.pmmUnreservePage]
  split_ifs with hm ht
  · exact h
  · exact h.vacate (by omega) (by simp [ht])
  · exact h

theorem Accounts.Balanced.freePage (phys : ℕ) : (b.pmmFreePage phys).Balanced := by
  simp only [Accounts.pmmFreePage]
  split_ifs with h0 hm hb hc
  · exact h
  · exact h
  · exact h
  · refine Accounts.Balanced.vacate ⟨h.bits,h.free,h.counts⟩ (by omega) fun he => hb ?_
    exact (h.bits _).mpr he
  · exact ⟨h.bits,h.free,h.counts⟩

end

end

/-! `pmm_init` leaves the records in agreement. -/

theorem blankAccounts_balanced : blankAccounts.Balanced := by
  refine ⟨fun page => by simp [blankAccounts],rfl,fun k hk => ?_⟩
  simp [blankAccounts,tally_const_of_ne (Ne.symm hk)]

/-- The first pass finds every page that is in use reserved. -/
structure Accounts.Unclaimed (b : Accounts) : Prop where
  balanced : b.Balanced
  reserved : ∀ page, b.bitmap page = true → b.type page = .reserved

theorem Accounts.Unclaimed.supply {b : Accounts} (h : b.Unclaimed) {page : ℕ} (hp : page < maxPages)
    (hb : b.bitmap page = true) : (b.supply page).Unclaimed := by
  refine ⟨h.balanced.supply hp (h.reserved page hb),fun g hg => ?_⟩
  simp only [Accounts.supply,Accounts.enter,Function.update_apply] at hg ⊢
  split_ifs at hg ⊢
  exact h.reserved g hg

theorem passes_balanced (info : BootInfo) (kernelEnd : ℕ) : (passes info kernelEnd).Balanced := by
  have hmax : info.maxPages ≤ maxPages := Nat.min_le_right _ _
  have hblank : blankAccounts.Unclaimed := ⟨blankAccounts_balanced,fun _ _ => rfl⟩
  have husable : (mapSweep usable false Accounts.supply info.maxPhysical info.maxPages info.memoryMap
      blankAccounts).Unclaimed :=
    mapSweep_keeps (fun b page hp hb h => h.supply (by omega) (by simpa using hb)) _ _ hblank
  have hw : ∀ t, t ≠ .free → ∀ (b : Accounts) page, page < info.maxPages → b.bitmap page = !true →
      b.Balanced → (b.withhold t page).Balanced :=
    fun t ht b page hp hb h => h.withhold (by omega) (by simpa using hb) ht
  rw [passes]
  apply mapSweep_keeps (hw .reserved (by simp))
  apply sweep_keeps (hw .kernel (by simp))
  apply sweep_keeps (hw .kernel (by simp))
  exact husable.balanced

/-- The fixed layout: after `n` pages the rest is still reserved. -/
theorem fallbackPages_balanced {n : ℕ} (hn : n ≤ maxPages) :
    ((List.range n).foldl fallbackPage blankAccounts).Balanced ∧
      ∀ page, n ≤ page → ((List.range n).foldl fallbackPage blankAccounts).type page = .reserved := by
  induction n with
  | zero => exact ⟨blankAccounts_balanced,fun _ _ => rfl⟩
  | succ n ih =>
    obtain ⟨hbal,hres⟩ := ih (by omega)
    rw [List.range_succ,List.foldl_append,List.foldl_cons,List.foldl_nil,fallbackPage]
    have hn' := hres n le_rfl
    split_ifs with hk
    · refine ⟨hbal.relabel (t:=.kernel) (p:=n) (by omega) ?_ rfl ?_ fun k hne => ?_,fun page hp => ?_⟩
      · simp [Accounts.enter]
      · simp [Accounts.enter,hn']
      · rw [hn',recount_apply,if_neg (Ne.symm hne)]
        by_cases hf : k = .kernel
        · simp [hf]
        · simp [hf,Ne.symm hf]
      · simp [Accounts.enter,Function.update_of_ne (show page ≠ n by omega),hres page (by omega)]
    · refine ⟨hbal.supply (by omega) hn',fun page hp => ?_⟩
      simp [Accounts.supply,Accounts.enter,Function.update_of_ne (show page ≠ n by omega),
        hres page (by omega)]

theorem Accounts.Balanced.computeZones {b : Accounts} (h : b.Balanced) (pages : ℕ) :
    (b.computeZones pages).Balanced := ⟨h.bits,h.free,h.counts⟩

theorem initAccounts_balanced (info : Option BootInfo) (kernelEnd : ℕ) :
    (initAccounts info kernelEnd).Balanced := by
  have hfall := (fallbackPages_balanced le_rfl).1.computeZones maxPages
  cases info with
  | none => exact hfall
  | some info =>
    rw [initAccounts]
    split_ifs
    · exact hfall
    · exact (passes_balanced info kernelEnd).computeZones _

/-! The cursors. -/

/-- Behind the cursors no page is free; below 2 MB the cursor of the LOW zone may have passed
free pages. -/
structure Pmm.Swept (p : Pmm) : Prop where
  within : p.zones.lowStart ≤ p.nextLow ∧ p.nextLow ≤ p.zones.lowEnd ∧
    p.zones.highStart ≤ p.nextHigh ∧ p.nextHigh ≤ p.zones.highEnd
  low : ∀ f, p.zones.lowStart ≤ f → f < p.nextLow → 512 ≤ f → p.bitmap f = true
  high : ∀ f, p.nextHigh < f → f ≤ p.zones.highEnd → p.bitmap f = true

/-- The scan of the HIGH zone stops at the first free page from above. -/
theorem find_reverse_range {start n f : ℕ} {free : ℕ → Bool}
    (h : (List.range' start n).reverse.find? free = some f) :
    ∀ g, f < g → g < start+n → free g = false := by
  intro g hfg hg
  obtain ⟨-,xs,ys,hl,hxs⟩ := List.find?_eq_some_iff_append.mp h
  have hf := List.mem_range'_1.mp (List.mem_reverse.mp (List.mem_of_find?_eq_some h))
  have hmem : g ∈ xs++f::ys := by
    rw [← hl]
    exact List.mem_reverse.mpr (List.mem_range'_1.mpr ⟨by omega,hg⟩)
  have hdown : (xs++f::ys).Pairwise (· > ·) := by
    rw [← hl]
    exact pairwise_downFrom start n
  rcases List.mem_append.mp hmem with hx | hy
  · simpa using hxs g hx
  · rcases List.mem_cons.mp hy with rfl | hy
    · omega
    · have hlt := List.rel_of_pairwise_cons (List.pairwise_append.mp hdown).2.1 hy
      omega

/-- The pages that an allocation passes over are in use, but for those below 2 MB, and the
cursor moves to the page taken or past it. -/
theorem alloc_passes {f : ℕ} (ha : pmmAllocPage p t = some (f,p')) : if t.user then
      p'.nextHigh = (if p.zones.highStart < f then f-1 else p.zones.highStart) ∧
        ∀ g, f < g → g ≤ p.nextHigh → p.bitmap g = true
    else p'.nextLow = (if f < p.zones.lowEnd then f+1 else p.zones.lowEnd) ∧
        ∀ g, p.nextLow ≤ g → g < f → 512 ≤ g → p.bitmap g = true := by
  obtain ⟨-,hcase⟩ := alloc_spec ha
  simp only [pmmAllocPage] at ha
  rcases hcase with ⟨hu,hge,-⟩ | ⟨hu,-⟩
  · rw [if_pos (by simpa [PageType.user] using hu)] at ha
    split at ha
    · cases ha
    · obtain ⟨page,hfind,he⟩ := Option.map_eq_some_iff.mp ha
      obtain ⟨rfl,rfl⟩ := Prod.mk.inj he
      rw [if_pos hu]
      refine ⟨rfl,fun g hg hg' => ?_⟩
      have hno := find_reverse_range hfind g hg (by omega)
      simpa using hno
  · rw [if_neg (by simpa [PageType.user] using hu)] at ha
    split at ha
    · cases ha
    · obtain ⟨page,hfind,he⟩ := Option.map_eq_some_iff.mp ha
      obtain ⟨rfl,rfl⟩ := Prod.mk.inj he
      rw [if_neg (by simp [hu])]
      refine ⟨rfl,fun g hg hg' hg'' => ?_⟩
      have hno := (List.find?_range'_eq_some.mp hfind).2.2 g hg hg'
      have hskip : ¬g*4096 < 0x200000 := by omega
      simp only [hskip,and_false,not_false_eq_true,true_and] at hno
      simpa using hno

theorem Pmm.Swept.alloc (h : p.Swept) {f : ℕ}
    (ha : pmmAllocPage p t = some (f,p')) : p'.Swept ∧ f < maxPages := by
  obtain ⟨htk,hcase⟩ := alloc_spec ha
  have hpass := alloc_passes ha
  have hlow := p.zones.low_lt
  have hhigh := p.zones.high_lt
  have hin := h.within
  have hkept : ∀ g, p.bitmap g = true ∨ g = f → p'.bitmap g = true := by
    intro g hg
    rw [htk.bitmap,Function.update_apply]
    split_ifs with hgf
    · rfl
    · exact hg.resolve_right hgf
  refine ⟨?_,by omega⟩
  rcases hcase with ⟨hu,hge,hle,hn,-⟩ | ⟨hu,hge,hle,-,hn⟩
  · rw [if_pos hu] at hpass
    obtain ⟨hnext,hused⟩ := hpass
    refine ⟨?_,fun g hg hg' hg'' => hkept g ?_,fun g hg hg' => hkept g ?_⟩ <;>
      rw [htk.zones] at * <;> rw [hn] at * <;> rw [hnext] at *
    · split_ifs <;> omega
    · exact Or.inl (h.low g hg hg' hg'')
    · by_cases hgf : g = f
      · exact Or.inr hgf
      · by_cases hgn : g ≤ p.nextHigh
        · exact Or.inl (hused g (by split_ifs at hg <;> omega) hgn)
        · exact Or.inl (h.high g (by omega) hg')
  · rw [if_neg (by simp [hu])] at hpass
    obtain ⟨hnext,hused⟩ := hpass
    refine ⟨?_,fun g hg hg' hg'' => hkept g ?_,fun g hg hg' => hkept g ?_⟩ <;>
      rw [htk.zones] at * <;> rw [hn] at * <;> rw [hnext] at *
    · split_ifs <;> omega
    · by_cases hgf : g = f
      · exact Or.inr hgf
      · by_cases hgn : p.nextLow ≤ g
        · exact Or.inl (hused g hgn (by split_ifs at hg' <;> omega) hg'')
        · exact Or.inl (h.low g hg (by omega) hg'')
    · exact Or.inl (h.high g hg hg')

/-- A page that becomes free is not behind the cursors, which go back to it. -/
theorem Pmm.Swept.rewind (h : p.Swept) (page : ℕ) :
    ({ p with bitmap := Function.update p.bitmap page false }.rewind page).Swept := by
  have hin := h.within
  have hkept : ∀ g, g ≠ page → p.bitmap g = true → Function.update p.bitmap page false g = true :=
    fun g hg hb => by rwa [Function.update_of_ne hg]
  refine ⟨?_,fun g hg hg' hg'' => ?_,fun g hg hg' => ?_⟩ <;> simp only [Pmm.rewind] at *
  · split_ifs <;> omega
  · refine hkept g ?_ (h.low g hg ?_ hg'') <;> split_ifs at hg' <;> omega
  · refine hkept g ?_ (h.high g ?_ hg') <;> split_ifs at hg <;> omega

/-- More bits may be set, and the reference counts do not matter. -/
theorem Pmm.Swept.mono (h : p.Swept) (hz : p'.zones = p.zones)
    (hl : p'.nextLow = p.nextLow) (hh : p'.nextHigh = p.nextHigh)
    (hb : ∀ f, p.bitmap f = true → p'.bitmap f = true) : p'.Swept := by
  refine ⟨?_,fun f => ?_,fun f => ?_⟩ <;> rw [hz]
  · rw [hl,hh]
    exact h.within
  · rw [hl]
    exact fun h1 h2 h3 => hb f (h.low f h1 h2 h3)
  · rw [hh]
    exact fun h1 h2 => hb f (h.high f h1 h2)

theorem zonesOf_ordered (bitmap : ℕ → Bool) (pages : ℕ) :
    (zonesOf bitmap pages).lowStart ≤ (zonesOf bitmap pages).lowEnd ∧
      (zonesOf bitmap pages).highStart ≤ (zonesOf bitmap pages).highEnd := by
  simp only [zonesOf]
  split_ifs
  · simp [noZones]
  · simp only [pmmComputeZones]
    split_ifs with hz
    · exact ⟨Nat.le_add_right _ _,hz⟩
    · exact ⟨Nat.le_add_right _ _,le_rfl⟩
  · simp [noZones]

theorem pmmOf_swept (bitmap : ℕ → Bool) (pages : ℕ) : (pmmOf bitmap pages).Swept := by
  obtain ⟨hl,hh⟩ := zonesOf_ordered bitmap pages
  refine ⟨⟨le_rfl,hl,hh,le_rfl⟩,fun f h1 h2 => ?_,fun f h1 h2 => ?_⟩ <;> simp only [pmmOf] at h1 h2 <;>
    omega

theorem pmmInit_swept (info : Option BootInfo) (kernelEnd : ℕ) : (pmmInit info kernelEnd).Swept := by
  cases info with
  | none => exact pmmOf_swept _ _
  | some info =>
    rw [pmmInit]
    split_ifs <;> exact pmmOf_swept _ _

/-! Histories. -/

/-- What holds in every state that the operations reach. -/
structure Accounts.Sound (b : Accounts) : Prop where
  swept : b.toPmm.Swept
  typed : ∀ page, b.bitmap page = false → b.type page = .free

theorem Accounts.Sound.vacate {b : Accounts} (h : b.Sound) (page : ℕ) : (b.vacate page).Sound := by
  refine ⟨h.swept.rewind page,fun g hg => ?_⟩
  simp only [Accounts.vacate,Pmm.rewind,Function.update_apply] at hg ⊢
  split_ifs at hg ⊢
  · rfl
  · exact h.typed g hg

theorem Accounts.Sound.step {b : Accounts} (h : b.Sound) {c : PmmCall} (hs : b.step c = some b') :
    b'.Sound := by
  cases c with
  | alloc t =>
    simp only [Accounts.step,Accounts.pmmAllocPage,Option.some.injEq] at hs
    subst hs
    cases ha : Memory.pmmAllocPage b.toPmm t with
    | none => exact h
    | some r =>
      obtain ⟨f,p⟩ := r
      refine ⟨(h.swept.alloc ha).1,fun g hg => ?_⟩
      simp only [Option.map_some,Option.getD_some,(alloc_spec ha).1.bitmap] at hg ⊢
      rw [Function.update_apply] at hg ⊢
      split_ifs at hg ⊢
      exact h.typed g hg
  | free phys =>
    simp only [Accounts.step,Accounts.pmmFreePage,Option.some.injEq] at hs
    subst hs
    split_ifs
    · exact h
    · exact h
    · exact h
    · apply Accounts.Sound.vacate
      exact ⟨h.swept.mono rfl rfl rfl fun _ hf => hf,h.typed⟩
    · exact ⟨h.swept.mono rfl rfl rfl fun _ hf => hf,h.typed⟩
  | reserve phys =>
    simp only [Accounts.step,Accounts.pmmReservePage,Option.some.injEq] at hs
    subst hs
    split_ifs with hm hb
    · exact h
    · refine ⟨h.swept,fun g hg => ?_⟩
      have hne : g ≠ phys/4096 := fun he => by
        rw [he] at hg
        exact absurd (hg.symm.trans hb) (by simp)
      simpa [Function.update_of_ne hne] using h.typed g hg
    · refine ⟨h.swept.mono rfl rfl rfl fun f hf => ?_,fun g hg => ?_⟩ <;>
        simp only [Accounts.enter,Function.update_apply] at *
      · split_ifs <;> trivial
      · split_ifs at hg ⊢
        exact h.typed g hg
  | unreserve phys =>
    simp only [Accounts.step,Accounts.pmmUnreservePage,Option.some.injEq] at hs
    subst hs
    split_ifs
    · exact h
    · exact h.vacate _
    · exact h

variable {info : Option BootInfo} {kernelEnd : ℕ} {calls : List PmmCall} {b : Accounts}

theorem run_sound (hr : run Accounts.step (initAccounts info kernelEnd) calls = some b) : b.Sound := by
  refine run_keeps Accounts.Sound (fun _ _ _ h => h.step) ⟨?_,fun page => ?_⟩ hr
  · rw [initAccounts_toPmm]
    exact pmmInit_swept info kernelEnd
  · exact ((initAccounts_balanced info kernelEnd).bits page).mp

theorem Accounts.Balanced.step {b : Accounts} (h : b.Balanced) (hs : b.Sound) {c : PmmCall}
    (hc : c ≠ .alloc .free) (hstep : b.step c = some b') : b'.Balanced := by
  cases c with
  | alloc t =>
    simp only [Accounts.step,Option.some.injEq] at hstep
    subst hstep
    cases ha : b.pmmAllocPage t with
    | none => exact h
    | some r =>
      refine h.alloc (fun ht => hc (by rw [ht])) ha ?_
      obtain ⟨⟨f,p⟩,hal,rfl⟩ := Option.map_eq_some_iff.mp ha
      exact (hs.swept.alloc hal).2
  | free phys => exact Option.some.inj hstep ▸ h.freePage phys
  | reserve phys => exact Option.some.inj hstep ▸ h.reserve phys
  | unreserve phys => exact Option.some.inj hstep ▸ h.unreserve phys

/-- After `pmm_init` on any memory map and any calls, but for allocations of type free, the
bitmap, the types and the counters agree. -/
theorem accounts_agree (info : Option BootInfo) (kernelEnd : ℕ) (calls : List PmmCall)
    (hc : ∀ c ∈ calls, c ≠ .alloc .free)
    (hr : run Accounts.step (initAccounts info kernelEnd) calls = some b) :
    (∀ page < maxPages, b.bitmap page = false ↔ b.type page = .free) ∧
      b.freePages.toNat = (freeFrames b.toPmm).card ∧ b.freePages = b.pagesByType .free ∧
      ∀ t, t ≠ .reserved → (b.pagesByType t).toNat = tally maxPages b.type t := by
  have hok : Admits Accounts.step (fun _ c => c ≠ .alloc .free) (initAccounts info kernelEnd) calls :=
    admits_of_forall hc _
  have hinit : run Accounts.step (initAccounts info kernelEnd) [] = some _ := rfl
  obtain ⟨hbal,-⟩ := run_invariant (fun b => b.Balanced ∧ b.Sound)
    (fun _ _ _ h hc hs => ⟨h.1.step h.2 hc hs,h.2.step hs⟩)
    ⟨initAccounts_balanced info kernelEnd,run_sound hinit⟩ hok hr
  have hcount : ∀ t, t ≠ .reserved → (b.pagesByType t).toNat = tally maxPages b.type t := by
    intro t ht
    have hle : tally maxPages b.type t ≤ maxPages := tally_le
    have hmax : maxPages = 32768 := rfl
    rw [hbal.counts t ht,BitVec.toNat_ofNat,Nat.mod_eq_of_lt (by omega)]
  refine ⟨fun page _ => hbal.bits page,?_,hbal.free,hcount⟩
  rw [hbal.free,hcount .free (by simp),freeFrames,tally,Nat.count_eq_card_filter_range]
  exact congrArg Finset.card (Finset.filter_congr fun page _ => (hbal.bits page).symm)

/-- An allocation, a page reserved and given back, and a page of the kernel freed. -/
def mixedCalls : List PmmCall :=
  [.alloc .userData,.reserve 0x1000,.unreserve 0x1000,.free 0x2001]

theorem accounts_agree_mixed : ∃ b, run Accounts.step (initAccounts none 0) mixedCalls = some b ∧
    b.freePages.toNat = (freeFrames b.toPmm).card :=
  ⟨_,rfl,(accounts_agree none 0 mixedCalls (by decide) rfl).2.1⟩

/-! When an allocation fails. -/

/-- A page of the LOW zone; with both bounds 0 there is none. -/
def Zones.HasLow (z : Zones) (f : ℕ) : Prop :=
  ¬(z.lowStart = 0 ∧ z.lowEnd = 0) ∧ z.lowStart ≤ f ∧ f ≤ z.lowEnd

def Zones.HasHigh (z : Zones) (f : ℕ) : Prop :=
  ¬(z.highStart = 0 ∧ z.highEnd = 0) ∧ z.highStart ≤ f ∧ f ≤ z.highEnd

/-- The types that never get a page below 2 MB. -/
def PageType.above (t : PageType) : Bool := t = .kernel ∨ t = .pageTable ∨ t = .reserved

theorem PageType.above_cases (ht : t.above = true) :
    (t = .kernel ∨ t = .pageTable ∨ t = .reserved) ∧ ¬(t = .userData ∨ t = .userPageTable) := by
  cases t <;> simp [PageType.above] at ht ⊢

theorem alloc_none_user (ht : t.user = true) :
    pmmAllocPage p t = none ↔ (p.zones.highStart = 0 ∧ p.zones.highEnd = 0) ∨
      ∀ f, p.zones.highStart ≤ f → f ≤ p.nextHigh → p.bitmap f = true := by
  rw [pmmAllocPage,if_pos (by simpa [PageType.user] using ht)]
  by_cases hz : p.zones.highStart = 0 ∧ p.zones.highEnd = 0
  · simp only [hz,and_self,if_true,true_or]
  · simp only [hz,if_false,false_or,Option.map_eq_none_iff,List.find?_eq_none,List.mem_reverse,
      List.mem_range'_1,Bool.not_eq_true',Bool.not_eq_false]
    exact ⟨fun h f h1 h2 => h f ⟨h1,by omega⟩,fun h f hf => h f hf.1 (by omega)⟩

theorem alloc_none_above (ht : t.above = true) :
    pmmAllocPage p t = none ↔ (p.zones.lowStart = 0 ∧ p.zones.lowEnd = 0) ∨
      ∀ f, p.nextLow ≤ f → f ≤ p.zones.lowEnd → 512 ≤ f → p.bitmap f = true := by
  obtain ⟨habove,huser⟩ := PageType.above_cases ht
  have hskip : ∀ f, ¬f*4096 < 0x200000 ↔ 512 ≤ f := fun f => by omega
  rw [pmmAllocPage,if_neg huser]
  by_cases hz : p.zones.lowStart = 0 ∧ p.zones.lowEnd = 0
  · simp only [hz,and_self,if_true,true_or]
  · simp only [hz,if_false,false_or,Option.map_eq_none_iff,List.find?_eq_none,List.mem_range'_1,habove,
      true_and,hskip,decide_eq_true_eq,not_and,Bool.not_eq_false]
    exact ⟨fun h f h1 h2 => h f ⟨h1,by omega⟩,fun h f hf => h f hf.1 (by omega)⟩

/-- No allocation gets page 0: the HIGH zone begins above the LOW zone, and what lies below
2 MB is passed over. -/
theorem allocResult_eq_zero (ht : t.user = true ∨ t.above = true) :
    allocResult p t = 0 ↔ pmmAllocPage p t = none := by
  cases ha : pmmAllocPage p t with
  | none => simp [allocResult,ha]
  | some r =>
    obtain ⟨f,p'⟩ := r
    suffices hf : f ≠ 0 by
      simp only [allocResult,ha,reduceCtorEq,iff_false]
      omega
    rcases ht with ht | ht
    · have hapart := p.zones.apart
      have hz : ¬(p.zones.highStart = 0 ∧ p.zones.highEnd = 0) := fun hz => by
        rw [(alloc_none_user ht).mpr (Or.inl hz)] at ha
        cases ha
      rcases (alloc_spec ha).2 with hc | hc
      · omega
      · exact absurd (hc.1.symm.trans ht) (by simp)
    · obtain ⟨habove,huser⟩ := PageType.above_cases ht
      simp only [pmmAllocPage,if_neg huser] at ha
      split at ha
      · cases ha
      · obtain ⟨page,hfind,he⟩ := Option.map_eq_some_iff.mp ha
        have hpage := List.find?_some hfind
        simp only [habove,true_and,decide_eq_true_eq] at hpage
        rw [← (Prod.mk.inj he).1]
        omega

theorem Pmm.Swept.user_iff (h : p.Swept) (ht : t.user = true) :
    pmmAllocPage p t = none ↔ ∀ f, p.zones.HasHigh f → p.bitmap f = true := by
  have hin := h.within
  rw [alloc_none_user ht]
  constructor
  · rintro (hz | hall) f ⟨hne,h1,h2⟩
    · exact absurd hz hne
    · by_cases hf : f ≤ p.nextHigh
      · exact hall f h1 hf
      · exact h.high f (by omega) h2
  · intro hall
    by_cases hz : p.zones.highStart = 0 ∧ p.zones.highEnd = 0
    · exact Or.inl hz
    · exact Or.inr fun f h1 h2 => hall f ⟨hz,h1,by omega⟩

theorem Pmm.Swept.above_iff (h : p.Swept) (ht : t.above = true) :
    pmmAllocPage p t = none ↔ ∀ f, p.zones.HasLow f → 0x200000 ≤ f*4096 → p.bitmap f = true := by
  have hin := h.within
  rw [alloc_none_above ht]
  constructor
  · rintro (hz | hall) f ⟨hne,h1,h2⟩ h3
    · exact absurd hz hne
    · by_cases hf : p.nextLow ≤ f
      · exact hall f hf h2 (by omega)
      · exact h.low f h1 (by omega) (by omega)
  · intro hall
    by_cases hz : p.zones.lowStart = 0 ∧ p.zones.lowEnd = 0
    · exact Or.inl hz
    · exact Or.inr fun f h1 h2 h3 => hall f ⟨hz,by omega,h2⟩ (by omega)

/-- In every state that the operations reach, an allocation fails exactly if its zone has no
free page, for the kernel's types none from 2 MB on. -/
theorem alloc_fails_iff (info : Option BootInfo) (kernelEnd : ℕ) (calls : List PmmCall)
    (hr : run Accounts.step (initAccounts info kernelEnd) calls = some b) (t : PageType) :
    (t.user = true → (allocResult b.toPmm t = 0 ↔ ∀ f, b.zones.HasHigh f → b.bitmap f = true)) ∧
      (t.above = true → (allocResult b.toPmm t = 0 ↔
        ∀ f, b.zones.HasLow f → 0x200000 ≤ f*4096 → b.bitmap f = true)) := by
  have hsw := (run_sound hr).swept
  refine ⟨fun ht => ?_,fun ht => ?_⟩
  · rw [allocResult_eq_zero (Or.inl ht)]
    exact hsw.user_iff ht
  · rw [allocResult_eq_zero (Or.inr ht)]
    exact hsw.above_iff ht

theorem alloc_fails_iff_mixed : ∃ b, run Accounts.step (initAccounts none 0) mixedCalls = some b ∧
    (allocResult b.toPmm .pageTable = 0 ↔
      ∀ f, b.zones.HasLow f → 0x200000 ≤ f*4096 → b.bitmap f = true) :=
  ⟨_,rfl,(alloc_fails_iff none 0 mixedCalls rfl .pageTable).2 rfl⟩

/-! Reserving a page and giving it back. -/

/-- The page and the counters have the same records. -/
structure Accounts.Restores (b b' : Accounts) (page : ℕ) : Prop where
  type : b'.type page = b.type page
  bit : b'.bitmap page = b.bitmap page
  free : b'.freePages = b.freePages
  counts : b'.pagesByType = b.pagesByType

/-- After the two calls the page is free, whatever it was. -/
theorem reserve_unreserve_bit {b : Accounts} {phys : ℕ} (hp : phys/4096 < maxPages) :
    ((b.pmmReservePage phys).pmmUnreservePage phys).bitmap (phys/4096) = false := by
  have ht : (b.pmmReservePage phys).type (phys/4096) = .reserved := by
    simp only [Accounts.pmmReservePage,if_neg (Nat.not_le.mpr hp)]
    split_ifs <;> simp [Accounts.enter]
  simp only [Accounts.pmmUnreservePage,if_neg (Nat.not_le.mpr hp),if_pos ht]
  simp [Accounts.vacate,Pmm.rewind]

theorem recount_back (counts : PageType → BitVec 64) (s t : PageType) :
    recount (recount counts s t) t s = counts := by
  funext k
  simp only [recount_apply]
  abel

theorem Accounts.restores_iff {b : Accounts} (h : b.Sound) {phys : ℕ} (hp : phys/4096 < maxPages) :
    b.Restores ((b.pmmReservePage phys).pmmUnreservePage phys) (phys/4096) ↔
      b.bitmap (phys/4096) = false := by
  constructor
  · intro hres
    rw [← hres.bit]
    exact reserve_unreserve_bit hp
  · intro hb
    have ht := h.typed _ hb
    have hr : b.pmmReservePage phys = { b.enter (phys/4096) true .reserved with
        refCount := Function.update b.refCount (phys/4096) 1
        freePages := b.freePages-1
        pagesByType := recount b.pagesByType .free .reserved } := by
      simp [Accounts.pmmReservePage,Nat.not_le.mpr hp,hb]
    have hu : (b.pmmReservePage phys).pmmUnreservePage phys =
        (b.pmmReservePage phys).vacate (phys/4096) := by
      rw [Accounts.pmmUnreservePage,if_neg (Nat.not_le.mpr hp),if_pos]
      simp [hr,Accounts.enter]
    rw [hu,hr]
    refine ⟨?_,?_,?_,?_⟩ <;> simp [Accounts.vacate,Accounts.enter,Pmm.rewind,ht,hb,recount_back]

/-- Reserving a page and giving it back restores its records exactly if it was free. -/
theorem unreserve_restores_iff (info : Option BootInfo) (kernelEnd : ℕ) (calls : List PmmCall)
    (hr : run Accounts.step (initAccounts info kernelEnd) calls = some b) {phys : ℕ}
    (hp : phys/4096 < maxPages) :
    b.Restores ((b.pmmReservePage phys).pmmUnreservePage phys) (phys/4096) ↔
      b.bitmap (phys/4096) = false := Accounts.restores_iff (run_sound hr) hp

/-- The first page belongs to the kernel, and is free after the two calls. -/
theorem kernel_page_freed : ∃ b, run Accounts.step (initAccounts none 0) [] = some b ∧
    b.bitmap 0 = true ∧ ¬b.Restores ((b.pmmReservePage 0).pmmUnreservePage 0) 0 := by
  have hb : (initAccounts none 0).bitmap 0 = true := by
    rw [initAccounts_toPmm]
    exact init_bitmap_zero none 0
  refine ⟨_,rfl,hb,fun hres => ?_⟩
  have hfree : ((initAccounts none 0).pmmReservePage 0 |>.pmmUnreservePage 0).bitmap (0/4096) = false :=
    reserve_unreserve_bit (by decide)
  rw [Nat.zero_div,hres.bit,hb] at hfree
  cases hfree

theorem free_page_restored : ∃ b, run Accounts.step (initAccounts none 0) [] = some b ∧
    b.Restores ((b.pmmReservePage 0x1000000).pmmUnreservePage 0x1000000) (0x1000000/4096) := by
  have hb : (initAccounts none 0).bitmap (0x1000000/4096) = false := by
    rw [initAccounts_toPmm,pmmInit]
    decide
  exact ⟨_,rfl,(unreserve_restores_iff none 0 [] rfl (by decide)).mpr hb⟩

end Memory
end DonsOs
