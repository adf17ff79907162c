import DonsOs.Memory.BootTables
import DonsOs.Memory.Space
import DonsOs.Memory.Supply

/-! How the kernel arranges its tables and frames.
Tables lie in the LOW zone, data in the HIGH zone.  The tables of the low halves form a
forest, one tree for each address space; those of the kernel heap hang below one entry of the
upper half, which all roots share.  Every primitive of the kernel keeps this arrangement, as
long as it maps no page where the boot tables have large ones. -/
namespace DonsOs
namespace Memory

open Paging

/-- The entry of the root below which the kernel heap lies. -/
def heapSlot : ℕ := 288

/-- What the arrangement does not change: the boot tables, the entries of the upper half, the
zones, and the memory of the kernel itself. -/
structure Layout where
  base : ℕ
  top : ℕ → Word
  low : Mem
  zones : Zones
  below : base+6 < 512
  upper : Top base top
  ordered : zones.lowStart ≤ zones.lowEnd
  apart : zones.lowEnd < zones.highStart
  high : 512 ≤ zones.highStart

/-- The role of each table frame: its place in an address space, or its level below the
entry of the heap. -/
structure Shape where
  ty : Typing
  lv : ℕ → Option ℕ

/-- `σ'` has the tables of `σ` and perhaps more. -/
structure Shape.Le (σ σ' : Shape) : Prop where
  ty : ∀ f x, σ.ty f = some x → σ'.ty f = some x
  lv : ∀ f n, σ.lv f = some n → σ'.lv f = some n

theorem Shape.Le.refl (σ : Shape) : σ.Le σ := ⟨fun _ _ h => h,fun _ _ h => h⟩

theorem Shape.Le.trans {σ σ' σ'' : Shape} (h : σ.Le σ') (h' : σ'.Le σ'') : σ.Le σ'' :=
  ⟨fun f x hf => h'.ty f x (h.ty f x hf),fun f n hf => h'.lv f n (h.lv f n hf)⟩

/-- A root: the boot tables or an address space. -/
def Layout.Rooted (L : Layout) (σ : Shape) (r : ℕ) : Prop := r = L.base ∨ σ.ty r = some (r,[])

/-- Page numbers from 1 GB on. -/
def firstPage : ℕ := 2^18

structure Arranged (L : Layout) (s : Vm) (σ : Shape) : Prop where
  forest : Forest bootLarge s σ.ty
  boot : BootWords L.base s.mem
  high : ∀ r, L.Rooted σ r → HighHalf L.top s.mem r
  active : L.Rooted σ s.cr3
  zones : s.pmm.zones = L.zones
  nextHigh : s.pmm.nextHigh ≤ L.zones.highEnd
  reserved : ∀ f < L.zones.lowStart, s.pmm.bitmap f = true
  own : ∀ f x, σ.ty f = some x → L.zones.lowStart ≤ f
  kernel : ∀ f, 512 ≤ f → f < L.zones.lowStart → s.mem f = L.low f
  data : ∀ r, σ.ty r = some (r,[]) → ∀ n, firstPage ≤ n → n < lowPages → ∀ w,
    pageWord s.mem r n = some w → L.zones.highStart ≤ frameOf w
  heap : ∀ f n, σ.lv f = some n → 512 ≤ f ∧ L.zones.lowStart ≤ f ∧ f ≤ L.zones.lowEnd ∧
    s.pmm.bitmap f = true ∧ σ.ty f = none
  link : ∀ f n i, σ.lv f = some (n+1) → present (s.mem f i) = true →
    σ.lv (frameOf (s.mem f i)) = some n
  slot : present (L.top heapSlot) = true → σ.lv (frameOf (L.top heapSlot)) = some 2

variable {L : Layout} {s s' : Vm} {σ σ' : Shape} {f g i r t n : ℕ}

theorem Arranged.typed (h : Arranged L s σ) {x : ℕ × List ℕ} (hf : σ.ty f = some x) :
    512 ≤ f ∧ f ≤ L.zones.lowEnd ∧ s.pmm.bitmap f = true := by
  rw [← h.zones]
  exact h.forest.typed f x hf

theorem Arranged.rooted_range (h : Arranged L s σ) (hr : L.Rooted σ r) :
    r = L.base ∨ 512 ≤ r ∧ r ≤ L.zones.lowEnd ∧ L.zones.lowStart ≤ r :=
  hr.imp id fun ht => ⟨(h.typed ht).1,(h.typed ht).2.1,h.own r _ ht⟩

/-! Steps that leave the tables in place. -/

theorem Arranged.pmm (h : Arranged L s σ) {p : Pmm} (hz : p.zones = s.pmm.zones)
    (hn : p.nextHigh ≤ L.zones.highEnd) (hb : ∀ f < L.zones.highStart, p.bitmap f = s.pmm.bitmap f) :
    Arranged L { s with pmm := p } σ := by
  have hord := L.ordered
  have hap := L.apart
  refine { h with
    forest := ⟨fun f x hf => ?_,h.forest.root,h.forest.node⟩
    zones := hz.trans h.zones
    nextHigh := hn
    reserved := fun f hf => ?_
    heap := fun f n hf => ?_ }
  · obtain ⟨h1,h2,h3⟩ := h.typed hf
    rw [hz,h.zones]
    exact ⟨h1,h2,(hb f (by omega)).trans h3⟩
  · exact (hb f (by omega)).trans (h.reserved f hf)
  · obtain ⟨h1,h2,h3,h4,h5⟩ := h.heap f n hf
    exact ⟨h1,h2,h3,(hb f (by omega)).trans h4,h5⟩

/-- The kernel's own memory may be anything. -/
def Layout.setLow (L : Layout) (low : Mem) : Layout := { L with low := low }

/-- Below the HIGH zone and outside the kernel's own memory nothing changes, except that entries
of the upper half and of the HHDM may be opened. -/
theorem Arranged.quiet {low : Mem} (h : Arranged L s σ) (hp : s'.pmm = s.pmm) (hc : L.Rooted σ s'.cr3)
    (hlow : ∀ f, 512 ≤ f → f < L.zones.lowStart → s'.mem f = low f)
    (hm : ∀ g < L.zones.highStart, g < 512 ∨ L.zones.lowStart ≤ g → ∀ i,
      s'.mem g i = s.mem g i ∨ Opens (s.mem g i) (s'.mem g i) ∧
        (L.Rooted σ g ∧ 256 ≤ i ∧ i ≠ 510 ∨ g = L.base+2 ∨ g = L.base+5)) :
    Arranged (L.setLow low) s' σ := by
  have hord := L.ordered
  have hap := L.apart
  have hbel := L.below
  have hal := L.high
  -- words of tables below the roots stay
  have hty : ∀ f r path i, σ.ty f = some (r,path) → (path = [] → i < 256) →
      s'.mem f i = s.mem f i := by
    intro f r path i hf hi
    obtain ⟨h1,h2,-⟩ := h.typed hf
    have h3 := h.own f _ hf
    rcases hm f (by omega) (by omega) i with he | ⟨-,⟨hr,h256,-⟩ | he | he⟩
    · exact he
    · rcases hr with hr | hr
      · omega
      · have := hi (Prod.mk.inj (Option.some.inj (hf.symm.trans hr))).2
        omega
    · omega
    · omega
  have hboot : BootWords L.base s'.mem := by
    refine ⟨fun t i h1 h2 hn => ?_,fun i hi => ?_⟩
    · have ho := h.boot.opened t i h1 h2 hn
      rcases hm t (by omega) (by omega) i with he | ⟨he,-⟩
      · rwa [he]
      · exact ho.trans he
    · rcases hm (L.base+4) (by omega) (by omega) i with he | ⟨-,⟨hr,-⟩ | he | he⟩
      · rw [he]
        exact h.boot.large i hi
      · have := h.rooted_range hr
        omega
      · omega
      · omega
  refine { h with
    forest := ⟨fun f x hf => hp ▸ h.forest.typed f x hf,h.forest.root,fun f r path hf => ?_⟩
    boot := hboot
    high := fun r hr => ⟨fun i h1 h2 h3 => ?_,?_⟩
    active := hc
    zones := hp ▸ h.zones
    nextHigh := hp ▸ h.nextHigh
    reserved := hp ▸ h.reserved
    kernel := hlow
    data := fun r hr n h1 h2 w hw => ?_
    heap := hp ▸ h.heap
    link := fun f n i hf hpr => ?_ }
  · have hn := h.forest.node f r path hf
    refine ⟨hn.depth,hn.low,hn.root,fun i hlen hi hpr => ?_⟩
    rw [hty f r path i hf hi] at hpr ⊢
    exact hn.link i hlen hi hpr
  · have ho := (h.high r hr).shared i h1 h2 h3
    have hrange := h.rooted_range hr
    rcases hm r (by omega) (by omega) i with he | ⟨he,-⟩
    · rwa [he]
    · exact ho.trans he
  · have hrange := h.rooted_range hr
    rw [← (h.high r hr).self]
    rcases hm r (by omega) (by omega) 510 with he | ⟨-,⟨-,-,he⟩ | he | he⟩
    · exact he
    · exact absurd rfl he
    · omega
    · omega
  · rw [pageWord_eq_of_words h.forest hr h2 fun f path i hf hi => hty f r path i hf hi] at hw
    exact h.data r hr n h1 h2 w hw
  · obtain ⟨h1,h3,h2,-,hno⟩ := h.heap f _ hf
    have he : s'.mem f i = s.mem f i := by
      rcases hm f (by omega) (by omega) i with he | ⟨-,⟨hr | hr,-⟩ | he | he⟩
      · exact he
      · omega
      · rw [hno] at hr
        cases hr
      · omega
      · omega
    rw [he] at hpr ⊢
    exact h.link f n i hf hpr

theorem Arranged.write (h : Arranged L s σ) {m : Mem} (hm : ∀ g < L.zones.highStart, m g = s.mem g) :
    Arranged L { s with mem := m } σ := by
  have hord := L.ordered
  have hap := L.apart
  have hkernel : ∀ f, 512 ≤ f → f < L.zones.lowStart → m f = L.low f := fun f h1 h2 =>
    (hm f (by omega)).trans (h.kernel f h1 h2)
  have hq : Arranged (L.setLow L.low) { s with mem := m } σ :=
    h.quiet rfl h.active hkernel fun g hg _ i => Or.inl (congrFun (hm g hg) i)
  exact hq

/-- A frame of the HIGH zone. -/
def Layout.High (L : Layout) (f : ℕ) : Prop := L.zones.highStart ≤ f ∧ f ≤ L.zones.highEnd

theorem allocForElf_nextHigh {p p' : Pmm} (h : pmmAllocPageForElf p = some (f,p')) :
    p'.nextHigh ≤ f := by
  have hf := (allocForElf_spec h).2.1
  simp only [pmmAllocPageForElf,pmmAllocPage,true_or,if_true] at h
  split at h
  · cases h
  · obtain ⟨page,-,he⟩ := Option.map_eq_some_iff.mp h
    obtain ⟨rfl,rfl⟩ := Prod.mk.inj he
    simp only
    split <;> omega

theorem Arranged.alloc (h : Arranged L s σ) {p : Pmm} (ha : pmmAllocPageForElf s.pmm = some (f,p)) :
    L.High f ∧ Arranged L { s with pmm := p } σ := by
  obtain ⟨htk,h1,h2,-⟩ := allocForElf_spec ha
  have h3 := h.nextHigh
  have h4 := allocForElf_nextHigh ha
  rw [h.zones] at h1
  refine ⟨⟨h1,by omega⟩,h.pmm htk.zones (by omega) fun g hg => ?_⟩
  rw [htk.bitmap,Function.update_of_ne (by omega)]

/-! The HHDM. -/

theorem Layout.high_lt (L : Layout) (hf : L.High f) : f < 2^18 := by
  have h1 := L.zones.high_lt
  have h2 := hf.2
  simp only [maxPages] at h1
  omega

theorem Arranged.aliased (h : Arranged L s σ) (hf : L.High f) :
    Aliased L.base s (ensureHhdmMapped s (f*4096)) f := by
  have hge := L.high
  have hstart := hf.1
  exact ensureHhdm_aliased h.boot L.upper (h.high _ h.active) L.below
    ((h.rooted_range h.active).imp id And.left) (by omega) (L.high_lt hf)

/-! Tables of address spaces. -/

theorem Arranged.extends (h : Arranged L s σ) {ty : Typing} (hx : Extends s s' σ.ty ty r)
    (hf : Forest bootLarge s' ty) (hr : ty r = some (r,[])) (hh : HighHalf L.top s'.mem r)
    (hd : ∀ n, firstPage ≤ n → n < lowPages → ∀ w, pageWord s'.mem r n = some w →
      L.zones.highStart ≤ frameOf w) : Arranged L s' ⟨ty,σ.lv⟩ := by
  have hord := L.ordered
  have hap := L.apart
  have hbel := L.below
  have hbit : ∀ f, s.pmm.bitmap f = true → s'.pmm.bitmap f = true := fun f hb =>
    (hx.bitmap f).mpr (Or.inl hb)
  -- a frame in use that no address space has
  have hkeep : ∀ f, Stable s f → σ.ty f = none → s'.mem f = s.mem f ∧ ty f = none := by
    intro f hs hn
    refine ⟨hx.keep f hs fun path hp => (by rw [hn] at hp; cases hp),?_⟩
    cases ht : ty f with
    | none => rfl
    | some x =>
      rw [(hx.typed_iff hs x).mp ht] at hn
      cases hn
  have hbase : ∀ t, t < 512 → σ.ty t = none := by
    intro t ht
    cases hty : σ.ty t with
    | none => rfl
    | some x =>
      have := (h.typed hty).1
      omega
  have hother : ∀ r', ty r' = some (r',[]) → r' ≠ r → σ.ty r' = some (r',[]) := by
    intro r' hr' hne
    rcases hx.new r' _ hr' with ht | ⟨he,-⟩
    · exact ht
    · exact absurd he hne
  refine ⟨hf,h.boot.extends h.forest hx L.below,fun r' hr' => ?_,?_,hx.zones.trans h.zones,?_,
    fun f hlt => hbit f (h.reserved f hlt),fun f x hx' => ?_,fun f h1 h2 => ?_,
    fun r' hr' n h1 h2 w hw => ?_,fun f n hn => ?_,fun f n i hn hp => ?_,h.slot⟩
  · rcases hr' with rfl | hr'
    · have hm := (hkeep L.base (Or.inr (by omega)) (hbase _ (by omega))).1
      have hb := h.high L.base (Or.inl rfl)
      exact ⟨fun i => by rw [hm]; exact hb.shared i,by rw [hm]; exact hb.self⟩
    · by_cases hne : r' = r
      · exact hne ▸ hh
      · have ht := hother r' hr' hne
        have hm : s'.mem r' = s.mem r' := hx.keep r' (Or.inl (h.typed ht).2.2) fun path hp =>
          hne (Prod.mk.inj (Option.some.inj (ht.symm.trans hp))).1
        have hb := h.high r' (Or.inr ht)
        exact ⟨fun i => by rw [hm]; exact hb.shared i,by rw [hm]; exact hb.self⟩
  · rw [hx.cr3]
    exact h.active.imp id (hx.old _ _)
  · rw [hx.nextHigh]
    exact h.nextHigh
  · rcases hx.new f x hx' with ht | ⟨-,hb,-⟩
    · exact h.own f x ht
    · by_contra hlt
      rw [h.reserved f (by omega)] at hb
      cases hb
  · rw [← h.kernel f h1 h2]
    refine (hkeep f (Or.inl (h.reserved f h2)) ?_).1
    cases ht : σ.ty f with
    | none => rfl
    | some x =>
      have := h.own f x ht
      omega
  · by_cases hne : r' = r
    · subst hne
      exact hd n h1 h2 w hw
    · have ht := hother r' hr' hne
      rw [hx.pageWord_other h.forest ht hne h2] at hw
      exact h.data r' ht n h1 h2 w hw
  · obtain ⟨h1,h2,h3,h4,h5⟩ := h.heap f n hn
    exact ⟨h1,h2,h3,hbit f h4,(hkeep f (Or.inl h4) h5).2⟩
  · obtain ⟨-,-,-,h4,h5⟩ := h.heap f _ hn
    rw [(hkeep f (Or.inl h4) h5).1] at hp ⊢
    exact h.link f n i hn hp

/-- The boot tables have large pages below 1 GB only. -/
theorem Forest.uncovered (h : Forest bootLarge s σ.ty) (hr : σ.ty r = some (r,[])) (h1 : firstPage ≤ n)
    (h2 : n < lowPages) : Uncovered s.mem r (n*4096) := by
  intro g hw hp
  have hlow : Low ([]++[pml4Idx (n*4096),pdptIdx (n*4096)]) := by
    simpa [Low] using low_page h2
  have hg := h.walk_typed hr (by simp) hlow hw
  rcases (h.node g r _ hg).link _ (by simp) (by simp) hp with ⟨hh,-⟩ | ⟨-,-,⟨k,-,hk⟩,-⟩
  · exact hh
  · simp only [List.nil_append,List.cons_append,List.cons.injEq,and_true] at hk
    simp only [pml4Idx,pdptIdx,firstPage,lowPages] at hk h1 h2
    omega

theorem frameOf_pteOf {flags : Word} (h : flags &&& ptNx = 0) (hf : f < 2^52) :
    frameOf (pteOf (f*4096) flags) = f := by
  have hand : ∀ c : Word, c.toNat < 4096 → (flags &&& c).toNat < 2^12 := fun c hc => by
    rw [BitVec.toNat_and]
    exact Nat.lt_of_le_of_lt Nat.and_le_right hc
  have hp : ptPresent.toNat < 2^12 := by decide
  have hz : (flags &&& ptNx).toNat < 2^12 := by
    rw [h]
    decide
  rw [pteOf,Nat.mul_div_cancel _ (by omega)]
  refine frameOf_entry hf ?_
  simp only [BitVec.toNat_or]
  exact Nat.or_lt_two_pow (Nat.or_lt_two_pow (Nat.or_lt_two_pow (Nat.or_lt_two_pow hp
    (hand ptWrite (by decide))) (hand ptUser (by decide))) (hand (pagePcd ||| pagePwt) (by decide))) hz

theorem Arranged.map (h : Arranged L s σ) (hr : σ.ty r = some (r,[])) (h1 : firstPage ≤ n)
    (h2 : n < lowPages) (hf : L.High f) {flags : Word} (hx : flags &&& ptNx = 0) :
    ∃ σ', σ.Le σ' ∧ Arranged L (vmmMapPageInCr3 s r (n*4096) (f*4096) flags).2 σ' ∧
      (vmmMapPageInCr3 s r (n*4096) (f*4096) flags).2.cr3 = s.cr3 := by
  have hlt := L.high_lt hf
  obtain ⟨ty,hforest,hext,hhigh,hdata⟩ := pageWord_map h.forest hr h2 (h.forest.uncovered hr h1 h2)
    (Prod.eta (vmmMapPageInCr3 s r (n*4096) (f*4096) flags)).symm
  refine ⟨⟨ty,σ.lv⟩,⟨hext.old,fun _ _ h => h⟩,h.extends hext hforest (hext.old r _ hr) ?_ ?_,hext.cr3⟩
  · have hh := h.high r (Or.inr hr)
    exact ⟨fun i h256 => by rw [hhigh i h256]; exact hh.shared i h256,
      by rw [hhigh 510 (by omega)]; exact hh.self⟩
  · intro k hk1 hk2 w hw
    rw [hdata k hk2] at hw
    split at hw
    · rw [← Option.some.inj hw,frameOf_pteOf hx (by omega)]
      exact hf.1
    · exact h.data r hr k hk1 hk2 w hw

/-- The boot tables have no pages from 1 GB on. -/
theorem BootWords.pageWord_none {base : ℕ} (h : BootWords base s.mem) (hb : base+6 < 512)
    (h1 : firstPage ≤ n) (h2 : n < lowPages) : pageWord s.mem base n = none := by
  have hw : walkTo s.mem base (pathOf (n*4096)) = none := by
    cases hw : walkTo s.mem base (pathOf (n*4096)) with
    | none => rfl
    | some t =>
      rcases h.walk hb (by simp [pathOf]) (low_pathOf (low_page h2)) hw with
        ⟨hq,-⟩ | ⟨hq,-⟩ | ⟨hq,-⟩ | ⟨hq,-⟩
      · simp [pathOf] at hq
      · simp [pathOf] at hq
      · simp [pathOf] at hq
      · simp only [pathOf,List.cons.injEq,and_true,pml4Idx,pdptIdx,pdIdx,firstPage,lowPages] at hq h1 h2
        omega
  rw [pageWord,hw]
  rfl

theorem Arranged.source (h : Arranged L s σ) : Source bootLarge s s.cr3 := by
  rcases h.active with hr | hr
  · rw [hr]
    exact h.boot.source L.below
  · exact h.forest.source hr

theorem Arranged.clone (h : Arranged L s σ) {new : ℕ} (hrun : vmmClonePageTable s s.cr3 = .ok (new,s')) :
    ∃ σ', σ.Le σ' ∧ Arranged L s' σ' ∧ s'.cr3 = s.cr3 ∧ σ'.ty new = some (new,[]) := by
  obtain ⟨ty,hf,hx,hnew,-,hself,hshared,hcop⟩ := clone_spec h.forest h.source hrun
  refine ⟨⟨ty,σ.lv⟩,⟨hx.old,fun _ _ h => h⟩,h.extends hx hf hnew
    (clone_highHalf L.upper (h.high _ h.active) hself hshared) ?_,hx.cr3,hnew⟩
  intro n h1 h2 w hw
  rw [pageWord_clone hcop h2] at hw
  rcases h.active with hr | hr
  · rw [hr,h.boot.pageWord_none L.below h1 h2] at hw
    cases hw
  · exact h.data _ hr n h1 h2 w hw

/-! Tables of the heap. -/

theorem Arranged.storeHeap (h : Arranged L s σ) (ht : σ.lv t = some n) {w : Word}
    (hw : ∀ k, n = k+1 → present w = true → σ.lv (frameOf w) = some k) :
    Arranged L (s.store t i w) σ := by
  have hbel := L.below
  obtain ⟨h512,hown,hlow,hused,hno⟩ := h.heap t n ht
  have hty : ∀ f x, σ.ty f = some x → (s.store t i w).mem f = s.mem f := by
    intro f x hf
    refine store_of_ne ?_
    rintro rfl
    rw [hno] at hf
    cases hf
  have hsmall : ∀ f < 512, (s.store t i w).mem f = s.mem f := fun f hf => store_of_ne (by omega)
  refine { h with
    forest := ⟨h.forest.typed,h.forest.root,fun f r path hf => ?_⟩
    boot := h.boot.congr fun f _ hf => hsmall f (by omega)
    high := fun r hr => ?_
    kernel := fun f h1 h2 => (store_of_ne (by omega)).trans (h.kernel f h1 h2)
    data := fun r hr k h1 h2 w' hw' => ?_
    link := fun f k j hf hp => ?_ }
  · exact (h.forest.node f r path hf).congr (hty f _ hf) fun _ _ hg => hg
  · have hm : (s.store t i w).mem r = s.mem r := by
      rcases hr with rfl | hr
      · exact hsmall _ (by omega)
      · exact hty r _ hr
    have hb := h.high r hr
    exact ⟨fun i => by rw [hm]; exact hb.shared i,by rw [hm]; exact hb.self⟩
  · rw [pageWord_eq_of_words h.forest hr h2 fun f path j hf _ => congrFun (hty f _ hf) j] at hw'
    exact h.data r hr k h1 h2 w' hw'
  · simp only [Vm.store,store_apply] at hp ⊢
    split
    · rename_i he
      rw [if_pos he] at hp
      obtain ⟨rfl,rfl⟩ := he
      exact hw k (Option.some.inj (ht.symm.trans hf)) hp
    · rename_i he
      rw [if_neg he] at hp
      exact h.link f k j hf hp

theorem Arranged.allocHeap (h : Arranged L s σ) {p : Pmm} (ha : pmmAllocPageForTables s.pmm = some (f,p))
    (n : ℕ) : Arranged L { s with pmm := p, mem := fill s.mem f fun _ => 0 }
      ⟨σ.ty,Function.update σ.lv f (some n)⟩ ∧ σ.lv f = none := by
  obtain ⟨htk,h512,-,hlow⟩ := allocForTables_spec ha
  rw [h.zones] at hlow
  have hown : L.zones.lowStart ≤ f := by
    by_contra hlt
    have hb := h.reserved f (by omega)
    rw [htk.free] at hb
    cases hb
  have hbit : ∀ g, s.pmm.bitmap g = true → p.bitmap g = true := by
    intro g hg
    rw [htk.bitmap,Function.update_apply]
    split
    · rfl
    · exact hg
  have hne : ∀ g, s.pmm.bitmap g = true → g ≠ f := by
    rintro g hg rfl
    rw [htk.free] at hg
    cases hg
  have hno : σ.lv f = none := by
    cases hl : σ.lv f with
    | none => rfl
    | some k => exact absurd rfl (hne f (h.heap f k hl).2.2.2.1)
  have hold : ∀ g k, σ.lv g = some k → Function.update σ.lv f (some n) g = some k := by
    intro g k hg
    rwa [Function.update_of_ne (hne g (h.heap g k hg).2.2.2.1)]
  have hnt := h.forest.untyped_of_free htk.free
  have hbel := L.below
  have hty : ∀ g x, σ.ty g = some x → fill s.mem f (fun _ => 0) g = s.mem g := fun g x hg =>
    fill_of_ne (hne g (h.typed hg).2.2)
  refine ⟨⟨⟨fun g x hg => ?_,h.forest.root,fun g r path hg => ?_⟩,
    h.boot.congr fun g _ hg => fill_of_ne (by omega),fun r hr => ?_,h.active,htk.zones.trans h.zones,?_,
    fun g hg => hbit g (h.reserved g hg),h.own,fun g h1 h2 => ?_,fun r hr k h1 h2 w hw => ?_,
    fun g k hg => ?_,fun g k i hg hp => ?_,fun hp => hold _ _ (h.slot hp)⟩,hno⟩
  · obtain ⟨h1,h2,h3⟩ := h.forest.typed g x hg
    simp only [htk.zones]
    exact ⟨h1,h2,hbit g h3⟩
  · exact (h.forest.node g r path hg).congr (hty g _ hg) fun _ _ hg' => hg'
  · have hm : fill s.mem f (fun _ => 0) r = s.mem r := by
      rcases hr with rfl | hr
      · exact fill_of_ne (by omega)
      · exact hty r _ hr
    have hb := h.high r hr
    exact ⟨fun i => by simp only [hm]; exact hb.shared i,by simp only [hm]; exact hb.self⟩
  · simp only [allocForTables_nextHigh ha]
    exact h.nextHigh
  · exact (fill_of_ne (by omega)).trans (h.kernel g h1 h2)
  · have hwords := pageWord_eq_of_words (m:=fill s.mem f fun _ => 0) h.forest hr h2
      fun g path j hg _ => congrFun (hty g _ hg) j
    simp only [hwords] at hw
    exact h.data r hr k h1 h2 w hw
  · by_cases hgf : g = f
    · subst hgf
      refine ⟨h512,hown,hlow,?_,hnt⟩
      simp only [htk.bitmap,Function.update_self]
    · simp only [Function.update_of_ne hgf] at hg
      obtain ⟨h1,h2,h3,h4,h5⟩ := h.heap g k hg
      exact ⟨h1,h2,h3,hbit g h4,h5⟩
  · by_cases hgf : g = f
    · subst hgf
      simp [present] at hp
    · simp only [Function.update_of_ne hgf,fill_of_ne hgf] at hg hp ⊢
      exact hold _ _ (h.link g k i hg hp)

end Memory
end DonsOs
