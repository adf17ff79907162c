import DonsOs.Memory.Mapping

/-! Page tables as trees.
A typing assigns to a table frame the address space it belongs to and its path from the
root.  Table frames are handed out from 2 MB on, so the boot tables are never among them. -/
namespace DonsOs
namespace Memory

open Paging

/-- Root and path of each frame that serves as a low-half table. -/
abbrev Typing := ℕ → Option (ℕ × List ℕ)

/-- The word `w` is `b`, perhaps opened for writing and user mode. -/
def Opens (b w : Word) : Prop := w = b ∨ w = b ||| rwFlags

theorem Opens.refl (b : Word) : Opens b b := Or.inl rfl

variable {w b : Word} {ty'' : Typing} {s'' : Vm} {pmm : Pmm}

theorem Opens.open (h : Opens b w) : Opens b (w ||| rwFlags) := by
  rcases h with rfl | rfl
  · exact Or.inr rfl
  · exact Or.inr (by rw [BitVec.or_assoc,BitVec.or_self])

theorem Opens.trans {w' : Word} (h : Opens b w) (h' : Opens w w') : Opens b w' := by
  rcases h' with rfl | rfl
  · exact h
  · exact h.open

theorem Opens.bits (h : Opens b w) :
    present w = present b ∧ huge w = huge b ∧ frameOf w = frameOf b := by
  rcases h with rfl | rfl <;> simp

theorem Opens.link (h : Opens b w) : link w = link b := by
  obtain ⟨hp,hh,-⟩ := h.bits
  rw [Paging.link,Paging.link,hp,hh]

theorem link_present {e : Word} (h : link e = true) : present e = true := by
  rw [link,Bool.and_eq_true] at h
  exact h.1

/-- The path starts in the low half. -/
def Low (path : List ℕ) : Prop := ∀ i ∈ path.head?, i < 256

theorem low_concat {p : List ℕ} {i : ℕ} (h : Low p) (hi : p = [] → i < 256) : Low (p++[i]) := by
  cases p with
  | nil => simpa [Low] using hi
  | cons j p => simpa [Low] using h

theorem low_append {p q : List ℕ} (h : Low (p++q)) : Low p := by
  cases p with
  | nil => simp [Low]
  | cons j p => simpa [Low] using h

theorem Low.append {p : List ℕ} (h : Low p) (hp : p ≠ []) (q : List ℕ) : Low (p++q) := by
  cases p with
  | nil => exact absurd rfl hp
  | cons j p => simpa [Low] using h

/-- What the words of a table frame say: links lead to the tables one level down, and large
pages are 2 MB pages as `large` allows them. -/
structure Node (large : List ℕ → Word → Prop) (m : Mem) (ty : Typing) (f r : ℕ) (path : List ℕ) :
    Prop where
  depth : path.length ≤ 3
  low : Low path
  root : path = [] → f = r
  link : ∀ i, path.length < 3 → (path = [] → i < 256) → present (m f i) = true →
    huge (m f i) = false ∧ ty (frameOf (m f i)) = some (r,path++[i]) ∨
    path.length = 2 ∧ huge (m f i) = true ∧ large (path++[i]) (m f i)

/-- The typed frames are tables in use, and each belongs to the tree of its root. -/
structure Forest (large : List ℕ → Word → Prop) (s : Vm) (ty : Typing) : Prop where
  typed : ∀ f x, ty f = some x → 512 ≤ f ∧ f ≤ s.pmm.zones.lowEnd ∧ s.pmm.bitmap f = true
  root : ∀ f x, ty f = some x → ty x.1 = some (x.1,[])
  node : ∀ f r path, ty f = some (r,path) → Node large s.mem ty f r path

variable {s s' : Vm} {ty ty' : Typing} {f r t i : ℕ} {path : List ℕ}
variable {large : List ℕ → Word → Prop}

theorem Node.congr {m m' : Mem} (h : Node large m ty f r path) (hm : m' f = m f)
    (hty : ∀ g x, ty g = some x → ty' g = some x) : Node large m' ty' f r path := by
  refine ⟨h.depth,h.low,h.root,fun i hlen hi hp => ?_⟩
  rw [hm] at hp ⊢
  exact (h.link i hlen hi hp).imp (fun ⟨hh,ht⟩ => ⟨hh,hty _ _ ht⟩) id

theorem Forest.untyped_of_free (h : Forest large s ty) (hf : s.pmm.bitmap f = false) : ty f = none := by
  cases ht : ty f with
  | none => rfl
  | some x =>
    have hu := (h.typed f x ht).2.2
    rw [hf] at hu
    cases hu

/-- Frames that no step of the allocator hands out. -/
def Stable (s : Vm) (f : ℕ) : Prop := s.pmm.bitmap f = true ∨ f < 512

/-- New tables of `r`, and everything outside the tables of `r` as it was. -/
structure Extends (s s' : Vm) (ty ty' : Typing) (r : ℕ) : Prop where
  old : ∀ f x, ty f = some x → ty' f = some x
  new : ∀ f x, ty' f = some x → ty f = some x ∨ x.1 = r ∧ s.pmm.bitmap f = false ∧ 512 ≤ f
  keep : ∀ f, Stable s f → (∀ path, ty f ≠ some (r,path)) → s'.mem f = s.mem f
  bitmap : ∀ f, s'.pmm.bitmap f = true ↔ s.pmm.bitmap f = true ∨ ty f = none ∧ ty' f ≠ none
  zones : s'.pmm.zones = s.pmm.zones
  nextHigh : s'.pmm.nextHigh = s.pmm.nextHigh
  refCount : ∀ f, s.pmm.bitmap f = true → s'.pmm.refCount f = s.pmm.refCount f
  cr3 : s'.cr3 = s.cr3

/-- The tables of `r` have grown: old links are kept, and lead where they led; new links
lead to new tables, large pages are none but the old ones, and page tables are untouched. -/
structure Grown (s s' : Vm) (ty ty' : Typing) (r : ℕ) : Prop extends Extends s s' ty ty' r where
  leaf : ∀ f path, ty f = some (r,path) → path.length = 3 → s'.mem f = s.mem f
  high : ∀ f, ty f = some (r,[]) → ∀ i, 256 ≤ i → s'.mem f i = s.mem f i
  opened : ∀ f path i, ty f = some (r,path) → path.length < 3 → (path = [] → i < 256) →
    present (s.mem f i) = true → Opens (s.mem f i) (s'.mem f i)
  fresh : ∀ f path i, ty' f = some (r,path) → path.length < 3 → (path = [] → i < 256) →
    link (s'.mem f i) = true → ty (frameOf (s'.mem f i)) ≠ none →
    ty f = some (r,path) ∧ present (s.mem f i) = true
  large : ∀ f path i, ty' f = some (r,path) → path.length < 3 → (path = [] → i < 256) →
    present (s'.mem f i) = true → huge (s'.mem f i) = true →
    ty f = some (r,path) ∧ present (s.mem f i) = true ∧ huge (s.mem f i) = true

/-- New page tables are empty. -/
def Blank (s' : Vm) (ty ty' : Typing) (r : ℕ) : Prop :=
  ∀ f path, ty f = none → ty' f = some (r,path) → path.length = 3 → ∀ i, s'.mem f i = 0

theorem Extends.refl (s : Vm) (ty : Typing) (r : ℕ) : Extends s s ty ty r :=
  ⟨fun _ _ h => h,fun _ _ h => Or.inl h,fun _ _ _ => rfl,
    fun _ => ⟨Or.inl,fun h => h.resolve_right fun ht => ht.2 ht.1⟩,rfl,rfl,fun _ _ => rfl,rfl⟩

theorem Extends.stable (h : Extends s s' ty ty' r) (hf : Stable s f) : Stable s' f :=
  hf.imp (fun hu => (h.bitmap f).mpr (Or.inl hu)) id

theorem Extends.typed_iff (h : Extends s s' ty ty' r) (hf : Stable s f) (x : ℕ × List ℕ) :
    ty' f = some x ↔ ty f = some x := by
  refine ⟨fun hx => ?_,h.old f x⟩
  rcases h.new f x hx with ht | ⟨-,hb,hlt⟩
  · exact ht
  · rcases hf with hu | hu
    · rw [hb] at hu
      cases hu
    · omega

theorem Extends.none (h : Extends s s' ty ty' r) (hf : ty' f = none) : ty f = none := by
  cases ht : ty f with
  | none => rfl
  | some x =>
    rw [h.old f x ht] at hf
    cases hf

theorem Extends.trans (h : Extends s s' ty ty' r)
    (h' : Extends s' s'' ty' ty'' r) : Extends s s'' ty ty'' r where
  old f x hf := h'.old f x (h.old f x hf)
  new f x hf := by
    rcases h'.new f x hf with hf | ⟨hr,hb,hlt⟩
    · exact h.new f x hf
    · refine Or.inr ⟨hr,?_,hlt⟩
      cases hbs : s.pmm.bitmap f with
      | false => rfl
      | true =>
        rw [(h.bitmap f).mpr (Or.inl hbs)] at hb
        cases hb
  keep f hf hr := by
    rw [h'.keep f (h.stable hf) fun path hp => hr path ((h.typed_iff hf _).mp hp),h.keep f hf hr]
  bitmap f := by
    rw [h'.bitmap f,h.bitmap f]
    cases ht : ty f with
    | some x =>
      have hx := h.old f x ht
      simp [hx]
    | none =>
      cases ht' : ty' f with
      | none => simp
      | some x =>
        have hx := h'.old f x ht'
        simp [hx]
  zones := h'.zones.trans h.zones
  nextHigh := h'.nextHigh.trans h.nextHigh
  refCount f hf := by rw [h'.refCount f ((h.bitmap f).mpr (Or.inl hf)),h.refCount f hf]
  cr3 := h'.cr3.trans h.cr3

theorem Grown.refl (s : Vm) (ty : Typing) (r : ℕ) : Grown s s ty ty r :=
  ⟨Extends.refl s ty r,fun _ _ _ _ => rfl,fun _ _ _ _ => rfl,fun _ _ _ _ _ _ _ => Opens.refl _,
    fun _ _ _ hf _ _ hl _ => ⟨hf,link_present hl⟩,fun _ _ _ hf _ _ hp hh => ⟨hf,hp,hh⟩⟩

theorem Grown.trans (h : Grown s s' ty ty' r)
    (h' : Grown s' s'' ty' ty'' r) : Grown s s'' ty ty'' r where
  toExtends := h.toExtends.trans h'.toExtends
  leaf f path hf hlen := by
    rw [h'.leaf f path (h.old f _ hf) hlen,h.leaf f path hf hlen]
  high f hf i hi := by
    rw [h'.high f (h.old f _ hf) i hi,h.high f hf i hi]
  opened f path i hf hlen hi hp := by
    have ho := h.opened f path i hf hlen hi hp
    exact ho.trans (h'.opened f path i (h.old f _ hf) hlen hi (ho.bits.1.trans hp))
  fresh f path i hf hlen hi hl ht := by
    -- a link to an old table is no newer than the middle state, and there it is old
    obtain ⟨hf',hp'⟩ := h'.fresh f path i hf hlen hi hl fun hn => ht (h.none hn)
    have ho := h'.opened f path i hf' hlen hi hp'
    rw [ho.link] at hl
    rw [ho.bits.2.2] at ht
    exact h.fresh f path i hf' hlen hi hl ht
  large f path i hf hlen hi hp hh := by
    obtain ⟨hf',hp',hh'⟩ := h'.large f path i hf hlen hi hp hh
    exact h.large f path i hf' hlen hi hp' hh'

theorem Blank.trans (h : Blank s' ty ty' r)
    (h' : Blank s'' ty' ty'' r) (hg : Grown s' s'' ty' ty'' r) : Blank s'' ty ty'' r := by
  intro f path hf hf'' hlen i
  cases hf' : ty' f with
  | none => exact h' f path hf' hf'' hlen i
  | some x =>
    have hx := (hg.old f x hf').symm.trans hf''
    rw [Option.some.injEq] at hx
    subst hx
    rw [hg.leaf f path hf' hlen]
    exact h f path hf hf' hlen i

theorem Blank.refl (s : Vm) (ty : Typing) (r : ℕ) : Blank s ty ty r := by
  intro f path hf hf'
  rw [hf] at hf'
  cases hf'

/-! Stores into tables and new tables. -/

theorem Forest.store (h : Forest large s ty) (ht : ty t = some (r,path))
    (hw : path.length < 3 → (path = [] → i < 256) → present w = true →
      huge w = false ∧ ty (frameOf w) = some (r,path++[i]) ∨
      path.length = 2 ∧ huge w = true ∧ large (path++[i]) w) : Forest large (s.store t i w) ty := by
  refine ⟨h.typed,h.root,fun f r' path' hf => ?_⟩
  have hn := h.node f r' path' hf
  by_cases hft : f = t
  · subst hft
    obtain ⟨rfl,rfl⟩ := Prod.mk.inj (Option.some.inj (hf.symm.trans ht))
    refine ⟨hn.depth,hn.low,hn.root,fun i' hlen hi hp => ?_⟩
    simp only [Vm.store,store_apply,true_and] at hp ⊢
    split
    · rename_i he
      subst he
      rw [if_pos rfl] at hp
      exact hw hlen hi hp
    · rename_i he
      rw [if_neg he] at hp
      exact hn.link i' hlen hi hp
  · exact hn.congr (store_of_ne hft) fun g x hg => hg

theorem update_old {x : ℕ × List ℕ} (hf : ty f = none) (g : ℕ) (y : ℕ × List ℕ) (hg : ty g = some y) :
    Function.update ty f (some x) g = some y := by
  have hgf : g ≠ f := by
    rintro rfl
    rw [hf] at hg
    cases hg
  rwa [Function.update_of_ne hgf]

theorem Forest.alloc (h : Forest large s ty)
    (ha : pmmAllocPageForTables s.pmm = some (f,pmm)) {page : ℕ → Word}
    (hr : f = r ∧ path = [] ∨ ty r = some (r,[]))
    (hn : Node large (fill s.mem f page) (Function.update ty f (some (r,path))) f r path) :
    Forest large { s with pmm := pmm, mem := fill s.mem f page }
      (Function.update ty f (some (r,path))) := by
  obtain ⟨htk,h512,-,hlow⟩ := allocForTables_spec ha
  have hnone := h.untyped_of_free htk.free
  refine ⟨fun g y hg => ?_,fun g y hg => ?_,fun g r' path' hg => ?_⟩
  · simp only [htk.zones,htk.bitmap]
    by_cases hgf : g = f
    · subst hgf
      exact ⟨h512,hlow,by simp⟩
    · rw [Function.update_of_ne hgf] at hg
      simpa [hgf] using h.typed g y hg
  · by_cases hgf : g = f
    · subst hgf
      rw [Function.update_self,Option.some.injEq] at hg
      subst hg
      rcases hr with ⟨rfl,rfl⟩ | hr
      · exact Function.update_self ..
      · exact update_old hnone r _ hr
    · rw [Function.update_of_ne hgf] at hg
      exact update_old hnone _ _ (h.root g y hg)
  · by_cases hgf : g = f
    · subst hgf
      rw [Function.update_self,Option.some.injEq,Prod.mk.injEq] at hg
      obtain ⟨rfl,rfl⟩ := hg
      exact hn
    · rw [Function.update_of_ne hgf] at hg
      exact (h.node g r' path' hg).congr (fill_of_ne hgf) fun g' y => update_old hnone g' y

theorem blank_node (m : Mem) (ty : Typing) (hd : path.length ≤ 3) (hl : Low path)
    (hr : path = [] → f = r) : Node large (fill m f fun _ => 0) ty f r path :=
  ⟨hd,hl,hr,fun i _ _ hp => by simp [present] at hp⟩

theorem Stable.ne (hg : Stable s t) (hf : s.pmm.bitmap f = false) (h512 : 512 ≤ f) : t ≠ f := by
  rintro rfl
  rcases hg with hu | hu
  · rw [hf] at hu
    cases hu
  · omega

theorem allocForTables_nextHigh {p p' : Pmm} (ha : pmmAllocPageForTables p = some (f,p')) :
    p'.nextHigh = p.nextHigh := by
  simp only [pmmAllocPageForTables,pmmAllocPage,reduceCtorEq,or_self,if_false] at ha
  split at ha
  · cases ha
  · obtain ⟨page,-,he⟩ := Option.map_eq_some_iff.mp ha
    rw [← (Prod.mk.inj he).2]
    rfl

theorem Extends.alloc (h : Forest large s ty)
    (ha : pmmAllocPageForTables s.pmm = some (f,pmm)) (page : ℕ → Word) (path : List ℕ) :
    Extends s { s with pmm := pmm, mem := fill s.mem f page } ty
      (Function.update ty f (some (r,path))) r := by
  obtain ⟨htk,h512,-,-⟩ := allocForTables_spec ha
  have hnone := h.untyped_of_free htk.free
  refine ⟨update_old hnone,fun g x hg => ?_,fun g hg _ => fill_of_ne (hg.ne htk.free h512),
    fun g => ?_,htk.zones,allocForTables_nextHigh ha,fun g hg => ?_,rfl⟩
  · by_cases hgf : g = f
    · subst hgf
      rw [Function.update_self,Option.some.injEq] at hg
      exact Or.inr ⟨by rw [← hg],htk.free,h512⟩
    · rw [Function.update_of_ne hgf] at hg
      exact Or.inl hg
  · simp only [htk.bitmap]
    by_cases hgf : g = f
    · subst hgf
      simp [hnone]
    · simp only [Function.update_of_ne hgf]
      exact ⟨Or.inl,fun hh => hh.resolve_right fun ht => ht.2 ht.1⟩
  · rw [htk.refCount,Function.update_of_ne (Stable.ne (Or.inl hg) htk.free h512)]

theorem Extends.store (h : Extends s s' ty ty' r) (ht : ty' t = some (r,path)) (i : ℕ) (w : Word) :
    Extends s (s'.store t i w) ty ty' r := by
  refine ⟨h.old,h.new,fun f hf hr => ?_,h.bitmap,h.zones,h.nextHigh,h.refCount,h.cr3⟩
  have hft : f ≠ t := fun e => hr path ((h.typed_iff hf _).mp (e ▸ ht))
  exact (store_of_ne hft).trans (h.keep f hf hr)

theorem huge_dirFlags (f : ℕ) (flags : Word) : huge (entry f (dirFlags flags)) = false := by
  have h7 : (ptPresent ||| ptWrite ||| ptUser).getLsbD 7 = false := by decide
  have hc : (pagePcd ||| pagePwt).getLsbD 7 = false := by decide
  rw [huge,getLsbD_entry (by decide)]
  simp only [dirFlags,BitVec.getLsbD_or,BitVec.getLsbD_and] at h7 hc ⊢
  rw [h7,hc]
  simp

theorem Grown.open (ht : ty t = some (r,path)) (hlen : path.length < 3) (hi : path = [] → i < 256)
    (hp : present (s.mem t i) = true) :
    Grown s (s.store t i (s.mem t i ||| rwFlags)) ty ty r := by
  refine ⟨(Extends.refl s ty r).store ht i _,fun f path' hf hl => ?_,fun f hf j hj => ?_,
    fun f path' j hf _ _ _ => ?_,fun f path' j hf _ _ hl _ => ⟨hf,?_⟩,
    fun f path' j hf _ _ hp' hh => ⟨hf,?_⟩⟩
  · refine store_of_ne ?_
    rintro rfl
    obtain ⟨-,rfl⟩ := Prod.mk.inj (Option.some.inj (hf.symm.trans ht))
    omega
  · simp only [Vm.store,store_apply]
    rw [if_neg]
    rintro ⟨rfl,rfl⟩
    obtain ⟨-,rfl⟩ := Prod.mk.inj (Option.some.inj (hf.symm.trans ht))
    have := hi rfl
    omega
  · simp only [Vm.store,store_apply]
    split
    · rename_i he
      obtain ⟨rfl,rfl⟩ := he
      exact (Opens.refl _).open
    · exact Opens.refl _
  · simp only [Vm.store,store_apply] at hl
    split at hl
    · rename_i he
      obtain ⟨rfl,rfl⟩ := he
      exact hp
    · exact link_present hl
  · simp only [Vm.store,store_apply] at hp' hh
    split at hh
    · rename_i he
      obtain ⟨rfl,rfl⟩ := he
      exact ⟨hp,by simpa using hh⟩
    · rename_i he
      rw [if_neg he] at hp'
      exact ⟨hp',hh⟩

theorem Grown.link (h : Forest large s ty) (ht : ty t = some (r,path)) (hlen : path.length < 3)
    (hi : path = [] → i < 256) (hp : present (s.mem t i) = false)
    (ha : pmmAllocPageForTables s.pmm = some (f,pmm)) (hw : frameOf w = f)
    (hsmall : huge w = false) :
    Grown s ({ s with pmm := pmm, mem := fill s.mem f fun _ => 0 }.store t i w) ty
      (Function.update ty f (some (r,path++[i]))) r := by
  obtain ⟨htk,h512,-,-⟩ := allocForTables_spec ha
  have hnone := h.untyped_of_free htk.free
  have hne : ∀ g x, ty g = some x → g ≠ f := by
    rintro g x hg rfl
    rw [hnone] at hg
    cases hg
  have hext := (Extends.alloc (r:=r) h ha (fun _ => 0) (path++[i])).store
    (update_old hnone t _ ht) i w
  -- a word of an old table other than the one that is written
  have hword : ∀ g j x, ty g = some x → ¬(g = t ∧ j = i) →
      Paging.store (fill s.mem f fun _ => 0) t i w g j = s.mem g j := by
    intro g j x hg hno
    rw [store_apply,if_neg hno,fill_of_ne (hne g x hg)]
  refine ⟨hext,fun g path' hg hl => ?_,fun g hg j hj => hword g j _ hg ?_,
    fun g path' j hg _ _ hpg => ?_,fun g path' j hg hl' hj hl hold => ?_,
    fun g path' j hg _ _ hpg hh => ?_⟩
  · funext j
    refine hword g j _ hg ?_
    rintro ⟨rfl,-⟩
    obtain ⟨-,rfl⟩ := Prod.mk.inj (Option.some.inj (hg.symm.trans ht))
    omega
  · rintro ⟨rfl,rfl⟩
    obtain ⟨-,rfl⟩ := Prod.mk.inj (Option.some.inj (hg.symm.trans ht))
    have := hi rfl
    omega
  · refine Or.inl (hword g j _ hg ?_)
    rintro ⟨rfl,rfl⟩
    rw [hp] at hpg
    cases hpg
  · simp only [Vm.store] at hl hold
    by_cases hgf : g = f
    · subst hgf
      rw [store_of_ne (hne t _ ht).symm,fill_self] at hl
      cases hl
    · rw [Function.update_of_ne hgf] at hg
      by_cases hgt : g = t ∧ j = i
      · obtain ⟨rfl,rfl⟩ := hgt
        rw [store_self,hw] at hold
        exact absurd hnone hold
      · rw [hword g j _ hg hgt] at hl
        exact ⟨hg,link_present hl⟩
  · simp only [Vm.store] at hpg hh
    by_cases hgf : g = f
    · subst hgf
      rw [store_of_ne (hne t _ ht).symm,fill_self] at hpg
      cases hpg
    · rw [Function.update_of_ne hgf] at hg
      by_cases hgt : g = t ∧ j = i
      · obtain ⟨rfl,rfl⟩ := hgt
        rw [store_self,hsmall] at hh
        cases hh
      · rw [hword g j _ hg hgt] at hpg hh
        exact ⟨hg,hpg,hh⟩

/-- New tables lie on the given path. -/
def Along (ty ty' : Typing) (path : List ℕ) : Prop :=
  ∀ f x, ty f = none → ty' f = some x → x.2 <+: path

theorem Along.refl (ty : Typing) (path : List ℕ) : Along ty ty path := by
  intro f x hf hf'
  rw [hf] at hf'
  cases hf'

theorem nextTable_tree (h : Forest large s ty) (ht : ty t = some (r,path)) (hlen : path.length < 3)
    (hi : path = [] → i < 256)
    (hsmall : path.length = 2 → present (s.mem t i) = true → huge (s.mem t i) = false)
    {flags : Word} (hn : nextTable s t i (dirFlags flags) = some (f,s')) :
    ∃ ty', Forest large s' ty' ∧ Grown s s' ty ty' r ∧ Blank s' ty ty' r ∧
      Along ty ty' (path++[i]) ∧ ty' f = some (r,path++[i]) ∧ walkTo s'.mem t [i] = some f := by
  rcases nextTable_cases hn with ⟨hp,rfl,rfl⟩ | ⟨hp,pmm,ha,rfl⟩
  · have hlink : huge (s.mem t i) = false ∧ ty (frameOf (s.mem t i)) = some (r,path++[i]) :=
      ((h.node t r path ht).link i hlen hi hp).resolve_right fun hl => by
        rw [hsmall hl.1 hp] at hl
        cases hl.2.1
    refine ⟨ty,h.store ht fun _ _ _ => Or.inl ?_,Grown.open ht hlen hi hp,Blank.refl _ ty r,
      Along.refl ty _,hlink.2,?_⟩
    · simpa using hlink
    · simp [walkTo,Vm.store,link,hp,hlink.1]
  · obtain ⟨htk,-,-,hlow⟩ := allocForTables_spec ha
    have hf52 : f < 2^52 := by
      have hz := s.pmm.zones.low_lt
      simp only [maxPages] at hz
      omega
    have hnone := h.untyped_of_free htk.free
    have hlen' : (path++[i]).length ≤ 3 := by simp; omega
    have hmap := h.alloc ha (Or.inr (h.root t _ ht)) (blank_node s.mem _ hlen'
      (low_concat (h.node t r path ht).low hi) (by simp))
    have ht' := update_old (x:=(r,path++[i])) hnone t _ ht
    refine ⟨_,hmap.store ht' fun _ _ _ => Or.inl ⟨huge_dirFlags f flags,?_⟩,
      Grown.link h ht hlen hi hp ha (frameOf_dirFlags hf52 flags) (huge_dirFlags f flags),?_,?_,
      Function.update_self ..,?_⟩
    · rw [frameOf_dirFlags hf52]
      exact Function.update_self ..
    · intro g path' hg hg' hl j
      have hgf : g = f := by
        by_contra hne
        rw [Function.update_of_ne hne,hg] at hg'
        cases hg'
      subst hgf
      have htg : t ≠ g := by
        rintro rfl
        rw [ht] at hg
        cases hg
      simp [Vm.store,store_of_ne htg.symm]
    · intro g x hg hg'
      have hgf : g = f := by
        by_contra hne
        rw [Function.update_of_ne hne,hg] at hg'
        cases hg'
      subst hgf
      rw [Function.update_self,Option.some.injEq] at hg'
      rw [← hg']
    · simp [walkTo,Vm.store,link,present_dirFlags,huge_dirFlags,frameOf_dirFlags hf52]

/-! Walks through typed tables. -/

variable {p q : List ℕ}

theorem Forest.link_typed (h : Forest large s ty) (ht : ty t = some (r,p)) (hlen : p.length < 3)
    (hi : p = [] → i < 256) (hl : link (s.mem t i) = true) :
    ty (frameOf (s.mem t i)) = some (r,p++[i]) := by
  simp only [link,Bool.and_eq_true,Bool.not_eq_true'] at hl
  rcases (h.node t r p ht).link i hlen hi hl.1 with hn | hn
  · exact hn.2
  · rw [hl.2] at hn
    cases hn.2.1

theorem Forest.walk_typed (h : Forest large s ty) (ht : ty t = some (r,p)) (hq : (p++q).length ≤ 3)
    (hi : Low (p++q)) (hw : walkTo s.mem t q = some f) : ty f = some (r,p++q) := by
  induction q generalizing t p with
  | nil =>
    cases hw
    simpa using ht
  | cons i q ih =>
    obtain ⟨hl,hw⟩ := walkTo_cons.mp hw
    have hlen : p.length < 3 := by simp at hq; omega
    have hnext := h.link_typed ht hlen (fun hp => hi i (by simp [hp])) hl
    simpa using ih hnext (by simpa using hq) (by simpa using hi) hw

/-- Growing keeps the tables that could be reached. -/
theorem Grown.walk (h : Forest large s ty) (hg : Grown s s' ty ty' r) (ht : ty t = some (r,p))
    (hq : (p++q).length ≤ 3) (hi : Low (p++q)) (hw : walkTo s.mem t q = some f) :
    walkTo s'.mem t q = some f := by
  induction q generalizing t p with
  | nil => exact hw
  | cons i q ih =>
    obtain ⟨hl,hw⟩ := walkTo_cons.mp hw
    have hlen : p.length < 3 := by simp at hq; omega
    have hi' : p = [] → i < 256 := fun hp => hi i (by simp [hp])
    have ho := hg.opened t p i ht hlen hi' (link_present hl)
    refine walkTo_cons.mpr ⟨ho.link.trans hl,?_⟩
    rw [ho.bits.2.2]
    exact ih (h.link_typed ht hlen hi' hl) (by simpa using hq) (by simpa using hi) hw

theorem Grown.walk_back (h : Forest large s' ty') (hg : Grown s s' ty ty' r)
    (ht : ty' t = some (r,p)) (hq : (p++q).length ≤ 3) (hi : Low (p++q))
    (hw : walkTo s'.mem t q = some f) (hf : ty f ≠ none) :
    ty t = some (r,p) ∧ walkTo s.mem t q = some f := by
  induction q generalizing t p with
  | nil =>
    cases hw
    obtain ⟨x,hx⟩ := Option.ne_none_iff_exists'.mp hf
    have he := (hg.old f x hx).symm.trans ht
    exact ⟨hx.trans he,rfl⟩
  | cons i q ih =>
    obtain ⟨hl,hw⟩ := walkTo_cons.mp hw
    have hlen : p.length < 3 := by simp at hq; omega
    have hi' : p = [] → i < 256 := fun hp => hi i (by simp [hp])
    obtain ⟨hold,hrest⟩ := ih (h.link_typed ht hlen hi' hl) (by simpa using hq) (by simpa using hi) hw
    obtain ⟨htt,hpt⟩ := hg.fresh t p i ht hlen hi' hl (by rw [hold]; simp)
    have ho := hg.opened t p i htt hlen hi' hpt
    refine ⟨htt,walkTo_cons.mpr ⟨ho.link.symm.trans hl,?_⟩⟩
    rw [← ho.bits.2.2]
    exact hrest

/-- The tables of other roots are as they were. -/
theorem walkTo_typed_congr {m : Mem} (h : Forest large s ty) (ht : ty t = some (r,p))
    (hm : ∀ f path, ty f = some (r,path) → path.length < 3 → ∀ i, (path = [] → i < 256) →
      m f i = s.mem f i)
    (hq : (p++q).length ≤ 3) (hi : Low (p++q)) : walkTo m t q = walkTo s.mem t q := by
  induction q generalizing t p with
  | nil => rfl
  | cons i q ih =>
    have hlen : p.length < 3 := by simp at hq; omega
    have hi' : p = [] → i < 256 := fun hp => hi i (by simp [hp])
    rw [walkTo,walkTo,hm t p ht hlen i hi']
    split
    · rename_i hl
      exact ih (h.link_typed ht hlen hi' hl) (by simpa using hq) (by simpa using hi)
    · rfl

theorem low_pathOf {v : ℕ} (hv : pml4Idx v < 256) : Low (pathOf v) := by
  intro i hi
  simp only [pathOf,List.head?_cons,Option.mem_def,Option.some.injEq] at hi
  omega

theorem Along.trans {path path' : List ℕ} (h : Along ty ty' path)
    (h' : Along ty' ty'' path') (hp : path <+: path') (hold : ∀ f x, ty' f = some x → ty'' f = some x) :
    Along ty ty'' path' := by
  intro f x hf hf''
  cases hf' : ty' f with
  | none => exact h' f x hf' hf''
  | some y =>
    have hx := (hold f y hf').symm.trans hf''
    rw [Option.some.injEq] at hx
    subst hx
    exact (h f y hf hf').trans hp

/-- The walk for `v` meets no 2 MB page. -/
def Uncovered (m : Mem) (root v : ℕ) : Prop :=
  ∀ g, walkTo m root [pml4Idx v,pdptIdx v] = some g →
    present (m g (pdIdx v)) = true → huge (m g (pdIdx v)) = false

theorem Along.mono {path path' : List ℕ} (h : Along ty ty' path) (hp : path <+: path') :
    Along ty ty' path' := fun f x hf hf' => (h f x hf hf').trans hp

/-- Mapping a page at a low address that no 2 MB page covers: tables are added along the path,
and unless one cannot be allocated the entry is stored in the page table at its end. -/
theorem map_tree (h : Forest large s ty) (hr : ty r = some (r,[])) {v phys : ℕ}
    (hv : pml4Idx v < 256) (hc : Uncovered s.mem r v) {flags : Word} {ok : Bool}
    (hm : vmmMapPageInCr3 s r v phys flags = (ok,s')) :
    ∃ s₁ ty', Forest large s₁ ty' ∧ Grown s s₁ ty ty' r ∧ Blank s₁ ty ty' r ∧ Along ty ty' (pathOf v) ∧
      (ok = false ∧ s' = s₁ ∨ ok = true ∧ ∃ pt, walkTo s₁.mem r (pathOf v) = some pt ∧
        s' = s₁.store pt (ptIdx v) (pteOf phys flags)) := by
  rw [map_eq] at hm
  split at hm
  · obtain ⟨rfl,rfl⟩ := Prod.mk.inj hm
    exact ⟨s,ty,h,Grown.refl s ty r,Blank.refl s ty r,Along.refl ty _,Or.inl ⟨rfl,rfl⟩⟩
  rename_i pdpt sa ha
  obtain ⟨tya,hma,hga,hba,hla,hta,hwa⟩ := nextTable_tree h hr (by simp) (fun _ => hv) (by simp) ha
  simp only [mapBelowPdpt] at hm
  split at hm
  · obtain ⟨rfl,rfl⟩ := Prod.mk.inj hm
    exact ⟨sa,tya,hma,hga,hba,hla.mono (by simp [pathOf]),Or.inl ⟨rfl,rfl⟩⟩
  rename_i pd sb hb
  obtain ⟨tyb,hmb,hgb,hbb,hlb,htb,hwb⟩ := nextTable_tree hma hta (by simp) (by simp) (by simp) hb
  have hgab := hga.trans hgb
  have hlab : Along ty tyb [pml4Idx v,pdptIdx v] := hla.trans hlb (by simp) hgb.old
  have h4 := hgb.walk hma (hga.old r _ hr) (q:=[pml4Idx v]) (by simp)
    (by intro i hi; simp at hi; omega) hwa
  have hpd : walkTo sb.mem r [pml4Idx v,pdptIdx v] = some pd := by
    obtain ⟨hl4,he4⟩ := walkTo_cons.mp h4
    refine walkTo_cons.mpr ⟨hl4,?_⟩
    rw [Option.some.inj he4]
    exact hwb
  simp only [mapBelowPd] at hm
  split at hm
  · obtain ⟨rfl,rfl⟩ := Prod.mk.inj hm
    exact ⟨sb,tyb,hmb,hgab,hba.trans hbb hgb,hlab.mono (by simp [pathOf]),Or.inl ⟨rfl,rfl⟩⟩
  rename_i pt sc hc'
  have hr' := hgab.old r _ hr
  have hlow : Low ([]++[pml4Idx v,pdptIdx v]) := by simpa [Low] using hv
  have hsmall : present (sb.mem pd (pdIdx v)) = true → huge (sb.mem pd (pdIdx v)) = false := by
    intro hp
    cases hh : huge (sb.mem pd (pdIdx v)) with
    | false => rfl
    | true =>
      -- a large page would be an old one, and the walk led to it before
      obtain ⟨hold,hp',hh'⟩ := hgab.large pd _ _ htb (by simp) (by simp) hp hh
      have hw := (hgab.walk_back hmb hr' (by simp) hlow hpd (by simp [hold])).2
      rw [hc pd hw hp'] at hh'
      cases hh'
  obtain ⟨tyc,hmc,hgc,hbc,hlc,-,hwc⟩ := nextTable_tree hmb htb (by simp) (by simp) (fun _ => hsmall) hc'
  obtain ⟨rfl,rfl⟩ := Prod.mk.inj hm
  refine ⟨sc,tyc,hmc,hgab.trans hgc,(hba.trans hbb hgb).trans hbc hgc,
    hlab.trans hlc (List.prefix_append ..) hgc.old,Or.inr ⟨rfl,pt,?_,rfl⟩⟩
  have hpath : pathOf v = [pml4Idx v,pdptIdx v]++[pdIdx v] := rfl
  rw [hpath]
  exact walkTo_append.mpr ⟨pd,hgc.walk hmb hr' (by simp) hlow hpd,hwc⟩

end Memory
end DonsOs
