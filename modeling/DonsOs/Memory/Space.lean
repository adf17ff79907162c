import DonsOs.Memory.Clone

/-! Address spaces as partial maps.
The low half of an address space maps page numbers to entries of page tables.  Mapping a page
updates this map at one page, a clone copies it, and nothing else touches it. -/
namespace DonsOs
namespace Memory

open Paging

/-- Page numbers of the low half. -/
def lowPages : ℕ := 2^35

/-- The entry of the page `n`, if it is present. -/
def pageWord (m : Mem) (root n : ℕ) : Option Word :=
  (walkTo m root (pathOf (n*4096))).bind fun t =>
    let e := m t (ptIdx (n*4096))
    if present e then some e else none

variable {base : ℕ} {s s' : Vm} {ty ty' : Typing} {r r' n f : ℕ} {large : List ℕ → Word → Prop}

theorem low_page (hn : n < lowPages) : pml4Idx (n*4096) < 256 := by
  simp only [lowPages] at hn
  simp only [pml4Idx]
  omega

theorem page_inj {n n' : ℕ} (hn : n < lowPages) (hn' : n' < lowPages)
    (hp : pathOf (n*4096) = pathOf (n'*4096)) (hi : ptIdx (n*4096) = ptIdx (n'*4096)) : n = n' := by
  simp only [pathOf,List.cons.injEq,and_true,pml4Idx,pdptIdx,pdIdx] at hp
  simp only [ptIdx,lowPages] at hi hn hn'
  omega

/-- The view of `r` depends on the words of its tables alone. -/
theorem pageWord_eq_of_words {m : Mem} (h : Forest large s ty) (hr : ty r = some (r,[]))
    (hn : n < lowPages)
    (hm : ∀ f path i, ty f = some (r,path) → (path = [] → i < 256) → m f i = s.mem f i) :
    pageWord m r n = pageWord s.mem r n := by
  have hlow := low_pathOf (low_page hn)
  have hw : walkTo m r (pathOf (n*4096)) = walkTo s.mem r (pathOf (n*4096)) :=
    walkTo_typed_congr h hr (fun f path hf _ i hi => hm f path i hf hi) (by simp [pathOf])
      (by simpa using hlow)
  rw [pageWord,pageWord,hw]
  cases ht : walkTo s.mem r (pathOf (n*4096)) with
  | none => rfl
  | some t =>
    have htt := h.walk_typed hr (by simp [pathOf]) (by simpa using hlow) ht
    simp only [Option.bind_some,hm t _ _ htt (by simp [pathOf])]

/-- Growing the tables of one root does not show in the view of another. -/
theorem Extends.pageWord_other (hx : Extends s s' ty ty' r) (h : Forest large s ty)
    (hr : ty r' = some (r',[])) (hne : r' ≠ r) (hn : n < lowPages) :
    pageWord s'.mem r' n = pageWord s.mem r' n := by
  refine pageWord_eq_of_words h hr hn fun f path i hf _ => ?_
  refine congrFun (hx.keep f (Or.inl (h.typed f _ hf).2.2) fun path' hf' => hne ?_) i
  exact (Prod.mk.inj (Option.some.inj (hf.symm.trans hf'))).1

/-- Nor does it show in the view of the root itself, as new page tables are empty. -/
theorem Grown.pageWord_self (hg : Grown s s' ty ty' r) (hbl : Blank s' ty ty' r)
    (h : Forest large s ty) (h' : Forest large s' ty') (hr : ty r = some (r,[])) (hn : n < lowPages) :
    pageWord s'.mem r n = pageWord s.mem r n := by
  have hlow : Low ([]++pathOf (n*4096)) := low_pathOf (low_page hn)
  have hlen : ([]++pathOf (n*4096)).length ≤ 3 := by simp [pathOf]
  have hr' := hg.old r _ hr
  rw [pageWord,pageWord]
  cases ht' : walkTo s'.mem r (pathOf (n*4096)) with
  | none =>
    cases ht : walkTo s.mem r (pathOf (n*4096)) with
    | none => rfl
    | some t =>
      rw [hg.walk h hr hlen hlow ht] at ht'
      cases ht'
  | some t =>
    have htt := h'.walk_typed hr' hlen hlow ht'
    cases htold : ty t with
    | some x =>
      have hold := (hg.old t x htold).symm.trans htt
      rw [(hg.walk_back h' hr' hlen hlow ht' (by simp [htold])).2]
      simp only [Option.bind_some]
      rw [hg.leaf t _ (htold.trans hold) rfl]
    | none =>
      have hz := hbl t _ htold htt rfl (ptIdx (n*4096))
      cases ht : walkTo s.mem r (pathOf (n*4096)) with
      | none => simp [hz,present]
      | some u =>
        have hu := h.walk_typed hr hlen hlow ht
        rw [hg.walk h hr hlen hlow ht,Option.some.injEq] at ht'
        rw [ht',htold] at hu
        cases hu

theorem pageWord_store (h : Forest large s ty) (hr : ty r = some (r,[])) {v t : ℕ} (hv : v < lowPages)
    (hw : walkTo s.mem r (pathOf (v*4096)) = some t) {w : Word} (hp : present w = true)
    (hn : n < lowPages) : pageWord (s.store t (ptIdx (v*4096)) w).mem r n =
      if n = v then some w else pageWord s.mem r n := by
  have ht := h.walk_typed hr (by simp [pathOf]) (by simpa using low_pathOf (low_page hv)) hw
  -- the walk does not read the page table, so the store leaves it alone
  have hwalk : walkTo (s.store t (ptIdx (v*4096)) w).mem r (pathOf (n*4096)) =
      walkTo s.mem r (pathOf (n*4096)) := by
    refine walkTo_typed_congr h hr (fun g path hg hl i _ => ?_) (by simp [pathOf])
      (by simpa using low_pathOf (low_page hn))
    have hne : g ≠ t := by
      rintro rfl
      rw [(Prod.mk.inj (Option.some.inj (hg.symm.trans ht))).2] at hl
      simp [pathOf] at hl
    exact congrFun (store_of_ne hne) i
  split
  · rename_i he
    subst he
    rw [pageWord,hwalk,hw]
    simp [Vm.store,hp]
  · rename_i hne
    rw [pageWord,pageWord,hwalk]
    cases hw' : walkTo s.mem r (pathOf (n*4096)) with
    | none => rfl
    | some g =>
      have hg := h.walk_typed hr (by simp [pathOf]) (by simpa using low_pathOf (low_page hn)) hw'
      have hword : (s.store t (ptIdx (v*4096)) w).mem g (ptIdx (n*4096)) =
          s.mem g (ptIdx (n*4096)) := by
        simp only [Vm.store,store_apply]
        rw [if_neg]
        rintro ⟨rfl,hi⟩
        have hpath := (Prod.mk.inj (Option.some.inj (hg.symm.trans ht))).2
        exact hne (page_inj hn hv (by simpa using hpath) hi)
      simp only [Option.bind_some,hword]

/-- Mapping a page updates the map at this page, unless a table cannot be allocated. -/
theorem pageWord_map (h : Forest large s ty) (hr : ty r = some (r,[])) {v phys : ℕ}
    (hv : v < lowPages) (hc : Uncovered s.mem r (v*4096)) {flags : Word} {ok : Bool}
    (hm : vmmMapPageInCr3 s r (v*4096) phys flags = (ok,s')) :
    ∃ ty', Forest large s' ty' ∧ Extends s s' ty ty' r ∧ (∀ i, 256 ≤ i → s'.mem r i = s.mem r i) ∧
      ∀ n < lowPages, pageWord s'.mem r n =
        if n = v ∧ ok = true then some (pteOf phys flags) else pageWord s.mem r n := by
  obtain ⟨s₁,ty',h₁,hg,hbl,-,hend⟩ := map_tree h hr (low_page hv) hc hm
  have hr' := hg.old r _ hr
  rcases hend with ⟨rfl,rfl⟩ | ⟨rfl,t,hw,rfl⟩
  · refine ⟨ty',h₁,hg.toExtends,hg.high r hr,fun n hn => ?_⟩
    simpa using hg.pageWord_self hbl h h₁ hr hn
  · have ht := h₁.walk_typed hr' (by simp [pathOf]) (by simpa using low_pathOf (low_page hv)) hw
    have hne : r ≠ t := by
      rintro rfl
      have hpath := (Prod.mk.inj (Option.some.inj (hr'.symm.trans ht))).2
      simp [pathOf] at hpath
    refine ⟨ty',h₁.store ht fun hlen => by simp [pathOf] at hlen,hg.toExtends.store ht _ _,
      fun i hi => (congrFun (store_of_ne hne) i).trans (hg.high r hr i hi),fun n hn => ?_⟩
    rw [pageWord_store h₁ hr' hv hw (present_pteOf phys flags) hn,hg.pageWord_self hbl h h₁ hr hn]
    simp

theorem Copied.walk {m m' : Mem} {k src new i : ℕ} {q : List ℕ} (hc : Copied m m' k src new i)
    (hq : q.length = k) (hi : ∀ j ∈ q, j < 512) :
    (∀ t, walkTo m' new (i::q) = some t → ∃ g, walkTo m src (i::q) = some g ∧ m' t = m g) ∧
    (∀ g, walkTo m src (i::q) = some g → ∃ t, walkTo m' new (i::q) = some t ∧ m' t = m g) := by
  obtain ⟨hst,hcop⟩ := hc
  have hl := hst.link
  constructor
  · intro t ht
    obtain ⟨hlt,ht⟩ := walkTo_cons.mp ht
    rw [hl] at hlt
    obtain ⟨g,hg,he⟩ := ((hcop hlt).walk hq hi).1 t ht
    exact ⟨g,walkTo_cons.mpr ⟨hlt,hg⟩,he⟩
  · intro g hg
    obtain ⟨hlg,hg⟩ := walkTo_cons.mp hg
    obtain ⟨t,ht,he⟩ := ((hcop hlg).walk hq hi).2 g hg
    exact ⟨t,walkTo_cons.mpr ⟨hl.trans hlg,ht⟩,he⟩

theorem pageWord_clone {m m' : Mem} {src new : ℕ} (hc : ∀ i < 256, Copied m m' 2 src new i)
    (hn : n < lowPages) : pageWord m' new n = pageWord m src n := by
  obtain ⟨hfor,hback⟩ := (hc (pml4Idx (n*4096)) (low_page hn)).walk
    (q:=[pdptIdx (n*4096),pdIdx (n*4096)]) rfl fun i hi => by
      simp only [List.mem_cons,List.not_mem_nil,or_false,pdptIdx,pdIdx] at hi
      omega
  rw [pageWord,pageWord]
  cases ht : walkTo m' new (pathOf (n*4096)) with
  | some t =>
    obtain ⟨g,hg,he⟩ := hfor t ht
    rw [pathOf,hg]
    simp only [Option.bind_some,he]
  | none =>
    cases ht' : walkTo m src (pathOf (n*4096)) with
    | none => rfl
    | some g =>
      obtain ⟨t,hw,-⟩ := hback g ht'
      rw [pathOf,hw] at ht
      cases ht

end Memory
end DonsOs
