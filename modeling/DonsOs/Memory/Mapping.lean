import DonsOs.Memory.Model

/-! What a mapping call writes.
The walk of `vmm_map_page` never looks at the page-size bit.  Where the tables end in a
2 MB entry it takes the large page itself for a page table and stores the new entry in
it. -/
namespace DonsOs
namespace Memory

open Paging

/-! Allocation. -/

/-- `f` was free and is handed out. -/
structure Taken (p p' : Pmm) (f : ℕ) : Prop where
  free : p.bitmap f = false
  bitmap : p'.bitmap = Function.update p.bitmap f true
  refCount : p'.refCount = Function.update p.refCount f 1
  zones : p'.zones = p.zones

theorem allocForTables_spec {p p' : Pmm} {f : ℕ} (h : pmmAllocPageForTables p = some (f,p')) :
    Taken p p' f ∧ 512 ≤ f ∧ p.nextLow ≤ f ∧ f ≤ p.zones.lowEnd := by
  simp only [pmmAllocPageForTables,pmmAllocPage,reduceCtorEq,or_self,if_false] at h
  split at h
  · cases h
  · obtain ⟨page,hp,he⟩ := Option.map_eq_some_iff.mp h
    have hfind := List.find?_some hp
    have hmem := List.mem_range'_1.mp (List.mem_of_find?_eq_some hp)
    simp only [Prod.mk.injEq] at he
    obtain ⟨rfl,rfl⟩ := he
    simp at hfind
    exact ⟨⟨hfind.2,rfl,rfl,rfl⟩,by omega,hmem.1,by omega⟩

theorem allocForElf_spec {p p' : Pmm} {f : ℕ} (h : pmmAllocPageForElf p = some (f,p')) :
    Taken p p' f ∧ p.zones.highStart ≤ f ∧ f ≤ p.nextHigh ∧
      ¬(p.zones.highStart = 0 ∧ p.zones.highEnd = 0) := by
  simp only [pmmAllocPageForElf,pmmAllocPage,true_or,if_true] at h
  split at h
  · cases h
  · rename_i hz
    obtain ⟨page,hp,he⟩ := Option.map_eq_some_iff.mp h
    have hfind := List.find?_some hp
    have hmem := List.mem_range'_1.mp (List.mem_reverse.mp (List.mem_of_find?_eq_some hp))
    simp only [Prod.mk.injEq] at he
    obtain ⟨rfl,rfl⟩ := he
    exact ⟨⟨by simpa using hfind,rfl,rfl,rfl⟩,hmem.1,by omega,hz⟩

/-! Flags. -/

def rwFlags : Word := ptWrite ||| ptUser

@[simp] theorem frameOf_rw (e : Word) : frameOf (e ||| rwFlags) = frameOf e :=
  frameOf_or (by decide)
@[simp] theorem present_rw (e : Word) : present (e ||| rwFlags) = present e := by
  have hz : rwFlags.getLsbD 0 = false := by decide
  simp only [present,BitVec.getLsbD_or,hz,Bool.or_false]
@[simp] theorem huge_rw (e : Word) : huge (e ||| rwFlags) = huge e := by
  have hz : rwFlags.getLsbD 7 = false := by decide
  simp only [huge,BitVec.getLsbD_or,hz,Bool.or_false]

theorem dirFlags_lt (flags : Word) : (dirFlags flags).toNat < 4096 := by
  have h7 : (ptPresent ||| ptWrite ||| ptUser).toNat < 2^12 := by decide
  have h24 : (flags &&& (pagePcd ||| pagePwt)).toNat < 2^12 := by
    rw [BitVec.toNat_and]
    exact Nat.lt_of_le_of_lt Nat.and_le_right (by decide)
  have hor := Nat.or_lt_two_pow h7 h24
  simpa [dirFlags] using hor

theorem present_dirFlags (f : ℕ) (flags : Word) : present (entry f (dirFlags flags)) = true := by
  have h0 : ptPresent.getLsbD 0 = true := by decide
  rw [present,getLsbD_entry (by decide)]
  simp [dirFlags,h0]

theorem present_pteOf (phys : ℕ) (flags : Word) : present (pteOf phys flags) = true := by
  have h0 : ptPresent.getLsbD 0 = true := by decide
  rw [present,pteOf,getLsbD_entry (by decide)]
  simp [h0]

theorem frameOf_dirFlags {f : ℕ} (hf : f < 2^52) (flags : Word) :
    frameOf (entry f (dirFlags flags)) = f := frameOf_entry hf (dirFlags_lt flags)

/-! The frames of a hierarchy. -/

def Pdpt (m : Mem) (root f : ℕ) : Prop :=
  ∃ i, present (m root i) = true ∧ f = frameOf (m root i)

def Pd (m : Mem) (root f : ℕ) : Prop :=
  ∃ t, Pdpt m root t ∧ ∃ i, present (m t i) = true ∧ huge (m t i) = false ∧ f = frameOf (m t i)

def Pt (m : Mem) (root f : ℕ) : Prop :=
  ∃ t, Pd m root t ∧ ∃ i, present (m t i) = true ∧ huge (m t i) = false ∧ f = frameOf (m t i)

def TableFrame (m : Mem) (root f : ℕ) : Prop :=
  f = root ∨ Pdpt m root f ∨ Pd m root f ∨ Pt m root f

/-- `f` has been handed out between the two states. -/
def Fresh (s s' : Vm) (f : ℕ) : Prop := s.pmm.bitmap f = false ∧ s'.pmm.bitmap f = true

/-- Only table frames of the hierarchy and frames handed out on the way differ. -/
def Confined (s s' : Vm) (root : ℕ) : Prop :=
  ∀ f i, s'.mem f i ≠ s.mem f i → TableFrame s.mem root f ∨ Fresh s s' f

/-- The walk meets no 1 GB entry.  The boot tables have none. -/
def NoGiant (m : Mem) (root virt : ℕ) : Prop :=
  present (m root (pml4Idx virt)) = true →
    present (m (frameOf (m root (pml4Idx virt))) (pdptIdx virt)) = true →
    huge (m (frameOf (m root (pml4Idx virt))) (pdptIdx virt)) = false

/-- The walk ends in a 2 MB entry, and the page behind it is no table and does not hold the
new entry already. -/
def Strays (m : Mem) (root virt : ℕ) (pte : Word) : Prop :=
  let e4 := m root (pml4Idx virt)
  let e3 := m (frameOf e4) (pdptIdx virt)
  let e2 := m (frameOf e3) (pdIdx virt)
  present e4 = true ∧ present e3 = true ∧ present e2 = true ∧ huge e2 = true ∧
    ¬TableFrame m root (frameOf e2) ∧ m (frameOf e2) (ptIdx virt) ≠ pte

theorem nextTable_cases {s s' : Vm} {t i f : ℕ} {d : Word} (h : nextTable s t i d = some (f,s')) :
    present (s.mem t i) = true ∧ f = frameOf (s.mem t i) ∧
        s' = s.store t i (s.mem t i ||| rwFlags) ∨
      present (s.mem t i) = false ∧ ∃ pmm, pmmAllocPageForTables s.pmm = some (f,pmm) ∧
        s' = { s with pmm := pmm, mem := fill s.mem f fun _ => 0 }.store t i (entry f d) := by
  simp only [nextTable] at h
  cases hp : present (s.mem t i) with
  | true =>
    simp only [hp,Bool.not_true,Bool.false_eq_true,if_false,Option.some.injEq,Prod.mk.injEq] at h
    obtain ⟨rfl,rfl⟩ := h
    refine Or.inl ⟨rfl,?_,rfl⟩
    simp only [Vm.store,store_self]
    exact frameOf_rw (s.mem t i)
  | false =>
    simp only [hp,Bool.not_false,if_true] at h
    split at h
    · cases h
    · rename_i g pmm ha
      simp only [Option.some.injEq,Prod.mk.injEq] at h
      obtain ⟨rfl,rfl⟩ := h
      exact Or.inr ⟨rfl,pmm,ha,rfl⟩

/-! The walk as long as every entry is there. -/

variable {s₀ s s' : Vm} {root t i f : ℕ} {d : Word}

/-- Nothing has been allocated; some entries of tables have been opened. -/
structure Opened (s₀ s : Vm) (root : ℕ) : Prop where
  pmm : s.pmm = s₀.pmm
  words : ∀ f i, s.mem f i = s₀.mem f i ∨
    s.mem f i = s₀.mem f i ||| rwFlags ∧ TableFrame s₀.mem root f

theorem Opened.refl (s : Vm) (root : ℕ) : Opened s s root := ⟨rfl,fun _ _ => Or.inl rfl⟩

theorem Opened.bits (h : Opened s₀ s root) (f i : ℕ) :
    present (s.mem f i) = present (s₀.mem f i) ∧ huge (s.mem f i) = huge (s₀.mem f i) ∧
      frameOf (s.mem f i) = frameOf (s₀.mem f i) := by
  rcases h.words f i with he | ⟨he,-⟩ <;> simp [he]

theorem Opened.confined (h : Opened s₀ s root) : Confined s₀ s root := by
  intro f i hne
  rcases h.words f i with he | ⟨-,ht⟩
  · exact absurd he hne
  · exact Or.inl ht

theorem Opened.step (h : Opened s₀ s root) (ht : TableFrame s₀.mem root t) (i : ℕ) :
    Opened s₀ (s.store t i (s.mem t i ||| rwFlags)) root := by
  refine ⟨h.pmm,fun g j => ?_⟩
  simp only [Vm.store,store_apply]
  split
  · rename_i hg
    obtain ⟨rfl,rfl⟩ := hg
    refine Or.inr ⟨?_,ht⟩
    rcases h.words g j with he | ⟨he,-⟩
    · rw [he]
    · rw [he,BitVec.or_assoc,BitVec.or_self]
  · exact h.words g j

/-! The walk below a table that has just been allocated. -/

/-- The table `t` is new, and new tables point to new tables only. -/
structure Growing (s₀ s : Vm) (root t : ℕ) : Prop where
  confined : Confined s₀ s root
  fresh : Fresh s₀ s t
  own : ∀ f, Fresh s₀ s f → ∀ i, present (s.mem f i) = true → Fresh s₀ s (frameOf (s.mem f i))

variable {pmm : Pmm} {m : Mem}

/-- A frame that was free when the walk began and is taken now. -/
theorem Taken.fresh (h : Taken s.pmm pmm f) (hb : s₀.pmm.bitmap f = false)
    {c : ℕ} : Fresh s₀ ⟨m,pmm,c⟩ f := by
  refine ⟨hb,?_⟩
  rw [h.bitmap]
  simp

theorem Taken.keep (h : Taken s.pmm pmm f) {g : ℕ} (hg : Fresh s₀ s g)
    {c : ℕ} : Fresh s₀ ⟨m,pmm,c⟩ g := by
  refine ⟨hg.1,?_⟩
  simp only [h.bitmap,Function.update_apply]
  split
  · rfl
  · exact hg.2

theorem Taken.fresh_cases (h : Taken s.pmm pmm f) {g : ℕ} {c : ℕ}
    (hg : Fresh s₀ ⟨m,pmm,c⟩ g) : g = f ∨ Fresh s₀ s g := by
  by_cases he : g = f
  · exact Or.inl he
  · refine Or.inr ⟨hg.1,?_⟩
    have hb := hg.2
    simpa only [h.bitmap,Function.update_of_ne he] using hb

theorem Confined.store (h : Confined s₀ s root) (ht : TableFrame s₀.mem root t ∨ Fresh s₀ s t)
    (i : ℕ) (w : Word) : Confined s₀ (s.store t i w) root := by
  intro g j hne
  simp only [Vm.store,store_apply] at hne
  split at hne
  · rename_i hg
    rw [hg.1]
    exact ht
  · exact h g j hne

theorem Confined.alloc (h : Confined s₀ s root) (ha : Taken s.pmm pmm f)
    (hb : s₀.pmm.bitmap f = false) :
    Confined s₀ { s with pmm := pmm, mem := fill s.mem f fun _ => 0 } root := by
  intro g j hne
  by_cases hg : g = f
  · rw [hg]
    exact Or.inr (ha.fresh hb)
  · simp only [fill_of_ne hg] at hne
    exact (h g j hne).imp id fun hfr => ha.keep hfr

/-- Links to new tables keep the new tables among themselves. -/
theorem Growing.link (hc : Confined s₀ s root) (hf : f < 2^52)
    (ha : Taken s.pmm pmm f) (hb : s₀.pmm.bitmap f = false)
    (ht : TableFrame s₀.mem root t ∨ Fresh s₀ s t)
    (ho : ∀ g, Fresh s₀ s g → ∀ i, present (s.mem g i) = true → Fresh s₀ s (frameOf (s.mem g i)))
    (i : ℕ) (flags : Word) :
    Growing s₀ ({ s with pmm := pmm, mem := fill s.mem f fun _ => 0 }.store t i
      (entry f (dirFlags flags))) root f := by
  have hnew : Fresh s₀ ({ s with pmm := pmm, mem := fill s.mem f fun _ => 0 }.store t i
      (entry f (dirFlags flags))) f := ha.fresh hb
  refine ⟨(hc.alloc ha hb).store (ht.imp id fun hfr => ha.keep hfr) i _,hnew,fun g hg j hp => ?_⟩
  simp only [Vm.store,store_apply] at hp ⊢
  split
  · rw [frameOf_dirFlags hf]
    exact hnew
  · rename_i hne
    rw [if_neg hne] at hp
    by_cases hgf : g = f
    · subst hgf
      simp [present] at hp
    · rw [fill_of_ne hgf] at hp ⊢
      exact ha.keep (ho g ((ha.fresh_cases hg).resolve_left hgf) j hp)

theorem Growing.next (h : Growing s₀ s root t) {flags : Word} {idx : ℕ}
    (hb : ∀ g, s₀.pmm.bitmap g = true → s.pmm.bitmap g = true)
    (hn : nextTable s t idx (dirFlags flags) = some (f,s')) :
    Growing s₀ s' root f ∧ ∀ g, s₀.pmm.bitmap g = true → s'.pmm.bitmap g = true := by
  rcases nextTable_cases hn with ⟨hp,rfl,rfl⟩ | ⟨-,pmm,ha,rfl⟩
  · refine ⟨⟨h.confined.store (Or.inr h.fresh) _ _,h.own t h.fresh idx hp,fun g hg j hpg => ?_⟩,hb⟩
    simp only [Vm.store,store_apply] at hpg ⊢
    split
    · rename_i he
      rw [frameOf_rw]
      exact h.own t h.fresh idx hp
    · rename_i he
      rw [if_neg he] at hpg
      exact h.own g hg j hpg
  · obtain ⟨htk,-,-,hlt⟩ := allocForTables_spec ha
    have hmax : f < 2^52 := by
      have := s.pmm.zones.low_lt
      simp only [maxPages] at this
      omega
    have hfree : s₀.pmm.bitmap f = false := by
      by_contra hno
      rw [Bool.not_eq_false] at hno
      exact Bool.noConfusion ((hb f hno).symm.trans htk.free)
    refine ⟨Growing.link h.confined hmax htk hfree (Or.inr h.fresh) h.own idx flags,fun g hg => ?_⟩
    simp only [Vm.store,htk.bitmap,Function.update_apply]
    split
    · rfl
    · exact hb g hg

theorem Opened.grow (h : Opened s₀ s root) (ht : TableFrame s₀.mem root t)
    (ha : pmmAllocPageForTables s.pmm = some (f,pmm)) (i : ℕ) (flags : Word) :
    Growing s₀ ({ s with pmm := pmm, mem := fill s.mem f fun _ => 0 }.store t i
      (entry f (dirFlags flags))) root f ∧
    ∀ g, s₀.pmm.bitmap g = true → pmm.bitmap g = true := by
  obtain ⟨htk,-,-,hlt⟩ := allocForTables_spec ha
  have hmax : f < 2^52 := by
    have hz := s.pmm.zones.low_lt
    simp only [maxPages] at hz
    omega
  have hnone : ∀ g, ¬Fresh s₀ s g := fun g hg => by
    have hb := hg.2
    rw [h.pmm,hg.1] at hb
    cases hb
  refine ⟨Growing.link h.confined hmax htk (h.pmm ▸ htk.free) (Or.inl ht)
    (fun g hg => absurd hg (hnone g)) i flags,fun g hg => ?_⟩
  rw [htk.bitmap,h.pmm,Function.update_apply]
  split
  · rfl
  · exact hg

theorem Growing.finish (h : Growing s₀ s root t) (i : ℕ) (w : Word) :
    Confined s₀ (s.store t i w) root := h.confined.store (Or.inr h.fresh) i w

/-- The part of the walk below the page directory. -/
def mapBelowPd (s : Vm) (pd virt phys : ℕ) (flags : Word) : Bool × Vm :=
  match nextTable s pd (pdIdx virt) (dirFlags flags) with
  | none => (false,s)
  | some (pt,s) => (true,s.store pt (ptIdx virt) (pteOf phys flags))

/-- The part of the walk below the directory pointer table. -/
def mapBelowPdpt (s : Vm) (pdpt virt phys : ℕ) (flags : Word) : Bool × Vm :=
  match nextTable s pdpt (pdptIdx virt) (dirFlags flags) with
  | none => (false,s)
  | some (pd,s) => mapBelowPd s pd virt phys flags

theorem map_eq (s : Vm) (cr3 virt phys : ℕ) (flags : Word) :
    vmmMapPageInCr3 s cr3 virt phys flags =
      match nextTable s cr3 (pml4Idx virt) (dirFlags flags) with
      | none => (false,s)
      | some (pdpt,s) => mapBelowPdpt s pdpt virt phys flags := rfl

/-- The walk of `vmm_map_page` along `path`, adding the tables that are missing. -/
def descend (d : Word) : List ℕ → Vm → ℕ → Except Vm (ℕ × Vm)
  | [], s, t => .ok (t,s)
  | i::path, s, t =>
    match nextTable s t i d with
    | none => .error s
    | some (f,s) => descend d path s f

theorem map_eq_descend (s : Vm) (cr3 virt phys : ℕ) (flags : Word) :
    vmmMapPageInCr3 s cr3 virt phys flags =
      match descend (dirFlags flags) (pathOf virt) s cr3 with
      | .error s => (false,s)
      | .ok (pt,s) => (true,s.store pt (ptIdx virt) (pteOf phys flags)) := by
  simp only [map_eq,mapBelowPdpt,mapBelowPd,pathOf,descend]
  cases nextTable s cr3 (pml4Idx virt) (dirFlags flags) with
  | none => rfl
  | some x =>
    dsimp only
    cases nextTable x.2 x.1 (pdptIdx virt) (dirFlags flags) with
    | none => rfl
    | some y =>
      dsimp only
      cases nextTable y.2 y.1 (pdIdx virt) (dirFlags flags) <;> rfl

section

variable (h : Growing s₀ s root t) (hb : ∀ g, s₀.pmm.bitmap g = true → s.pmm.bitmap g = true)
  (virt phys : ℕ) (flags : Word)
include h hb

theorem Growing.belowPd : Confined s₀ (mapBelowPd s t virt phys flags).2 root := by
  simp only [mapBelowPd]
  split
  · exact h.confined
  · rename_i pt s₁ hn
    exact (h.next hb hn).1.finish _ _

theorem Growing.belowPdpt : Confined s₀ (mapBelowPdpt s t virt phys flags).2 root := by
  simp only [mapBelowPdpt]
  split
  · exact h.confined
  · rename_i pd s₁ hn
    obtain ⟨hg,hb₁⟩ := h.next hb hn
    exact hg.belowPd hb₁ virt phys flags

end

section
variable {virt phys : ℕ} {flags : Word}

/-- The last level: the entry is stored in a page table, in a new one, or strays. -/
theorem Opened.belowPd (h : Opened s₀ s root) (ht : Pd s₀.mem root t)
    (hs : present (s₀.mem t (pdIdx virt)) = true → huge (s₀.mem t (pdIdx virt)) = true →
      TableFrame s₀.mem root (frameOf (s₀.mem t (pdIdx virt))) ∨
      s₀.mem (frameOf (s₀.mem t (pdIdx virt))) (ptIdx virt) = pteOf phys flags) :
    Confined s₀ (mapBelowPd s t virt phys flags).2 root := by
  have htab : TableFrame s₀.mem root t := Or.inr (Or.inr (Or.inl ht))
  obtain ⟨hpb,hhb,hfb⟩ := h.bits t (pdIdx virt)
  simp only [mapBelowPd]
  split
  · exact h.confined
  · rename_i pt s₁ hn
    rcases nextTable_cases hn with ⟨hp,rfl,rfl⟩ | ⟨-,pmm,ha,rfl⟩
    · have hopen := h.step htab (pdIdx virt)
      rw [hpb] at hp
      rw [hfb]
      cases hh : huge (s₀.mem t (pdIdx virt)) with
      | false =>
        exact hopen.confined.store (Or.inl (Or.inr (Or.inr (Or.inr ⟨t,ht,_,hp,hh,rfl⟩)))) _ _
      | true =>
        by_cases htf : TableFrame s₀.mem root (frameOf (s₀.mem t (pdIdx virt)))
        · exact hopen.confined.store (Or.inl htf) _ _
        · -- the word is already there, so the stray store changes nothing
          have hsame := (hs hp hh).resolve_left htf
          have hword := (hopen.words (frameOf (s₀.mem t (pdIdx virt))) (ptIdx virt)).resolve_right
            fun hw => htf hw.2
          rw [← hsame,← hword]
          simp only [Vm.store,store_eq_self]
          exact hopen.confined
    · exact (h.grow htab ha (pdIdx virt) flags).1.finish _ _

theorem map_confined (s : Vm) (cr3 : ℕ) (hg : NoGiant s.mem cr3 virt)
    (hs : ¬Strays s.mem cr3 virt (pteOf phys flags)) :
    Confined s (vmmMapPageInCr3 s cr3 virt phys flags).2 cr3 := by
  have h₀ := Opened.refl s cr3
  rw [map_eq]
  split
  · exact h₀.confined
  · rename_i pdpt s₁ hn
    rcases nextTable_cases hn with ⟨hp4,rfl,rfl⟩ | ⟨-,pmm,ha,rfl⟩
    · have h₁ := h₀.step (Or.inl rfl) (pml4Idx virt)
      generalize s.store cr3 (pml4Idx virt) (s.mem cr3 (pml4Idx virt) ||| rwFlags) = s₁ at h₁
      have hpdpt : Pdpt s.mem cr3 (frameOf (s.mem cr3 (pml4Idx virt))) := ⟨_,hp4,rfl⟩
      obtain ⟨hpb,-,hfb⟩ := h₁.bits (frameOf (s.mem cr3 (pml4Idx virt))) (pdptIdx virt)
      simp only [mapBelowPdpt]
      split
      · exact h₁.confined
      · rename_i pd s₂ hn₂
        rcases nextTable_cases hn₂ with ⟨hp3,rfl,rfl⟩ | ⟨-,pmm,ha,rfl⟩
        · rw [hpb] at hp3
          rw [hfb]
          refine (h₁.step (Or.inr (Or.inl hpdpt)) _).belowPd ⟨_,hpdpt,_,hp3,hg hp4 hp3,rfl⟩ ?_
          intro hp2 hh2
          by_contra hno
          rw [not_or] at hno
          exact hs ⟨hp4,hp3,hp2,hh2,hno.1,hno.2⟩
        · obtain ⟨hgr,hb⟩ := h₁.grow (Or.inr (Or.inl hpdpt)) ha (pdptIdx virt) flags
          exact hgr.belowPd hb virt phys flags
    · obtain ⟨hgr,hb⟩ := h₀.grow (Or.inl rfl) ha (pml4Idx virt) flags
      exact hgr.belowPdpt hb virt phys flags

theorem nextTable_present {t i : ℕ} (hp : present (s.mem t i) = true) (d : Word) :
    nextTable s t i d = some (frameOf (s.mem t i),s.store t i (s.mem t i ||| rwFlags)) := by
  have hf : frameOf ((s.store t i (s.mem t i ||| rwFlags)).mem t i) = frameOf (s.mem t i) := by
    simp [Vm.store]
  have hn : nextTable s t i d = some (frameOf ((s.store t i (s.mem t i ||| rwFlags)).mem t i),
      s.store t i (s.mem t i ||| rwFlags)) := by
    simp [nextTable,hp,rwFlags]
  rw [hn,hf]

/-- A call that strays overwrites a word of a frame that is no table. -/
theorem map_strays (s : Vm) (cr3 : ℕ) (hg : NoGiant s.mem cr3 virt)
    (hs : Strays s.mem cr3 virt (pteOf phys flags)) :
    ¬Confined s (vmmMapPageInCr3 s cr3 virt phys flags).2 cr3 := by
  obtain ⟨hp4,hp3,hp2,hh2,hno,hne⟩ := hs
  have h₁ := (Opened.refl s cr3).step (Or.inl rfl) (pml4Idx virt)
  have hpdpt : Pdpt s.mem cr3 (frameOf (s.mem cr3 (pml4Idx virt))) := ⟨_,hp4,rfl⟩
  rw [map_eq,nextTable_present hp4]
  generalize s.store cr3 (pml4Idx virt) (s.mem cr3 (pml4Idx virt) ||| rwFlags) = s₁ at h₁
  obtain ⟨hpb,-,hfb⟩ := h₁.bits (frameOf (s.mem cr3 (pml4Idx virt))) (pdptIdx virt)
  have h₂ := h₁.step (Or.inr (Or.inl hpdpt)) (pdptIdx virt)
  simp only [mapBelowPdpt,nextTable_present (hpb.trans hp3),hfb]
  generalize s₁.store _ _ _ = s₂ at h₂
  obtain ⟨hpb₂,-,hfb₂⟩ := h₂.bits
    (frameOf (s.mem (frameOf (s.mem cr3 (pml4Idx virt))) (pdptIdx virt))) (pdIdx virt)
  have h₃ := h₂.step (Or.inr (Or.inr (Or.inl ⟨_,hpdpt,_,hp3,hg hp4 hp3,rfl⟩))) (pdIdx virt)
  simp only [mapBelowPd,nextTable_present (hpb₂.trans hp2),hfb₂]
  generalize s₂.store _ _ _ = s₃ at h₃
  intro hc
  have hchanged := hc (frameOf (s.mem (frameOf (s.mem (frameOf (s.mem cr3 (pml4Idx virt)))
    (pdptIdx virt))) (pdIdx virt))) (ptIdx virt)
  simp only [Vm.store,store_self] at hchanged
  rcases hchanged hne.symm with ht | hfr
  · exact hno ht
  · have hb := hfr.2
    simp only [h₃.pmm,hfr.1] at hb
    cases hb

end

def hhdmFlags : Word := ptPresent ||| ptWrite ||| pageUncached

theorem map_confined_iff (s : Vm) {cr3 virt : ℕ} (hg : NoGiant s.mem cr3 virt) (phys : ℕ)
    (flags : Word) : Confined s (vmmMapPageInCr3 s cr3 virt phys flags).2 cr3 ↔
      ¬Strays s.mem cr3 virt (pteOf phys flags) :=
  ⟨fun hc hs => map_strays s cr3 hg hs hc,map_confined s cr3 hg⟩

/-- A word of a boot table other than `pt_low`: empty, a link, or a 2 MB entry. -/
theorem bootMem_word {base t : ℕ} (ht : t ≠ base+6) (i : ℕ) : bootMem base t i = 0 ∨
    (∃ k, bootMem base t i = entry (base+k) 3#64 ∧ k ≤ 6 ∧ (t = base → k ≤ 3) ∧
      (t < base+4 → k ≤ 5)) ∨
    base+4 ≤ t ∧ ∃ n, bootMem base t i = entry n 0x83#64 := by
  simp only [bootMem]
  split_ifs with h0 h1 h2 h3 h4
  · simp only [bootPml4]
    split_ifs
    · exact Or.inr (Or.inl ⟨1,rfl,by decide,fun _ => by decide,fun _ => by decide⟩)
    · exact Or.inr (Or.inl ⟨2,rfl,by decide,fun _ => by decide,fun _ => by decide⟩)
    · exact Or.inr (Or.inl ⟨0,rfl,by decide,fun _ => by decide,fun _ => by decide⟩)
    · exact Or.inr (Or.inl ⟨3,rfl,by decide,fun _ => by decide,fun _ => by decide⟩)
    · exact Or.inl rfl
  · simp only [bootPdptIdentity]
    split_ifs
    · exact Or.inr (Or.inl ⟨4,rfl,by decide,fun _ => by omega,fun _ => by decide⟩)
    · exact Or.inl rfl
  · simp only [bootPdptHhdm]
    split_ifs
    · exact Or.inr (Or.inl ⟨5,rfl,by decide,fun _ => by omega,fun _ => by decide⟩)
    · exact Or.inl rfl
  · simp only [bootPdptHigher]
    split_ifs
    · exact Or.inr (Or.inl ⟨0,rfl,by decide,fun _ => by decide,fun _ => by decide⟩)
    · exact Or.inr (Or.inl ⟨4,rfl,by decide,fun _ => by omega,fun _ => by decide⟩)
    · exact Or.inl rfl
  · simp only [bootPd]
    split_ifs
    · exact Or.inr (Or.inl ⟨6,rfl,le_rfl,fun _ => by omega,fun _ => by omega⟩)
    · exact Or.inr (Or.inr ⟨by omega,_,rfl⟩)
    · exact Or.inl rfl
  · exact Or.inl rfl

/-- Links of boot tables lead to boot tables, of the next level or above. -/
theorem bootMem_link {base t i : ℕ} (hb : base < 512) (ht : t ≠ base+6)
    (hp : present (bootMem base t i) = true) (hh : t < base+4 ∨ huge (bootMem base t i) = false) :
    frameOf (bootMem base t i) ≤ base+6 ∧ (t < base+4 → frameOf (bootMem base t i) ≤ base+5) ∧
      (t = base → frameOf (bootMem base t i) ≤ base+3) := by
  rcases bootMem_word ht i with he | ⟨k,he,hk⟩ | ⟨ht4,n,he⟩
  · rw [he] at hp
    cases hp
  · rw [he,frameOf_entry (by omega) (by decide)]
    omega
  · rcases hh with hlt | hh
    · omega
    · rw [he,huge,getLsbD_entry (by decide)] at hh
      cases hh

theorem boot_tables {base f : ℕ} (hb : base < 512) (h : TableFrame (bootMem base) base f) :
    f ≤ base+6 := by
  have hpdpt : ∀ f, Pdpt (bootMem base) base f → f ≤ base+3 := by
    rintro f ⟨i,hp,rfl⟩
    exact (bootMem_link hb (by omega) hp (Or.inl (by omega))).2.2 rfl
  have hpd : ∀ f, Pd (bootMem base) base f → f ≤ base+5 := by
    rintro f ⟨t,ht,i,hp,hh,rfl⟩
    have hle := hpdpt t ht
    exact (bootMem_link hb (by omega) hp (Or.inr hh)).2.1 (by omega)
  rcases h with rfl | h | h | ⟨t,ht,i,hp,hh,rfl⟩
  · omega
  · exact (hpdpt f h).trans (by omega)
  · exact (hpd f h).trans (by omega)
  · have hle := hpd t ht
    exact (bootMem_link hb (by omega) hp (Or.inr hh)).1

end Memory
end DonsOs
