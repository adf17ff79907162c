import Mathlib.Data.List.Basic
import Mathlib.Logic.Function.Basic
import Mathlib.Tactic

/-! Tables that are linked by words.
A table holds a word for each index, and `next` says to which table a word leads, if to any; the
first step of a walk may follow another rule than the later ones.  Where no table is reached by
two paths, a store changes what is found at the end of one path only. -/
namespace DonsOs
namespace LinkedTables

variable {ν ι ω : Type} (next : Bool → ω → Option ν)

/-- The table at the end of a path. -/
def reach (m : ν → ι → ω) : Bool → ν → List ι → Option ν
  | _, t, [] => some t
  | top, t, i::p => (next top (m t i)).bind fun f => reach m false f p

/-- The words that a walk reads. -/
def visits (m : ν → ι → ω) : Bool → ν → List ι → List (ν × ι)
  | _, _, [] => []
  | top, t, i::p => (t,i)::(next top (m t i)).elim [] fun f => visits m false f p

/-- The word at the index `i` of the table at the end of a path from the root. -/
def wordAt (m : ν → ι → ω) (root : ν) (p : List ι) (i : ι) : Option ω :=
  (reach next m true root p).map fun t => m t i

section
variable {next} {m m' : ν → ι → ω} {top : Bool} {t : ν} {p : List ι}

theorem reach_concat (i : ι) : reach next m top t (p++[i]) =
    (reach next m top t p).bind fun f => next (top && p.isEmpty) (m f i) := by
  induction p generalizing top t with
  | nil => simp [reach]
  | cons j p ih =>
    cases hn : next top (m t j) with
    | none => simp [reach,hn]
    | some f => simp [reach,hn,ih]

theorem reach_congr (h : ∀ x ∈ visits next m top t p, m' x.1 x.2 = m x.1 x.2) :
    reach next m' top t p = reach next m top t p := by
  induction p generalizing top t with
  | nil => rfl
  | cons i p ih =>
    have hi : m' t i = m t i := h (t,i) (by simp [visits])
    cases hn : next top (m t i) with
    | none => simp [reach,hi,hn]
    | some f =>
      have hrest : reach next m' false f p = reach next m false f p :=
        ih fun x hx => h x (by simp [visits,hn,hx])
      simp [reach,hi,hn,hrest]

end

/-! Stores. -/

section
variable {next} [DecidableEq ν] [DecidableEq ι]

def put (m : ν → ι → ω) (t : ν) (i : ι) (w : ω) : ν → ι → ω :=
  Function.update m t (Function.update (m t) i w)

theorem put_apply (m : ν → ι → ω) (t : ν) (i : ι) (w : ω) (u : ν) (j : ι) :
    put m t i w u j = if u = t ∧ j = i then w else m u j := by
  by_cases hu : u = t
  · subst hu
    by_cases hj : j = i <;> simp [put,hj]
  · simp [put,hu]

/-- A word that the walk reads is replaced by one that leads nowhere. -/
theorem reach_put_of_mem {m : ν → ι → ω} {top : Bool} {root t : ν} {p : List ι} {i : ι} {w : ω}
    (h : (t,i) ∈ visits next m top root p) (hw : ∀ b, next b w = none) :
    reach next (put m t i w) top root p = none := by
  induction p generalizing top root with
  | nil => simp [visits] at h
  | cons j p ih =>
    by_cases hx : root = t ∧ j = i
    · simp [reach,put_apply,hx,hw]
    · cases hn : next top (m root j) with
      | none => simp [reach,put_apply,hx,hn]
      | some f =>
        have hmem : (t,i) ∈ visits next m false f p := by
          rcases List.mem_cons.mp h with he | hr
          · exact absurd ⟨(Prod.mk.inj he).1.symm,(Prod.mk.inj he).2.symm⟩ hx
          · simpa [hn] using hr
        simp [reach,put_apply,hx,hn,ih hmem]

theorem reach_put_of_not_mem {m : ν → ι → ω} {top : Bool} {root t : ν} {p : List ι} {i : ι}
    (h : (t,i) ∉ visits next m top root p) (w : ω) :
    reach next (put m t i w) top root p = reach next m top root p := by
  refine reach_congr fun x hx => ?_
  rw [put_apply,if_neg]
  rintro ⟨h1,h2⟩
  exact h (by rw [← h1,← h2]; exact hx)

variable (next) in
/-- No table is reached by two of the paths in `D`. -/
def Unique (D : List ι → Prop) (m : ν → ι → ω) (root : ν) : Prop :=
  ∀ ⦃p q f⦄, D p → D q → reach next m true root p = some f → reach next m true root q = some f → p = q

/-- With a path, `D` has its beginnings. -/
def Closed (D : List ι → Prop) : Prop := ∀ p i, D (p++[i]) → D p

variable {D : List ι → Prop} {m : ν → ι → ω} {root t f : ν} {p q : List ι} {i : ι} {w : ω} {page : ι → ω}

variable (next D m root t p i w) in
/-- The word at the index `i` of the table `t` may be replaced by `w`, which leads where it led. -/
structure Replaces : Prop where
  closed : Closed D
  unique : Unique next D m root
  within : D p
  here : reach next m true root p = some t
  same : D (p++[i]) → next p.isEmpty w = next p.isEmpty (m t i)

theorem Replaces.reach (h : Replaces next D m root t p i w) (hq : D q) :
    reach next (put m t i w) true root q = reach next m true root q := by
  -- the walk is compared from its end, where only the last word can be the new one
  induction q using List.reverseRecOn with
  | nil => rfl
  | append_singleton q j ih =>
    have hq' := h.closed q j hq
    rw [reach_concat,reach_concat,ih hq']
    cases hr : LinkedTables.reach next m true root q with
    | none => rfl
    | some u =>
      simp only [Option.bind_some,Bool.true_and,put_apply]
      by_cases hx : u = t ∧ j = i
      · obtain ⟨rfl,rfl⟩ := hx
        obtain rfl := h.unique hq' h.within hr h.here
        rw [if_pos ⟨rfl,rfl⟩,h.same hq]
      · rw [if_neg hx]

theorem Replaces.unique_put (h : Replaces next D m root t p i w) :
    Unique next D (put m t i w) root := by
  intro q r f hq hr hfq hfr
  rw [h.reach hq] at hfq
  rw [h.reach hr] at hfr
  exact h.unique hq hr hfq hfr

theorem Replaces.wordAt (h : Replaces next D m root t p i w) (hq : D q) (j : ι) :
    wordAt next (put m t i w) root q j =
      if q = p ∧ j = i then some w else wordAt next m root q j := by
  have ht := h.here
  simp only [LinkedTables.wordAt,h.reach hq]
  cases hr : LinkedTables.reach next m true root q with
  | none =>
    rw [if_neg]
    · rfl
    · rintro ⟨rfl,-⟩
      rw [hr] at ht
      cases ht
  | some u =>
    simp only [Option.map_some,put_apply]
    by_cases hx : q = p ∧ j = i
    · obtain ⟨rfl,rfl⟩ := hx
      obtain rfl := Option.some.inj (hr.symm.trans ht)
      simp
    · rw [if_neg hx,if_neg]
      rintro ⟨rfl,rfl⟩
      exact hx ⟨h.unique hq h.within hr ht,rfl⟩

variable (next D m root t f p i w page) in
/-- The table `f`, with the links-free contents `page`, may be linked by `w` where no link is. -/
structure Links : Prop where
  closed : Closed D
  unique : Unique next D m root
  within : D (p++[i])
  here : reach next m true root p = some t
  absent : next p.isEmpty (m t i) = none
  fresh : ∀ q, D q → reach next m true root q ≠ some f
  leads : next p.isEmpty w = some f
  blank : ∀ j, next false (page j) = none

omit [DecidableEq ν] [DecidableEq ι] in
theorem Links.ne (h : Links next D m root t f p i w page) : f ≠ t :=
  fun he => h.fresh p (h.closed p i h.within) (he ▸ h.here)

theorem Links.reach (h : Links next D m root t f p i w page) (hq : D q) :
    reach next (put (Function.update m f page) t i w) true root q =
      if q = p++[i] then some f else reach next m true root q := by
  have hp := h.closed p i h.within
  have hft := h.ne
  have ht := h.here
  induction q using List.reverseRecOn with
  | nil => simp [LinkedTables.reach]
  | append_singleton q j ih =>
    have hq' := h.closed q j hq
    rw [reach_concat,reach_concat,ih hq']
    by_cases hqp : q = p++[i]
    · -- below the new table there is nothing, as before
      have hne : ¬p++[i]++[j] = p++[i] := by simp
      have hempty : (p++[i]).isEmpty = false := by simp
      subst hqp
      rw [if_pos rfl,if_neg hne,reach_concat,ht]
      simp only [Option.bind_some,Bool.true_and,hempty,h.absent,put_apply,hft,false_and,if_false,
        Function.update_self,h.blank,Option.bind_none]
    · rw [if_neg hqp]
      cases hr : LinkedTables.reach next m true root q with
      | none =>
        rw [if_neg]
        · rfl
        · intro he
          obtain ⟨rfl,-⟩ := List.append_inj' he rfl
          rw [hr] at ht
          cases ht
      | some u =>
        have huf : u ≠ f := fun he => h.fresh q hq' (he ▸ hr)
        simp only [Option.bind_some,Bool.true_and,put_apply,Function.update_of_ne huf]
        by_cases hx : u = t ∧ j = i
        · obtain ⟨rfl,rfl⟩ := hx
          obtain rfl := h.unique hq' hp hr ht
          rw [if_pos ⟨rfl,rfl⟩,if_pos rfl,h.leads]
        · rw [if_neg hx,if_neg]
          intro he
          obtain ⟨rfl,hj⟩ := List.append_inj' he rfl
          exact hx ⟨Option.some.inj (hr.symm.trans ht),by simpa using hj⟩

theorem Links.unique_put (h : Links next D m root t f p i w page) :
    Unique next D (put (Function.update m f page) t i w) root := by
  intro q r g hq hr hgq hgr
  rw [h.reach hq] at hgq
  rw [h.reach hr] at hgr
  split_ifs at hgq hgr with h₁ h₂ h₂
  · rw [h₁,h₂]
  · exact absurd (hgr.trans hgq.symm) (h.fresh r hr)
  · exact absurd (hgq.trans hgr.symm) (h.fresh q hq)
  · exact h.unique hq hr hgq hgr

theorem Links.wordAt (h : Links next D m root t f p i w page) (hq : D q) (j : ι) :
    wordAt next (put (Function.update m f page) t i w) root q j =
      if q = p ∧ j = i then some w else
      if q = p++[i] then some (page j) else wordAt next m root q j := by
  have ht := h.here
  simp only [LinkedTables.wordAt,h.reach hq]
  by_cases hqp : q = p++[i]
  · have hne : ¬q = p := by simp [hqp]
    simp [hqp,put_apply,h.ne]
  · rw [if_neg hqp]
    cases hr : LinkedTables.reach next m true root q with
    | none =>
      rw [if_neg,if_neg hqp]
      · rfl
      · rintro ⟨rfl,-⟩
        rw [hr] at ht
        cases ht
    | some u =>
      have huf : u ≠ f := fun he => h.fresh q hq (he ▸ hr)
      simp only [Option.map_some,put_apply,Function.update_of_ne huf,if_neg hqp]
      by_cases hx : q = p ∧ j = i
      · obtain ⟨rfl,rfl⟩ := hx
        obtain rfl := Option.some.inj (hr.symm.trans ht)
        simp
      · rw [if_neg hx,if_neg]
        rintro ⟨rfl,rfl⟩
        exact hx ⟨h.unique hq (h.closed p j h.within) hr ht,rfl⟩

end

end LinkedTables
end DonsOs
