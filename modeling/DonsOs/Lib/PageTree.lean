import DonsOs.Lib.LinkedTables
import DonsOs.Lib.Paging

/-! Page tables as a map from index paths to entries.
The walk of the hardware depends only on the entries along the indices of an address.  Where the
tables form a tree, each entry has a path of its own, and one can say for each change of an entry
which translations it leaves alone. -/
namespace Paging

open DonsOs.LinkedTables

/-- The table that an entry leads to.  The page-size bit has no meaning in the root. -/
def hwNext (top : Bool) (e : Word) : Option ℕ :=
  if present e && (top || !huge e) then some (physFrame e) else none

theorem hwNext_absent {e : Word} (h : present e = false) (top : Bool) : hwNext top e = none := by
  simp [hwNext,h]

theorem hwNext_isSome {e : Word} {top : Bool} :
    (hwNext top e).isSome = true ↔ present e = true ∧ (top = true ∨ huge e = false) := by
  simp [hwNext]

/-- The indices of an address, from the root on. -/
def indices (v : ℕ) : List ℕ := [pml4Idx v,pdptIdx v,pdIdx v,ptIdx v]

abbrev Entries := List ℕ → ℕ → Option Word

/-- The entries of a hierarchy, by the path to their table and their index in it. -/
def entries (m : Mem) (root : ℕ) : Entries := wordAt hwNext m root

/-- The entry that ends a walk below the path `p`, and the number of levels below it. -/
def leafOf (E : Entries) : List ℕ → List ℕ → Option (Word × ℕ)
  | _, [] => none
  | p, i::rest => (E p i).bind fun e =>
      if rest.isEmpty || (hwNext p.isEmpty e).isNone then
        if present e then some (e,rest.length) else none
      else leafOf E (p++[i]) rest

/-- The entries above it. -/
def aboveOf (E : Entries) : List ℕ → List ℕ → List Word
  | _, [] => []
  | p, i::rest => (E p i).elim [] fun e =>
      if rest.isEmpty || (hwNext p.isEmpty e).isNone then [] else e::aboveOf E (p++[i]) rest

def leafEntry (m : Mem) (root v : ℕ) : Option (Word × ℕ) := leafOf (entries m root) [] (indices v)

def ancestors (m : Mem) (root v : ℕ) : List Word := aboveOf (entries m root) [] (indices v)

/-- What an entry `n` levels above the last one maps `v` to. -/
def pageOf (v : ℕ) (x : Word × ℕ) : ℕ := physFrame x.1/512^x.2*512^x.2+v/4096%512^x.2

section
variable {E E' : Entries} {p rest : List ℕ} {i : ℕ} {e : Word}

theorem leafOf_stop (h : E p i = some e) (hs : rest = [] ∨ hwNext p.isEmpty e = none) :
    leafOf E p (i::rest) = (if present e then some (e,rest.length) else none) ∧
      aboveOf E p (i::rest) = [] := by
  rcases hs with rfl | hn
  · simp [leafOf,aboveOf,h]
  · simp [leafOf,aboveOf,h,hn]

theorem leafOf_absent (rest : List ℕ) (h : E p i = some e) (hp : present e = false) :
    leafOf E p (i::rest) = none ∧ aboveOf E p (i::rest) = [] := by
  simpa [hp] using leafOf_stop h (Or.inr (hwNext_absent hp _))

theorem leafOf_large (rest : List ℕ) (h : E p i = some e) (hp : present e = true)
    (hn : hwNext p.isEmpty e = none) :
    leafOf E p (i::rest) = some (e,rest.length) ∧ aboveOf E p (i::rest) = [] := by
  simpa [hp] using leafOf_stop h (Or.inr hn)

theorem leafOf_last (h : E p i = some e) (hp : present e = true) :
    leafOf E p [i] = some (e,0) ∧ aboveOf E p [i] = [] := by
  simpa [hp] using leafOf_stop h (Or.inl rfl)

theorem leafOf_next (h : E p i = some e) (hn : (hwNext p.isEmpty e).isSome = true) (hr : rest ≠ []) :
    leafOf E p (i::rest) = leafOf E (p++[i]) rest ∧
      aboveOf E p (i::rest) = e::aboveOf E (p++[i]) rest := by
  obtain ⟨f,hf⟩ := Option.isSome_iff_exists.mp hn
  simp [leafOf,aboveOf,h,hf,hr]

end

variable {m m' : Mem} {root v : ℕ} {slots : Set ℕ}

theorem entries_eq {t : ℕ} {p : List ℕ} (h : reach hwNext m true root p = some t)
    (i : ℕ) : entries m root p i = some (m t i) := by
  simp [entries,wordAt,h]

theorem entries_concat {i j : ℕ} {p : List ℕ} {e : Word} (h : entries m root (p++[i]) j = some e) :
    ∃ w, entries m root p i = some w ∧ present w = true ∧ e = m (physFrame w) j := by
  obtain ⟨f,hf,rfl⟩ := Option.map_eq_some_iff.mp h
  rw [reach_concat] at hf
  obtain ⟨u,hu,hn⟩ := Option.bind_eq_some_iff.mp hf
  simp only [hwNext,Bool.true_and] at hn
  split_ifs at hn with hw
  simp only [Bool.and_eq_true] at hw
  exact ⟨m u i,entries_eq hu i,hw.1,by rw [Option.some.inj hn]⟩

theorem leafOf_reach {t : ℕ} {p rest : List ℕ}
    (h : reach hwNext m true root p = some t) (hr : rest ≠ []) :
    leafOf (entries m root) [] (p++rest) = leafOf (entries m root) p rest := by
  induction p using List.reverseRecOn generalizing t rest with
  | nil => rfl
  | append_singleton p i ih =>
    rw [reach_concat] at h
    obtain ⟨u,hu,hn⟩ := Option.bind_eq_some_iff.mp h
    have hnext := leafOf_next (entries_eq hu i) (by simpa using congrArg Option.isSome hn) hr
    rw [List.append_assoc,List.singleton_append,ih hu (List.cons_ne_nil i rest),hnext.1]

theorem translation_eq (m : Mem) (root v : ℕ) : translation m root v =
    if Canonical v then (leafEntry m root v).map fun x =>
      ⟨pageOf v x,(ancestors m root v).all user && user x.1,
        (ancestors m root v).all writable && writable x.1⟩
    else none := by
  by_cases hc : Canonical v
  swap
  · simp [translation,hc]
  simp only [translation,leafEntry,ancestors,indices,hc,if_true,not_true_eq_false,if_false]
  have h4 := entries_eq (rfl : reach hwNext m true root [] = some root) (pml4Idx v)
  generalize he4 : m root (pml4Idx v) = e4 at h4
  cases hp4 : present e4 with
  | false =>
    obtain ⟨hl,-⟩ := leafOf_absent [pdptIdx v,pdIdx v,ptIdx v] h4 hp4
    rw [hl]
    simp
  | true =>
  have hn4 : hwNext true e4 = some (physFrame e4) := by simp [hwNext,hp4]
  have hr4 : reach hwNext m true root ([]++[pml4Idx v]) = some (physFrame e4) := by
    simp [reach,he4,hn4]
  obtain ⟨hl4,ha4⟩ := leafOf_next h4 (by simp [hn4]) (List.cons_ne_nil (pdptIdx v) [pdIdx v,ptIdx v])
  rw [hl4,ha4]
  have h3 := entries_eq hr4 (pdptIdx v)
  generalize he3 : m (physFrame e4) (pdptIdx v) = e3 at h3
  cases hp3 : present e3 with
  | false =>
    obtain ⟨hl,-⟩ := leafOf_absent [pdIdx v,ptIdx v] h3 hp3
    rw [hl]
    simp
  | true =>
  cases hh3 : huge e3 with
  | true =>
    obtain ⟨hl,ha⟩ := leafOf_large [pdIdx v,ptIdx v] h3 hp3 (by simp [hwNext,hh3])
    rw [hl,ha]
    simp [pageOf]
  | false =>
  have hn3 : hwNext false e3 = some (physFrame e3) := by simp [hwNext,hp3,hh3]
  have hr3 : reach hwNext m true root ([]++[pml4Idx v]++[pdptIdx v]) = some (physFrame e3) := by
    rw [reach_concat,hr4]
    simp [he3,hn3]
  obtain ⟨hl3,ha3⟩ := leafOf_next h3 (by simp [hn3]) (List.cons_ne_nil (pdIdx v) [ptIdx v])
  rw [hl3,ha3]
  have h2 := entries_eq hr3 (pdIdx v)
  generalize he2 : m (physFrame e3) (pdIdx v) = e2 at h2
  cases hp2 : present e2 with
  | false =>
    obtain ⟨hl,-⟩ := leafOf_absent [ptIdx v] h2 hp2
    rw [hl]
    simp
  | true =>
  cases hh2 : huge e2 with
  | true =>
    obtain ⟨hl,ha⟩ := leafOf_large [ptIdx v] h2 hp2 (by simp [hwNext,hh2])
    rw [hl,ha]
    simp [pageOf,Bool.and_assoc]
  | false =>
  have hn2 : hwNext false e2 = some (physFrame e2) := by simp [hwNext,hp2,hh2]
  have hr2 : reach hwNext m true root ([]++[pml4Idx v]++[pdptIdx v]++[pdIdx v]) = some (physFrame e2) := by
    rw [reach_concat,hr3]
    simp [he2,hn2]
  obtain ⟨hl2,ha2⟩ := leafOf_next h2 (by simp [hn2]) (List.cons_ne_nil (ptIdx v) [])
  rw [hl2,ha2]
  have h1 := entries_eq hr2 (ptIdx v)
  generalize m (physFrame e2) (ptIdx v) = e1 at h1
  cases hp1 : present e1 with
  | false =>
    obtain ⟨hl,-⟩ := leafOf_absent [] h1 hp1
    rw [hl]
    simp
  | true =>
    obtain ⟨hl,ha⟩ := leafOf_last h1 hp1
    rw [hl,ha]
    simp [pageOf,Bool.and_assoc,Nat.mod_one]

/-! Permissions that the last entry alone decides. -/

/-- What the entry of a page allows, all entries above it allow. -/
def Shown (m : Mem) (root v : ℕ) : Prop :=
  ∀ x, leafEntry m root v = some x → ∀ a ∈ ancestors m root v,
    (user x.1 = true → user a = true) ∧ (writable x.1 = true → writable a = true)

theorem all_and {l : List Word} {f : Word → Bool} {e : Word} (h : ∀ a ∈ l, f e = true → f a = true) :
    (l.all f && f e) = f e := by
  cases he : f e with
  | false => simp
  | true => simpa using fun a ha => h a ha he

theorem Shown.translation (h : Shown m root v) : translation m root v =
    if Canonical v then (leafEntry m root v).map fun x => ⟨pageOf v x,user x.1,writable x.1⟩
    else none := by
  rw [translation_eq]
  congr 1
  cases hl : leafEntry m root v with
  | none => rfl
  | some x =>
    rw [Option.map_some,Option.map_some,all_and fun a ha => (h x hl a ha).1,
      all_and fun a ha => (h x hl a ha).2]

theorem translation_of_leaf (h : Shown m root v) (h' : Shown m' root v)
    (hl : leafEntry m' root v = leafEntry m root v) : translation m' root v = translation m root v := by
  rw [h.translation,h'.translation,hl]

theorem Shown.of_indices {v' : ℕ} (h : Shown m root v) (he : indices v' = indices v) :
    Shown m root v' := by
  simpa only [Shown,leafEntry,ancestors,he] using h

/-! Changes of entries. -/

/-- The entry `w` leads where `e` leads and allows what it allows. -/
structure Widens (e w : Word) : Prop where
  next : ∀ top, hwNext top w = hwNext top e
  user : user e = true → user w = true
  writable : writable e = true → writable w = true

theorem Widens.refl (e : Word) : Widens e e := ⟨fun _ => rfl,id,id⟩

/-- The entry at `i` below the path `p` becomes `w`: it stays, is widened, or leads to an empty
table where it was absent. -/
inductive Altered (D : List ℕ → Prop) (E' : Entries) (p : List ℕ) (i : ℕ) (e : Word) : Word → Prop
  | same : Altered D E' p i e e
  | widened {w : Word} (within : D (p++[i])) (leads : (hwNext p.isEmpty e).isSome = true)
      (wide : Widens e w) : Altered D E' p i e w
  | linked {w : Word} (within : D (p++[i])) (absent : present e = false)
      (leads : (hwNext p.isEmpty w).isSome = true)
      (blank : ∀ j, ∃ b, E' (p++[i]) j = some b ∧ present b = false) : Altered D E' p i e w

def Grows (D : List ℕ → Prop) (E E' : Entries) : Prop :=
  ∀ p i e, D p → E p i = some e → ∃ w, E' p i = some w ∧ Altered D E' p i e w

/-- Below an entry that leads to a table there are entries. -/
def Linked (E : Entries) : Prop :=
  ∀ p i e, E p i = some e → (hwNext p.isEmpty e).isSome = true → ∀ j, (E (p++[i]) j).isSome = true

theorem entries_linked (m : Mem) (root : ℕ) : Linked (entries m root) := by
  intro p i e he hn j
  obtain ⟨t,ht,rfl⟩ := Option.map_eq_some_iff.mp he
  obtain ⟨f,hf⟩ := Option.isSome_iff_exists.mp hn
  have hr : reach hwNext m true root (p++[i]) = some f := by
    rw [reach_concat,ht]
    simpa using hf
  rw [entries_eq hr]
  rfl

section
variable {D : List ℕ → Prop} {E E' : Entries} {p rest : List ℕ}

theorem widens_cons {e w : Word} {l l' : List Word} (h : Widens e w)
    (hl : ∀ w ∈ l', ∃ e ∈ l, Widens e w) : ∀ b ∈ w::l', ∃ a ∈ e::l, Widens a b := by
  intro b hb
  rcases List.mem_cons.mp hb with rfl | hb
  · exact ⟨e,by simp,h⟩
  · obtain ⟨a,ha,hw⟩ := hl b hb
    exact ⟨a,by simp [ha],hw⟩

/-- Growing moves no leaf, and widens at most the entries above it. -/
theorem Grows.leaf (hg : Grows D E E') (hl : Linked E) (hp : ∀ j, (E p j).isSome = true)
    (hD : ∀ r, r <+: rest → r ≠ rest → D (p++r)) (hend : ¬D (p++rest)) :
    leafOf E' p rest = leafOf E p rest ∧ ((leafOf E p rest).isSome = true →
      ∀ w ∈ aboveOf E' p rest, ∃ e ∈ aboveOf E p rest, Widens e w) := by
  induction rest generalizing p with
  | nil => exact ⟨rfl,fun _ w hw => by cases hw⟩
  | cons i rest ih =>
    obtain ⟨e,he⟩ := Option.isSome_iff_exists.mp (hp i)
    have hDp : D p := by simpa using hD [] List.nil_prefix (by simp)
    obtain ⟨w,hw,halt⟩ := hg p i e hDp he
    have hend' : ¬D (p++[i]++rest) := by simpa using hend
    have hnil : D (p++[i]) → rest ≠ [] := by
      rintro hDi rfl
      exact hend (by simpa using hDi)
    have hbelow := fun hn => @ih (p++[i]) (hl p i e he hn) (fun r hr hne => by
      simpa using hD (i::r) (List.cons_prefix_cons.mpr ⟨rfl,hr⟩) (by simpa using hne)) hend'
    cases halt with
    | same =>
      by_cases hstop : rest = [] ∨ hwNext p.isEmpty e = none
      · obtain ⟨h1,h2⟩ := leafOf_stop he hstop
        obtain ⟨h1',h2'⟩ := leafOf_stop hw hstop
        rw [h1,h1',h2,h2']
        exact ⟨rfl,fun _ w hw => by cases hw⟩
      · rw [not_or] at hstop
        have hn := Option.isSome_iff_ne_none.mpr hstop.2
        obtain ⟨h1,h2⟩ := leafOf_next he hn hstop.1
        obtain ⟨h1',h2'⟩ := leafOf_next hw hn hstop.1
        obtain ⟨hleaf,habove⟩ := hbelow hn
        rw [h1,h1',h2,h2']
        exact ⟨hleaf,fun hs => widens_cons (Widens.refl e) (habove hs)⟩
    | widened hDi hn hwide =>
      obtain ⟨h1,h2⟩ := leafOf_next he hn (hnil hDi)
      obtain ⟨h1',h2'⟩ := leafOf_next hw (by rw [hwide.next,hn]) (hnil hDi)
      obtain ⟨hleaf,habove⟩ := hbelow hn
      rw [h1,h1',h2,h2']
      exact ⟨hleaf,fun hs => widens_cons hwide (habove hs)⟩
    | linked hDi hab hn hblank =>
      obtain ⟨j,rest,rfl⟩ := List.exists_cons_of_ne_nil (hnil hDi)
      obtain ⟨b,hb,hbp⟩ := hblank j
      rw [(leafOf_absent _ he hab).1,(leafOf_next hw hn (by simp)).1,(leafOf_absent rest hb hbp).1]
      simp

theorem leafOf_congr (h : ∀ q j r, rest = q++j::r → E' (p++q) j = E (p++q) j) :
    leafOf E' p rest = leafOf E p rest ∧ aboveOf E' p rest = aboveOf E p rest := by
  induction rest generalizing p with
  | nil => exact ⟨rfl,rfl⟩
  | cons i rest ih =>
    have hi : E' p i = E p i := by simpa using h [] i rest rfl
    obtain ⟨h1,h2⟩ := @ih (p++[i]) fun q j r hr => by simpa using h (i::q) j r (by simp [hr])
    simp only [leafOf,aboveOf,hi,h1,h2,and_self]

theorem mem_aboveOf {a : Word} (h : a ∈ aboveOf E p rest) :
    ∃ q j r, rest = q++j::r ∧ r ≠ [] ∧ E (p++q) j = some a := by
  induction rest generalizing p with
  | nil => simp [aboveOf] at h
  | cons i rest ih =>
    cases he : E p i with
    | none => simp [aboveOf,he] at h
    | some e =>
      by_cases hstop : rest = [] ∨ hwNext p.isEmpty e = none
      · rw [(leafOf_stop he hstop).2] at h
        cases h
      · rw [not_or] at hstop
        rw [(leafOf_next he (Option.isSome_iff_ne_none.mpr hstop.2) hstop.1).2] at h
        rcases List.mem_cons.mp h with rfl | h
        · exact ⟨[],i,rest,rfl,hstop.1,by simpa using he⟩
        · obtain ⟨q,j,r,hr,hne,hq⟩ := ih h
          exact ⟨i::q,j,r,by simp [hr],hne,by simpa using hq⟩

end

/-! Hierarchies that are trees. -/

/-- Paths to tables, in the given slots of the root. -/
structure Within (slots : Set ℕ) (p : List ℕ) : Prop where
  length : p.length ≤ 3
  bound : ∀ i ∈ p, i < 512
  head : ∀ i ∈ p.head?, i ∈ slots

theorem Within.of_prefix {p q : List ℕ} (h : Within slots q) (hp : p <+: q) : Within slots p := by
  refine ⟨hp.length_le.trans h.length,fun i hi => h.bound i (hp.subset hi),fun i hi => h.head i ?_⟩
  obtain ⟨r,rfl⟩ := hp
  cases p with
  | nil => cases hi
  | cons k p => simpa using hi

theorem Within.mono {slots' : Set ℕ} {p : List ℕ} (h : Within slots p) (hs : slots ⊆ slots') :
    Within slots' p := ⟨h.length,h.bound,fun i hi => hs (h.head i hi)⟩

theorem within_closed (slots : Set ℕ) : Closed (Within slots) := by
  intro p i h
  exact h.of_prefix (List.prefix_append p [i])

theorem indices_within (hv : pml4Idx v ∈ slots) {r : List ℕ}
    (hr : r <+: indices v) (hne : r ≠ indices v) : Within slots r := by
  have hlt : ∀ i ∈ indices v, i < 512 := by
    intro i hi
    simp only [indices,List.mem_cons,List.not_mem_nil,or_false] at hi
    rcases hi with rfl | rfl | rfl | rfl <;> exact Nat.mod_lt _ (by norm_num)
  refine ⟨?_,fun i hi => hlt i (hr.subset hi),fun i hi => ?_⟩
  · have hlen := hr.length_le
    have h4 : (indices v).length = 4 := rfl
    have hne' : r.length ≠ (indices v).length := fun he => hne (hr.eq_of_length he)
    omega
  · cases r with
    | nil => cases hi
    | cons k r =>
      obtain ⟨rfl,-⟩ := List.cons_prefix_cons.mp hr
      cases hi
      exact hv

theorem indices_not_within (slots : Set ℕ) (v : ℕ) : ¬Within slots (indices v) := by
  intro h
  have hlen := h.length
  simp [indices] at hlen

/-- In the given slots every page keeps its entry, and what is shown stays so. -/
def Keeps (slots : Set ℕ) (m m' : Mem) (root : ℕ) : Prop :=
  ∀ v, pml4Idx v ∈ slots → leafEntry m' root v = leafEntry m root v ∧
    (Shown m root v → Shown m' root v)

theorem Keeps.refl (slots : Set ℕ) (m : Mem) (root : ℕ) : Keeps slots m m root :=
  fun _ _ => ⟨rfl,id⟩

theorem Keeps.trans {m'' : Mem} (h : Keeps slots m m' root)
    (h' : Keeps slots m' m'' root) : Keeps slots m m'' root :=
  fun v hv => ⟨(h' v hv).1.trans (h v hv).1,fun hs => (h' v hv).2 ((h v hv).2 hs)⟩

/-- A page that is kept and shown is translated as before. -/
theorem Keeps.translation (h : Keeps slots m m' root)
    (hv : pml4Idx v ∈ slots) (hs : Shown m root v) : translation m' root v = translation m root v :=
  translation_of_leaf hs ((h v hv).2 hs) (h v hv).1

theorem Grows.keeps
    (hg : Grows (Within slots) (entries m root) (entries m' root)) : Keeps slots m m' root := by
  intro v hv
  obtain ⟨hleaf,habove⟩ := hg.leaf (p:=[]) (entries_linked m root)
    (fun j => by rw [entries_eq rfl]; rfl)
    (fun r hr hne => indices_within hv hr hne) (indices_not_within slots v)
  refine ⟨hleaf,fun hs x hx a' ha' => ?_⟩
  have hx' : leafEntry m root v = some x := hleaf.symm.trans hx
  rw [leafEntry] at hx'
  obtain ⟨a,ha,hwide⟩ := habove (by rw [hx']; rfl) a' ha'
  obtain ⟨hu,hw⟩ := hs x hx' a ha
  exact ⟨fun h => hwide.user (hu h),fun h => hwide.writable (hw h)⟩

end Paging
