import DonsOs.Lib.PageTree
import DonsOs.Memory.Lookup

/-! Mapping is local.
`vmm_map_page_in_cr3` opens the entries on its way and links new tables, and stores one entry; the
unmapping clears one.  Where the tables form a tree this concerns no other page, provided that what
the entry of a page allows, the entries above it allow too. -/
namespace DonsOs
namespace Memory

open Paging LinkedTables

/-- In the given slots of the root the tables form a tree, and their frames are in use.  The slots
are all of them, or all but the recursive one, through which every table is reached once more. -/
structure TableTree (slots : Set ℕ) (s : Vm) (root : ℕ) : Prop where
  unique : Unique hwNext (Within slots) s.mem root
  used : ∀ p f, Within slots p → reach hwNext s.mem true root p = some f → s.pmm.bitmap f = true

/-- No large page is on the walk for `v`, and its tables have addresses below `2^52`. -/
def Small (m : Mem) (root v : ℕ) : Prop :=
  let e4 := m root (pml4Idx v)
  let e3 := m (physFrame e4) (pdptIdx v)
  let e2 := m (physFrame e3) (pdIdx v)
  present e4 = true → frameOf e4 < 2^40 ∧ (present e3 = true → huge e3 = false ∧ frameOf e3 < 2^40 ∧
    (present e2 = true → huge e2 = false ∧ frameOf e2 < 2^40))

/-- The entries along a path lead to tables that the kernel finds where the hardware does. -/
def Narrow (E : Entries) (path : List ℕ) : Prop :=
  ∀ q j r, path = q++j::r → ∀ e, E q j = some e → present e = true →
    (hwNext q.isEmpty e).isSome = true ∧ frameOf e < 2^40

theorem Small.narrow {m : Mem} {root v : ℕ} (h : Small m root v) :
    Narrow (entries m root) (pathOf v) := by
  intro q j r hq e he hp
  simp only [Small] at h
  have hroot : ∀ w, entries m root [] (pml4Idx v) = some w → w = m root (pml4Idx v) := fun w hw =>
    (Option.some.inj ((entries_eq rfl _).symm.trans hw)).symm
  rw [hwNext_isSome]
  cases q with
  | nil =>
    simp only [pathOf,List.nil_append,List.cons.injEq] at hq
    obtain ⟨rfl,-⟩ := hq
    obtain rfl := hroot e he
    exact ⟨⟨hp,Or.inl rfl⟩,(h hp).1⟩
  | cons a q =>
    cases q with
    | nil =>
      simp only [pathOf,List.cons_append,List.nil_append,List.cons.injEq] at hq
      obtain ⟨rfl,rfl,-⟩ := hq
      obtain ⟨w,hw,hpw,rfl⟩ := entries_concat (p:=[]) he
      obtain rfl := hroot w hw
      obtain ⟨hh,hf,-⟩ := (h hpw).2 hp
      exact ⟨⟨hp,Or.inr hh⟩,hf⟩
    | cons b q =>
      cases q with
      | nil =>
        simp only [pathOf,List.cons_append,List.nil_append,List.cons.injEq] at hq
        obtain ⟨rfl,rfl,rfl,-⟩ := hq
        obtain ⟨w,hw,hpw,rfl⟩ := entries_concat (p:=[pml4Idx v]) he
        obtain ⟨u,hu,hpu,rfl⟩ := entries_concat (p:=[]) hw
        obtain rfl := hroot u hu
        obtain ⟨hh,hf⟩ := ((h hpu).2 hpw).2.2 hp
        exact ⟨⟨hp,Or.inr hh⟩,hf⟩
      | cons c q =>
        have hlen := congrArg List.length hq
        simp [pathOf] at hlen

theorem split_concat {p q r : List ℕ} {i j : ℕ} (h : p++[i] = q++j::r) :
    q = p ∧ j = i ∨ ∃ r', p = q++j::r' := by
  rcases List.eq_nil_or_concat r with rfl | ⟨r',x,rfl⟩
  · obtain ⟨rfl,hj⟩ := List.append_inj' h rfl
    exact Or.inl ⟨rfl,by simpa using hj.symm⟩
  · have hx : p++[i] = (q++j::r')++[x] := by simpa using h
    exact Or.inr ⟨r',(List.append_inj' hx rfl).1⟩

theorem ne_of_split {p q r : List ℕ} {j : ℕ} (h : p = q++j::r) : q ≠ p := by
  rintro rfl
  simpa using congrArg List.length h

/-- A tree of tables, with large pages and wide addresses at most off the given paths. -/
structure Orderly (slots : Set ℕ) (paths : Set (List ℕ)) (s : Vm) (root : ℕ) : Prop where
  tree : TableTree slots s root
  narrow : ∀ path ∈ paths, Narrow (entries s.mem root) path

/-- No table in the given slots is the frame `g`. -/
def Loose (slots : Set ℕ) (m : Mem) (root g : ℕ) : Prop :=
  ∀ p, Within slots p → reach hwNext m true root p ≠ some g

/-- Pages keep their entries, and frames in use that are no tables keep what they hold. -/
structure Gentle (slots : Set ℕ) (s s' : Vm) (root : ℕ) : Prop where
  keeps : Keeps slots s.mem s'.mem root
  used : ∀ g, s.pmm.bitmap g = true → s'.pmm.bitmap g = true
  data : ∀ g, s.pmm.bitmap g = true → Loose slots s.mem root g →
    s'.mem g = s.mem g ∧ Loose slots s'.mem root g

theorem Gentle.refl (slots : Set ℕ) (s : Vm) (root : ℕ) : Gentle slots s s root :=
  ⟨Keeps.refl slots s.mem root,fun _ h => h,fun _ _ h => ⟨rfl,h⟩⟩

section
variable {slots : Set ℕ} {paths : Set (List ℕ)} {s s' : Vm} {m : Mem} {root t i f v : ℕ}
variable {p rest path : List ℕ} {flags : Word}

theorem Gentle.trans {s'' : Vm} (h : Gentle slots s s' root) (h' : Gentle slots s' s'' root) :
    Gentle slots s s'' root := by
  refine ⟨h.keeps.trans h'.keeps,fun g hg => h'.used g (h.used g hg),fun g hg hl => ?_⟩
  obtain ⟨hm,hl'⟩ := h.data g hg hl
  obtain ⟨hm',hl''⟩ := h'.data g (h.used g hg) hl'
  exact ⟨hm'.trans hm,hl''⟩

/-- The walk has come to the table `t` by the indices `p`, and has opened the entries above it. -/
structure Way (slots : Set ℕ) (paths : Set (List ℕ)) (s : Vm) (root : ℕ) (p : List ℕ) (t : ℕ) : Prop
    extends Orderly slots paths s root where
  here : reach hwNext s.mem true root p = some t
  opened : ∀ q j r, p = q++j::r → ∀ e, entries s.mem root q j = some e →
    user e = true ∧ writable e = true

theorem user_rw (e : Word) : user (e ||| rwFlags) = true := by
  have h2 : rwFlags.getLsbD 2 = true := by decide
  simp only [user,BitVec.getLsbD_or,h2,Bool.or_true]

theorem writable_rw (e : Word) : writable (e ||| rwFlags) = true := by
  have h1 : rwFlags.getLsbD 1 = true := by decide
  simp only [writable,BitVec.getLsbD_or,h1,Bool.or_true]

theorem hwNext_rw (top : Bool) (e : Word) : hwNext top (e ||| rwFlags) = hwNext top e := by
  have hf := frameOf_rw e
  simp only [frameOf] at hf
  simp only [hwNext,present_rw,huge_rw,physFrame,hf]

theorem widens_rw (e : Word) : Widens e (e ||| rwFlags) :=
  ⟨fun top => hwNext_rw top e,fun _ => user_rw e,fun _ => writable_rw e⟩

theorem dirFlags_opened (f : ℕ) (flags : Word) :
    user (entry f (dirFlags flags)) = true ∧ writable (entry f (dirFlags flags)) = true := by
  have h1 : ptWrite.getLsbD 1 = true := by decide
  have h2 : ptUser.getLsbD 2 = true := by decide
  rw [user,writable,getLsbD_entry (by decide),getLsbD_entry (by decide)]
  simp [dirFlags,h1,h2]

theorem hwNext_dirFlags (hf : f < 2^40) (top : Bool) (flags : Word) :
    hwNext top (entry f (dirFlags flags)) = some f := by
  have hframe := frameOf_dirFlags (show f < 2^52 by omega) flags
  rw [hwNext,present_dirFlags,huge_dirFlags,physFrame_eq (by omega),hframe]
  simp

theorem hwNext_narrow {e : Word} {top : Bool} (hn : (hwNext top e).isSome = true)
    (hf : frameOf e < 2^40) : hwNext top e = some (frameOf e) := by
  obtain ⟨g,hg⟩ := Option.isSome_iff_exists.mp hn
  rw [hg]
  simp only [hwNext] at hg
  split_ifs at hg
  rw [← hg,physFrame_eq hf]

section

variable (h : Way slots paths s root p t) (hpaths : ∀ path ∈ paths, Within slots path)
  (hpath : path ∈ paths)
include h hpaths hpath

theorem Way.open (heq : path = p++i::rest) (hp : present (s.mem t i) = true) :
    Way slots paths (s.store t i (s.mem t i ||| rwFlags)) root (p++[i]) (frameOf (s.mem t i)) ∧
      Gentle slots s (s.store t i (s.mem t i ||| rwFlags)) root := by
  have hent := entries_eq h.here i
  obtain ⟨hn,hf⟩ := h.narrow path hpath p i rest heq _ hent hp
  have hnext := hwNext_narrow hn hf
  have hin : Within slots (p++[i]) :=
    Within.of_prefix (hpaths path hpath) (by rw [heq]; simp)
  have hrep : Replaces hwNext (Within slots) s.mem root t p i (s.mem t i ||| rwFlags) :=
    ⟨within_closed slots,h.tree.unique,within_closed slots p i hin,h.here,fun _ => hwNext_rw _ _⟩
  have hword : ∀ q j, Within slots q → entries (s.store t i (s.mem t i ||| rwFlags)).mem root q j =
      if q = p ∧ j = i then some (s.mem t i ||| rwFlags) else entries s.mem root q j :=
    fun q j hq => hrep.wordAt hq j
  have hreach : ∀ q, Within slots q →
      reach hwNext (s.store t i (s.mem t i ||| rwFlags)).mem true root q =
        reach hwNext s.mem true root q := fun q hq => hrep.reach hq
  refine ⟨⟨⟨⟨hrep.unique_put,fun q g hq hg => h.tree.used q g hq ((hreach q hq).symm.trans hg)⟩,?_⟩,
    ?_,?_⟩,?_⟩
  · intro path' hpath' q j r hq e he hpe
    rw [hword q j <| Within.of_prefix (hpaths path' hpath') ⟨j::r,hq.symm⟩] at he
    split_ifs at he with hx
    · obtain ⟨rfl,rfl⟩ := hx
      obtain rfl := Option.some.inj he
      rw [hwNext_rw,frameOf_rw]
      exact ⟨hn,hf⟩
    · exact h.narrow path' hpath' q j r hq e he hpe
  · rw [hreach _ hin,reach_concat,h.here]
    simpa using hnext
  · intro q j r hq e he
    have hq' : Within slots q := hin.of_prefix ⟨j::r,hq.symm⟩
    rw [hword q j hq'] at he
    split_ifs at he with hx
    · obtain rfl := Option.some.inj he
      exact ⟨user_rw _,writable_rw _⟩
    · rcases split_concat hq with he' | ⟨r',hr'⟩
      · exact absurd he' hx
      · exact h.opened q j r' hr' e he
  · refine ⟨Grows.keeps fun q j e hq he => ?_,fun _ hg => hg,fun g _ hl => ⟨store_of_ne ?_,fun q hq => ?_⟩⟩
    · rw [hword q j hq]
      split_ifs with hx
      · obtain ⟨rfl,rfl⟩ := hx
        obtain rfl := Option.some.inj (hent.symm.trans he)
        exact ⟨_,rfl,.widened hin hn (widens_rw _)⟩
      · exact ⟨e,he,.same⟩
    · rintro rfl
      exact hl p (within_closed slots p i hin) h.here
    · rw [hreach q hq]
      exact hl q hq

theorem Way.link (heq : path = p++i::rest) (hp : present (s.mem t i) = false) {pmm : Pmm}
    (ha : pmmAllocPageForTables s.pmm = some (f,pmm)) (flags : Word)
    (hs' : s' = { s with pmm := pmm, mem := fill s.mem f fun _ => 0 }.store t i
      (entry f (dirFlags flags))) :
    Way slots paths s' root (p++[i]) f ∧ Gentle slots s s' root := by
  obtain ⟨htk,-,-,hlow⟩ := allocForTables_spec ha
  have hf : f < 2^40 := by
    have hz := s.pmm.zones.low_lt
    simp only [maxPages] at hz
    omega
  have hent := entries_eq h.here i
  have hin : Within slots (p++[i]) :=
    Within.of_prefix (hpaths path hpath) (by rw [heq]; simp)
  have hfresh : ∀ q, Within slots q → reach hwNext s.mem true root q ≠ some f := by
    intro q hq hr
    have hu := h.tree.used q f hq hr
    rw [htk.free] at hu
    cases hu
  have hlink : Links hwNext (Within slots) s.mem root t f p i (entry f (dirFlags flags)) fun _ => 0 :=
    ⟨within_closed slots,h.tree.unique,hin,h.here,hwNext_absent hp _,hfresh,hwNext_dirFlags hf _ flags,
      fun _ => rfl⟩
  have hword : ∀ q j, Within slots q → entries s'.mem root q j =
      if q = p ∧ j = i then some (entry f (dirFlags flags)) else
      if q = p++[i] then some 0 else entries s.mem root q j :=
    fun q j hq => by rw [hs']; exact hlink.wordAt hq j
  have hreach : ∀ q, Within slots q → reach hwNext s'.mem true root q =
      if q = p++[i] then some f else reach hwNext s.mem true root q :=
    fun q hq => by rw [hs']; exact hlink.reach hq
  have hused : ∀ g, s.pmm.bitmap g = true ∨ g = f → s'.pmm.bitmap g = true := by
    intro g hg
    rw [hs']
    simp only [Vm.store,htk.bitmap,Function.update_apply]
    split_ifs with hgf
    · rfl
    · exact hg.resolve_right hgf
  refine ⟨⟨⟨⟨by rw [hs']; exact hlink.unique_put,fun q g hq hg => hused g ?_⟩,?_⟩,?_,?_⟩,?_⟩
  · rw [hreach q hq] at hg
    split_ifs at hg
    · exact Or.inr (Option.some.inj hg).symm
    · exact Or.inl (h.tree.used q g hq hg)
  · intro path' hpath' q j r hq e he hpe
    rw [hword q j <| Within.of_prefix (hpaths path' hpath') ⟨j::r,hq.symm⟩] at he
    split_ifs at he with hx hy
    · obtain rfl := Option.some.inj he
      rw [hwNext_dirFlags hf,frameOf_dirFlags (by omega)]
      exact ⟨rfl,hf⟩
    · obtain rfl := Option.some.inj he
      cases hpe
    · exact h.narrow path' hpath' q j r hq e he hpe
  · rw [hreach _ hin,if_pos rfl]
  · intro q j r hq e he
    rw [hword q j (hin.of_prefix ⟨j::r,hq.symm⟩),if_neg (ne_of_split hq)] at he
    split_ifs at he with hx
    · obtain rfl := Option.some.inj he
      exact dirFlags_opened f flags
    · rcases split_concat hq with he' | ⟨r',hr'⟩
      · exact absurd he' hx
      · exact h.opened q j r' hr' e he
  · refine ⟨Grows.keeps fun q j e hq he => ?_,fun g hg => hused g (Or.inl hg),fun g hg hl => ?_⟩
    · rw [hword q j hq]
      split_ifs with hx hy
      · obtain ⟨rfl,rfl⟩ := hx
        obtain rfl := Option.some.inj (hent.symm.trans he)
        refine ⟨_,rfl,.linked hin hp (by rw [hwNext_dirFlags hf]; rfl) fun k => ⟨0,?_,rfl⟩⟩
        rw [hword _ k hin,if_neg (by simp),if_pos rfl]
      · -- below an absent entry there was none
        rw [hy] at he
        obtain ⟨w,hw,hpw,-⟩ := entries_concat he
        obtain rfl := Option.some.inj (hent.symm.trans hw)
        rw [hp] at hpw
        cases hpw
      · exact ⟨e,he,.same⟩
    · have hgf : g ≠ f := by
        rintro rfl
        rw [htk.free] at hg
        cases hg
      have hgt : g ≠ t := by
        rintro rfl
        exact hl p (within_closed slots p i hin) h.here
      refine ⟨?_,fun q hq => ?_⟩
      · rw [hs']
        exact (store_of_ne hgt).trans (fill_of_ne hgf)
      · rw [hreach q hq]
        split_ifs
        · simpa using hgf.symm
        · exact hl q hq

theorem Way.descend (heq : path = p++rest) (flags : Word) :
    (∀ s', descend (dirFlags flags) rest s t = .error s' →
      Orderly slots paths s' root ∧ Gentle slots s s' root) ∧
      ∀ pt s', descend (dirFlags flags) rest s t = .ok (pt,s') →
        Way slots paths s' root path pt ∧ Gentle slots s s' root := by
  induction rest generalizing s p t with
  | nil =>
    rw [List.append_nil] at heq
    subst heq
    refine ⟨fun s' hd => (by cases hd),fun pt s' hd => ?_⟩
    obtain ⟨rfl,rfl⟩ := Prod.mk.inj (Except.ok.inj hd)
    exact ⟨h,Gentle.refl slots _ root⟩
  | cons i rest ih =>
    simp only [Memory.descend]
    cases hn : nextTable s t i (dirFlags flags) with
    | none =>
      refine ⟨fun s' hd => ?_,fun pt s' hd => (by cases hd)⟩
      obtain rfl := Except.error.inj hd
      exact ⟨h.toOrderly,Gentle.refl slots _ root⟩
    | some x =>
      obtain ⟨f,s₁⟩ := x
      have hnext : Way slots paths s₁ root (p++[i]) f ∧ Gentle slots s s₁ root := by
        rcases nextTable_cases hn with ⟨hp,rfl,rfl⟩ | ⟨hp,pmm,ha,hs₁⟩
        · exact h.open hpaths hpath heq hp
        · exact h.link hpaths hpath heq hp ha flags hs₁
      obtain ⟨herr,hok⟩ := ih hnext.1 (by rw [heq]; simp)
      refine ⟨fun s' hd => ⟨(herr s' hd).1,hnext.2.trans (herr s' hd).2⟩,fun pt s' hd => ?_⟩
      exact ⟨(hok pt s' hd).1,hnext.2.trans (hok pt s' hd).2⟩

end

/-! The entry of the page. -/

theorem indices_eq (v : ℕ) : indices v = pathOf v++[ptIdx v] := rfl

theorem pathOf_within (hv : pml4Idx v ∈ slots) : Within slots (pathOf v) :=
  indices_within hv (by rw [indices_eq]; exact List.prefix_append _ _) (by rw [indices_eq]; simp)

section

variable (hu : Unique hwNext (Within slots) m root) (hv : pml4Idx v ∈ slots)
  (hr : reach hwNext m true root (pathOf v) = some t) (w : Word)
include hu hv hr

theorem replaces_last : Replaces hwNext (Within slots) m root t (pathOf v) (ptIdx v) w :=
  ⟨within_closed slots,hu,pathOf_within hv,hr,fun hin => absurd hin (indices_not_within slots v)⟩

/-- A store at the end of the walk for `v` concerns no other page, and none of the entries above. -/
theorem store_last : (∀ v', pml4Idx v' ∈ slots → indices v' ≠ indices v →
      leafEntry (Paging.store m t (ptIdx v) w) root v' = leafEntry m root v' ∧
        (Shown m root v' → Shown (Paging.store m t (ptIdx v) w) root v')) ∧
      reach hwNext (Paging.store m t (ptIdx v) w) true root (pathOf v) = some t ∧
      ∀ a ∈ ancestors (Paging.store m t (ptIdx v) w) root v, ∃ q j r, pathOf v = q++j::r ∧
        entries m root q j = some a := by
  have hpath := pathOf_within hv
  have hrep := replaces_last hu hv hr w
  have hword : ∀ q j, Within slots q → entries (Paging.store m t (ptIdx v) w) root q j =
      if q = pathOf v ∧ j = ptIdx v then some w else entries m root q j :=
    fun q j hq => hrep.wordAt hq j
  refine ⟨fun v' hv' hne => ?_,(hrep.reach hpath).trans hr,fun a ha => ?_⟩
  · have hsame : ∀ q j r, indices v' = q++j::r → entries (Paging.store m t (ptIdx v) w) root ([]++q) j =
        entries m root ([]++q) j := by
      intro q j r hq
      have hq' : Within slots q := indices_within hv' ⟨j::r,hq.symm⟩ (ne_of_split hq)
      rw [List.nil_append,hword q j hq',if_neg]
      rintro ⟨rfl,rfl⟩
      have hlen := congrArg List.length hq
      simp only [indices,pathOf,List.length_append,List.length_cons,List.length_nil] at hlen
      have hnil : r = [] := List.length_eq_zero_iff.mp (by omega)
      rw [hnil] at hq
      exact hne hq
    obtain ⟨hleaf,habove⟩ := leafOf_congr hsame
    refine ⟨hleaf,fun hs x hx b hb => hs x (hleaf.symm.trans hx) b ?_⟩
    rw [ancestors] at hb ⊢
    rwa [habove] at hb
  · obtain ⟨q,j,r,hq,hne,he⟩ := mem_aboveOf ha
    rw [indices_eq] at hq
    rcases split_concat hq with ⟨rfl,rfl⟩ | ⟨r',hr'⟩
    · have hnil := List.append_cancel_left hq
      exact absurd (List.cons.inj hnil).2.symm hne
    · rw [List.nil_append,hword q j (hpath.of_prefix ⟨j::r',hr'.symm⟩),
        if_neg fun hx => ne_of_split hr' hx.1] at he
      exact ⟨q,j,r',hr',he⟩

end

/-- The kernel finds the tables of a narrow path where the hardware finds them. -/
theorem reach_narrow (hn : Narrow (entries m root) path) (hr : reach hwNext m true root p = some t)
    (heq : path = p++rest) (b : Bool) :
    reach dirNext m b t rest = reach hwNext m p.isEmpty t rest := by
  induction rest generalizing p t b with
  | nil => rfl
  | cons i rest ih =>
    simp only [reach]
    cases hp : present (m t i) with
    | false => simp [dirNext,hp,hwNext_absent hp]
    | true =>
      obtain ⟨hs,hf⟩ := hn p i rest heq _ (entries_eq hr i) hp
      have hnext : hwNext p.isEmpty (m t i) = some (frameOf (m t i)) := hwNext_narrow hs hf
      have hr' : reach hwNext m true root (p++[i]) = some (frameOf (m t i)) := by
        rw [reach_concat,hr]
        simpa using hnext
      have hrest := ih hr' (by rw [heq]; simp) false
      have hempty : (p++[i]).isEmpty = false := by simp
      rw [hempty] at hrest
      simp [dirNext,hp,hnext,hrest]

/-- The unmapping finds its page table and clears the entry, or does nothing. -/
theorem unmap_cases (hs : Small s.mem root v) :
    vmmUnmapPageInCr3 s root v = s ∨ ∃ t, reach hwNext s.mem true root (pathOf v) = some t ∧
      vmmUnmapPageInCr3 s root v = s.store t (ptIdx v) 0 := by
  have hreach : reach dirNext s.mem true root (pathOf v) = reach hwNext s.mem true root (pathOf v) :=
    reach_narrow hs.narrow (p:=[]) rfl rfl true
  rw [unmap_eq,hreach]
  cases reach hwNext s.mem true root (pathOf v) with
  | none => exact Or.inl rfl
  | some t => exact Or.inr ⟨t,rfl,rfl⟩

/-- A store at the end of the walk for `v`, seen from any page, when `v` itself stays shown. -/
theorem store_last_keeps (hu : Unique hwNext (Within slots) m root) (hv : pml4Idx v ∈ slots)
    (hr : reach hwNext m true root (pathOf v) = some t) (w : Word)
    (hself : Shown (Paging.store m t (ptIdx v) w) root v) {v' : ℕ} (hv' : pml4Idx v' ∈ slots)
    (hs : Shown m root v') :
    (indices v' ≠ indices v → translation (Paging.store m t (ptIdx v) w) root v' =
      translation m root v') ∧ Shown (Paging.store m t (ptIdx v) w) root v' := by
  obtain ⟨hother,-,-⟩ := store_last hu hv hr w
  by_cases he : indices v' = indices v
  · exact ⟨fun hne => absurd he hne,hself.of_indices he⟩
  · obtain ⟨hleaf,hshow⟩ := hother v' hv' he
    exact ⟨fun _ => translation_of_leaf hs (hshow hs) hleaf,hshow hs⟩

theorem map_local (htree : TableTree slots s root) (hv : pml4Idx v ∈ slots)
    (hn : Narrow (entries s.mem root) (pathOf v)) (phys : ℕ) (flags : Word) {v' : ℕ} (hv' : pml4Idx v' ∈ slots)
    (hs : Shown s.mem root v') :
    (indices v' ≠ indices v ∨ (vmmMapPageInCr3 s root v phys flags).1 = false →
      translation (vmmMapPageInCr3 s root v phys flags).2.mem root v' = translation s.mem root v') ∧
      Shown (vmmMapPageInCr3 s root v phys flags).2.mem root v' := by
  have hway : Way slots {pathOf v} s root [] root :=
    ⟨⟨htree,by simpa using hn⟩,rfl,fun q j r hq => by simp at hq⟩
  obtain ⟨herr,hok⟩ := hway.descend (by simpa using pathOf_within hv) rfl rfl flags
  rw [map_eq_descend]
  cases hd : descend (dirFlags flags) (pathOf v) s root with
  | error s₁ =>
    obtain ⟨-,hkeep⟩ := herr s₁ hd
    exact ⟨fun _ => hkeep.keeps.translation hv' hs,(hkeep.keeps v' hv').2 hs⟩
  | ok x =>
    obtain ⟨hend,hkeep⟩ := hok x.1 x.2 hd
    obtain ⟨-,-,habove⟩ := store_last hend.tree.unique hv hend.here (pteOf phys flags)
    -- every entry above the new one has been opened
    have hself : Shown (Paging.store x.2.mem x.1 (ptIdx v) (pteOf phys flags)) root v := by
      intro y _ a ha
      obtain ⟨q,j,r,hq,he⟩ := habove a ha
      obtain ⟨hu,hw⟩ := hend.opened q j r hq a he
      exact ⟨fun _ => hu,fun _ => hw⟩
    obtain ⟨htr,hsh⟩ := store_last_keeps hend.tree.unique hv hend.here _ hself hv'
      ((hkeep.keeps v' hv').2 hs)
    refine ⟨fun hne => ?_,hsh⟩
    exact (htr (hne.resolve_right (by simp))).trans (hkeep.keeps.translation hv' hs)

theorem unmap_local (htree : TableTree slots s root) (hv : pml4Idx v ∈ slots)
    (hsmall : Small s.mem root v) {v' : ℕ} (hv' : pml4Idx v' ∈ slots) (hs : Shown s.mem root v') :
    (indices v' ≠ indices v →
      translation (vmmUnmapPageInCr3 s root v).mem root v' = translation s.mem root v') ∧
      Shown (vmmUnmapPageInCr3 s root v).mem root v' := by
  rcases unmap_cases hsmall with he | ⟨t,hr,he⟩ <;> rw [he]
  · exact ⟨fun _ => rfl,hs⟩
  · obtain ⟨-,hr',-⟩ := store_last htree.unique hv hr 0
    have hself : Shown (Paging.store s.mem t (ptIdx v) 0) root v := by
      intro y hy
      have hlast := entries_eq hr' (ptIdx v)
      rw [store_self] at hlast
      rw [leafEntry,indices_eq,leafOf_reach hr' (by simp),(leafOf_absent [] hlast rfl).1] at hy
      cases hy
    exact store_last_keeps htree.unique hv hr 0 hself hv' hs

end

/-- A machine whose tables are a root without entries. -/
def blankVm : Vm := ⟨fun _ _ => 0,bootPmm,0x12⟩

theorem blankVm_tree : TableTree Set.univ blankVm 0x12 := by
  have hnil : ∀ p f, reach hwNext blankVm.mem true 0x12 p = some f → p = [] ∧ f = 0x12 := by
    intro p f h
    cases p with
    | nil => exact ⟨rfl,(Option.some.inj h).symm⟩
    | cons i p => simp [reach,blankVm,hwNext,present] at h
  refine ⟨fun p q f _ _ hp hq => ?_,fun p f _ h => ?_⟩
  · rw [(hnil p f hp).1,(hnil q f hq).1]
  · rw [(hnil p f h).2]
    rfl

end Memory
end DonsOs
