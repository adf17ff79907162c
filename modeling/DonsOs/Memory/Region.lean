import DonsOs.Memory.Conserve
import DonsOs.Memory.Local
import DonsOs.Memory.Supply

/-! Regions of pages.
A loop of the kernel takes a frame, writes to it and maps the next page to it.  On a tree of tables
each turn leaves the other pages and what they hold alone, and the tables fit for the next one. -/
namespace DonsOs
namespace Memory

open Paging LinkedTables

section
variable {slots tidy : Set ℕ} {paths : Set (List ℕ)} {s s' : Vm} {m m' : Mem}
variable {root root' t i f g v : ℕ} {p path : List ℕ} {flags : Word} {pmm : Pmm}

theorem Orderly.store_last (h : Orderly slots paths s root) (hpaths : ∀ path ∈ paths, Within slots path)
    (hv : pml4Idx v ∈ slots) (hr : reach hwNext s.mem true root (pathOf v) = some t) (w : Word) :
    Orderly slots paths (s.store t (ptIdx v) w) root := by
  have hrep := replaces_last h.tree.unique hv hr w
  refine ⟨⟨hrep.unique_put,fun q g hq hg => h.tree.used q g hq ((hrep.reach hq).symm.trans hg)⟩,?_⟩
  intro path hpath q j r hq e he hpe
  have hqin : Within slots q := Within.of_prefix (hpaths path hpath) ⟨j::r,hq.symm⟩
  have hlen := (hpaths path hpath).length
  have hword : entries (s.store t (ptIdx v) w).mem root q j =
      if q = pathOf v ∧ j = ptIdx v then some w else entries s.mem root q j := hrep.wordAt hqin j
  rw [hword,if_neg] at he
  · exact h.narrow path hpath q j r hq e he hpe
  · -- the last table is at the end of the longest paths
    rintro ⟨rfl,-⟩
    rw [hq] at hlen
    simp only [pathOf,List.length_append,List.length_cons] at hlen
    omega

theorem nextTable_cr3 {d : Word} (h : nextTable s t i d = some (f,s')) : s'.cr3 = s.cr3 := by
  rcases nextTable_cases h with ⟨-,-,rfl⟩ | ⟨-,pmm,-,rfl⟩ <;> rfl

theorem descend_cr3 {d : Word} :
    (∀ s', descend d path s t = .error s' → s'.cr3 = s.cr3) ∧
      ∀ x, descend d path s t = .ok x → x.2.cr3 = s.cr3 := by
  induction path generalizing s t with
  | nil => simp [descend]
  | cons i path ih =>
    simp only [descend]
    cases hn : nextTable s t i d with
    | none => simp
    | some y =>
      have hy := nextTable_cr3 hn
      exact ⟨fun s' h => (ih.1 s' h).trans hy,fun x h => (ih.2 x h).trans hy⟩

theorem map_cr3 (s : Vm) (root v phys : ℕ) (flags : Word) :
    (vmmMapPageInCr3 s root v phys flags).2.cr3 = s.cr3 := by
  rw [map_eq_descend]
  cases hd : descend (dirFlags flags) (pathOf v) s root with
  | error s₁ => exact descend_cr3.1 s₁ hd
  | ok x => exact descend_cr3.2 x hd

/-! Tables that are fit for mapping. -/

/-- A tree of tables in which the entry of a page decides alone what is allowed.  The slots are tidy
where there are no large pages. -/
structure Proper (slots tidy : Set ℕ) (s : Vm) (root : ℕ) : Prop
    extends Orderly slots {p | Within tidy p} s root where
  sub : tidy ⊆ slots
  shown : ∀ v, pml4Idx v ∈ slots → Shown s.mem root v

/-- The frame is in use, and is none of the tables. -/
structure Holds (slots : Set ℕ) (s : Vm) (root g : ℕ) : Prop where
  used : s.pmm.bitmap g = true
  loose : Loose slots s.mem root g

section

variable (h : Proper slots tidy s root) (hv : pml4Idx v ∈ tidy) (phys : ℕ) (flags : Word)
include h hv

theorem Proper.map_local {v' : ℕ} (hv' : pml4Idx v' ∈ slots) :
    (indices v' ≠ indices v ∨ (vmmMapPageInCr3 s root v phys flags).1 = false →
      translation (vmmMapPageInCr3 s root v phys flags).2.mem root v' = translation s.mem root v') ∧
      Shown (vmmMapPageInCr3 s root v phys flags).2.mem root v' :=
  Memory.map_local h.tree (h.sub hv) (h.narrow _ (pathOf_within hv)) phys flags hv' (h.shown v' hv')

/-- The tables are opened and linked on the way to the page, and the entry of the page is stored. -/
theorem Proper.map_cases :
    ∃ s₁, Orderly slots {p | Within tidy p} s₁ root ∧ Gentle slots s s₁ root ∧
      (vmmMapPageInCr3 s root v phys flags = (false,s₁) ∨
        ∃ pt, reach hwNext s₁.mem true root (pathOf v) = some pt ∧
          vmmMapPageInCr3 s root v phys flags = (true,s₁.store pt (ptIdx v) (pteOf phys flags))) := by
  have hway : Way slots {p | Within tidy p} s root [] root :=
    ⟨h.toOrderly,rfl,fun q j r hq => by simp at hq⟩
  obtain ⟨herr,hok⟩ := hway.descend (fun _ hp => Within.mono hp h.sub) (pathOf_within hv) rfl flags
  rw [map_eq_descend]
  cases hd : descend (dirFlags flags) (pathOf v) s root with
  | error s₁ => exact ⟨s₁,(herr s₁ hd).1,(herr s₁ hd).2,Or.inl rfl⟩
  | ok x =>
    obtain ⟨hend,hgentle⟩ := hok x.1 x.2 hd
    exact ⟨x.2,hend.toOrderly,hgentle,Or.inr ⟨x.1,hend.here,rfl⟩⟩

/-- After a mapping the tables are as they must be for the next one, and the page has its entry. -/
theorem Proper.map : Proper slots tidy (vmmMapPageInCr3 s root v phys flags).2 root ∧
      ((vmmMapPageInCr3 s root v phys flags).1 = true →
        leafEntry (vmmMapPageInCr3 s root v phys flags).2.mem root v = some (pteOf phys flags,0)) := by
  have hshown := fun v' hv' => (@Proper.map_local slots tidy s root v h hv phys flags v' hv').2
  obtain ⟨s₁,horder,-,hm | ⟨pt,hr,hm⟩⟩ := h.map_cases hv phys flags <;> rw [hm] at hshown ⊢
  · exact ⟨⟨horder,h.sub,hshown⟩,fun hf => by cases hf⟩
  · have hpaths : ∀ path ∈ {p | Within tidy p}, Within slots path := fun _ hp => Within.mono hp h.sub
    obtain ⟨-,hr',-⟩ := Memory.store_last horder.tree.unique (h.sub hv) hr (pteOf phys flags)
    refine ⟨⟨horder.store_last hpaths (h.sub hv) hr _,h.sub,hshown⟩,fun _ => ?_⟩
    have hlast := entries_eq hr' (ptIdx v)
    rw [store_self] at hlast
    have hleaf := (leafOf_last hlast (present_pteOf phys flags)).1
    rw [leafEntry,indices_eq,← hleaf]
    exact leafOf_reach hr' (by simp)

/-- A frame that is no table keeps what it holds. -/
theorem Proper.map_holds (hg : Holds slots s root g) :
    Holds slots (vmmMapPageInCr3 s root v phys flags).2 root g ∧
      (vmmMapPageInCr3 s root v phys flags).2.mem g = s.mem g := by
  obtain ⟨s₁,horder,hgentle,hm | ⟨pt,hr,hm⟩⟩ := h.map_cases hv phys flags <;> rw [hm] <;>
    obtain ⟨hmem,hloose⟩ := hgentle.data g hg.used hg.loose
  · exact ⟨⟨hgentle.used g hg.used,hloose⟩,hmem⟩
  · have hrep := replaces_last horder.tree.unique (h.sub hv) hr (pteOf phys flags)
    refine ⟨⟨hgentle.used g hg.used,fun q hq => ?_⟩,(store_of_ne ?_).trans hmem⟩
    · rw [show reach hwNext (s₁.store pt (ptIdx v) (pteOf phys flags)).mem true root q =
        reach hwNext s₁.mem true root q from hrep.reach hq]
      exact hloose q hq
    · rintro rfl
      exact hloose _ (pathOf_within (h.sub hv)) hr

end

theorem proper_of_absent (h : ∀ i ∈ slots, present (s.mem root i) = false)
    (hroot : s.pmm.bitmap root = true) (hsub : tidy ⊆ slots) : Proper slots tidy s root := by
  have hnil : ∀ p f, Within slots p → reach hwNext s.mem true root p = some f → p = [] ∧ f = root := by
    intro p f hp hr
    cases p with
    | nil => exact ⟨rfl,(Option.some.inj hr).symm⟩
    | cons i p =>
      rw [reach,hwNext_absent (h i (hp.head i rfl))] at hr
      cases hr
  refine ⟨⟨⟨fun p q f hp hq hrp hrq => ?_,fun p f hp hr => ?_⟩,?_⟩,hsub,fun v hv x hx => ?_⟩
  · rw [(hnil p f hp hrp).1,(hnil q f hq hrq).1]
  · rw [(hnil p f hp hr).2]
    exact hroot
  · intro path hpath q j r hq e he hpe
    have hin : Within slots path := Within.mono hpath hsub
    obtain ⟨t,ht,rfl⟩ := Option.map_eq_some_iff.mp he
    obtain ⟨rfl,rfl⟩ := hnil q t (hin.of_prefix ⟨j::r,hq.symm⟩) ht
    rw [h j (hin.head j (by rw [hq]; rfl))] at hpe
    cases hpe
  · have hroot' : entries s.mem root [] (pml4Idx v) = some (s.mem root (pml4Idx v)) := entries_eq rfl _
    rw [leafEntry,indices,(leafOf_absent _ hroot' (h _ hv)).1] at hx
    cases hx

/-! Changes beside the tables. -/

/-- The given slots of two roots lead to the same tables, with the same words. -/
structure SameTables (slots : Set ℕ) (m m' : Mem) (root root' : ℕ) : Prop where
  top : ∀ i ∈ slots, m' root' i = m root i
  below : ∀ p f i, Within slots p → p ≠ [] → reach hwNext m true root p = some f → m' f i = m f i

theorem SameTables.reach (h : SameTables slots m m' root root') (hp : Within slots p) (hne : p ≠ []) :
    reach hwNext m' true root' p = reach hwNext m true root p := by
  induction p using List.reverseRecOn with
  | nil => exact absurd rfl hne
  | append_singleton p i ih =>
    have hpre : Within slots p := within_closed slots p i hp
    rw [reach_concat,reach_concat]
    by_cases hnil : p = []
    · subst hnil
      simp only [LinkedTables.reach,Option.bind_some]
      rw [h.top i (hp.head i (by simp))]
    · rw [ih hpre hnil]
      cases hr : LinkedTables.reach hwNext m true root p with
      | none => rfl
      | some f => rw [Option.bind_some,Option.bind_some,h.below p f i hpre hnil hr]

theorem SameTables.entries (h : SameTables slots m m' root root') (hp : Within slots p)
    (hi : p = [] → i ∈ slots) : entries m' root' p i = entries m root p i := by
  by_cases hnil : p = []
  · subst hnil
    rw [entries_eq rfl,entries_eq rfl,h.top i (hi rfl)]
  · rw [Paging.entries,Paging.entries,wordAt,wordAt,h.reach hp hnil]
    cases hr : LinkedTables.reach hwNext m true root p with
    | none => rfl
    | some f => rw [Option.map_some,Option.map_some,h.below p f i hp hnil hr]

theorem SameTables.walk (h : SameTables slots m m' root root') (hv : pml4Idx v ∈ slots) :
    leafEntry m' root' v = leafEntry m root v ∧ ancestors m' root' v = ancestors m root v := by
  refine leafOf_congr fun q j r hq => ?_
  refine h.entries (indices_within hv ⟨j::r,hq.symm⟩ (ne_of_split hq)) ?_
  rintro rfl
  obtain ⟨rfl,-⟩ := List.cons.inj hq
  exact hv

/-- Tables that the slots of another root lead to as well are proper there too, and translate the
same pages. -/
theorem Proper.congr (h : Proper slots tidy s root) (hw : SameTables slots s.mem s'.mem root root')
    (hroot : s'.pmm.bitmap root' = true)
    (hapart : ∀ p, Within slots p → reach hwNext s.mem true root p = some root' → p = [])
    (hused : ∀ p f, Within slots p → p ≠ [] → reach hwNext s.mem true root p = some f →
      s'.pmm.bitmap f = true) :
    Proper slots tidy s' root' ∧
      ∀ v, pml4Idx v ∈ slots → translation s'.mem root' v = translation s.mem root v := by
  have hcases : ∀ p f, Within slots p → reach hwNext s'.mem true root' p = some f →
      p = [] ∧ f = root' ∨ p ≠ [] ∧ reach hwNext s.mem true root p = some f := by
    intro p f hp hr
    by_cases hnil : p = []
    · subst hnil
      exact Or.inl ⟨rfl,(Option.some.inj hr).symm⟩
    · exact Or.inr ⟨hnil,by rwa [hw.reach hp hnil] at hr⟩
  refine ⟨⟨⟨⟨fun p q f hp hq hrp hrq => ?_,fun p f hp hr => ?_⟩,?_⟩,h.sub,fun v hv => ?_⟩,fun v hv => ?_⟩
  · rcases hcases p f hp hrp with ⟨rfl,rfl⟩ | ⟨hne,hrp⟩ <;> rcases hcases q _ hq hrq with ⟨rfl,hf⟩ | ⟨hne',hrq⟩
    · rfl
    · exact absurd (hapart q hq hrq) hne'
    · exact absurd (hapart p hp (hf ▸ hrp)) hne
    · exact h.tree.unique hp hq hrp hrq
  · rcases hcases p f hp hr with ⟨-,rfl⟩ | ⟨hne,hr⟩
    · exact hroot
    · exact hused p f hp hne hr
  · intro path hpath q j r hq e he
    have hin : Within slots (q++[j]) :=
      Within.of_prefix (Within.mono hpath h.sub) ⟨r,by rw [hq]; simp⟩
    rw [hw.entries (within_closed slots q j hin) fun hnil => hin.head j (by simp [hnil])] at he
    exact h.narrow path hpath q j r hq e he
  · obtain ⟨hleaf,habove⟩ := hw.walk hv
    have hs := h.shown v hv
    rw [Shown,hleaf,habove]
    exact hs
  · obtain ⟨hleaf,habove⟩ := hw.walk hv
    rw [translation_eq,translation_eq,hleaf,habove]

theorem SameTables.loose (h : SameTables slots m m' root root) (hg : Loose slots m root g) :
    Loose slots m' root g := by
  intro p hp
  by_cases hnil : p = []
  · subst hnil
    exact hg [] hp
  · rw [h.reach hp hnil]
    exact hg p hp

/-- Writing to a frame that is no table. -/
theorem Loose.sameTables (h : Loose slots m root f) (hm : ∀ g, g ≠ f → m' g = m g) :
    SameTables slots m m' root root := by
  have hne : ∀ p g, Within slots p → LinkedTables.reach hwNext m true root p = some g → g ≠ f := by
    rintro p g hp hr rfl
    exact h p hp hr
  have hnil : Within slots [] := ⟨by simp,by simp,by simp⟩
  exact ⟨fun i _ => congrFun (hm root (hne [] root hnil rfl)) i,
    fun p g i hp _ hr => congrFun (hm g (hne p g hp hr)) i⟩

theorem Proper.write (h : Proper slots tidy s root) (hm : SameTables slots s.mem m root root)
    (hb : ∀ g, s.pmm.bitmap g = true → s'.pmm.bitmap g = true) (hs' : s'.mem = m) :
    Proper slots tidy s' root ∧
      ∀ v, pml4Idx v ∈ slots → translation s'.mem root v = translation s.mem root v := by
  subst hs'
  have hnil : Within slots [] := ⟨by simp,by simp,by simp⟩
  exact h.congr hm (hb root (h.tree.used [] root hnil rfl))
    (fun p hp hr => h.tree.unique hp hnil hr rfl) fun p f hp _ hr => hb f (h.tree.used p f hp hr)

/-! One turn of a loop. -/

theorem pteOf_leaf (hf : f < 2^40) (hx : flags.getLsbD 63 = false) :
    physFrame (pteOf (f*4096) flags) = f ∧ user (pteOf (f*4096) flags) = user flags ∧
      writable (pteOf (f*4096) flags) = writable flags := by
  have hframe : frameOf (pteOf (f*4096) flags) = f*4096/4096 :=
    (frameOf_pteOf_iff (by omega)).mpr hx
  rw [Nat.mul_div_cancel f (by norm_num)] at hframe
  refine ⟨by rw [physFrame_eq (by omega),hframe],?_,?_⟩
  · obtain ⟨h₁,h₂,h₃,h₄,h₅⟩ : ptPresent.getLsbD 2 = false ∧ ptWrite.getLsbD 2 = false ∧
      ptUser.getLsbD 2 = true ∧ (pagePcd ||| pagePwt).getLsbD 2 = false ∧ ptNx.getLsbD 2 = false := by
      decide
    rw [user,pteOf,getLsbD_entry (by decide)]
    simp only [BitVec.getLsbD_or,BitVec.getLsbD_and] at h₄ ⊢
    simp only [h₁,h₂,h₃,h₄,h₅,Bool.and_false,Bool.and_true,Bool.false_or,Bool.or_false,user]
  · obtain ⟨h₁,h₂,h₃,h₄,h₅⟩ : ptPresent.getLsbD 1 = false ∧ ptWrite.getLsbD 1 = true ∧
      ptUser.getLsbD 1 = false ∧ (pagePcd ||| pagePwt).getLsbD 1 = false ∧ ptNx.getLsbD 1 = false := by
      decide
    rw [writable,pteOf,getLsbD_entry (by decide)]
    simp only [BitVec.getLsbD_or,BitVec.getLsbD_and] at h₄ ⊢
    simp only [h₁,h₂,h₃,h₄,h₅,Bool.and_false,Bool.and_true,Bool.false_or,Bool.or_false,writable]

theorem Proper.loose_free (h : Proper slots tidy s root) (hf : s.pmm.bitmap f = false) :
    Loose slots s.mem root f := by
  intro p hp hr
  have hused := h.tree.used p f hp hr
  rw [hf] at hused
  cases hused

theorem Taken.used (ht : Taken s.pmm pmm f) (g : ℕ) (hg : s.pmm.bitmap g = true) :
    pmm.bitmap g = true := by
  rw [ht.bitmap,Function.update_apply]
  split_ifs
  · rfl
  · exact hg

/-- A turn has taken the frame `f`, has left `page` in it, and has mapped the page `v` to it. -/
structure Turn (slots tidy : Set ℕ) (s s' : Vm) (v f : ℕ) (page : ℕ → Word) : Prop where
  cr3 : s'.cr3 = s.cr3
  proper : Proper slots tidy s' s'.cr3
  free : s.pmm.bitmap f = false
  used : ∀ g, s.pmm.bitmap g = true → s'.pmm.bitmap g = true
  frame : Holds slots s' s'.cr3 f
  page : s'.mem f = page
  holds : ∀ g, Holds slots s s.cr3 g → Holds slots s' s'.cr3 g ∧ s'.mem g = s.mem g
  others : ∀ v', pml4Idx v' ∈ slots → indices v' ≠ indices v →
    translation s'.mem s'.cr3 v' = translation s.mem s.cr3 v'

section

variable (h : Proper slots tidy s s.cr3) (ht : Taken s.pmm pmm f) (hm : ∀ g, g ≠ f → m g = s.mem g)
  (hv : pml4Idx v ∈ tidy)
include h ht hm hv

theorem Proper.turn (flags : Word) :
    Turn slots tidy s (vmmMapPageInCr3 ⟨m,pmm,s.cr3⟩ s.cr3 v (f*4096) flags).2 v f (m f) := by
  have hloose := h.loose_free ht.free
  have hsame := hloose.sameTables hm
  have hwrite : Proper slots tidy ⟨m,pmm,s.cr3⟩ s.cr3 ∧ _ := h.write hsame ht.used rfl
  obtain ⟨hproper,htr⟩ := hwrite
  have hcr3 := map_cr3 ⟨m,pmm,s.cr3⟩ s.cr3 v (f*4096) flags
  have hself : Holds slots ⟨m,pmm,s.cr3⟩ s.cr3 f :=
    ⟨by simp only [ht.bitmap,Function.update_self],hsame.loose hloose⟩
  have hkeep := hproper.map_holds hv (f*4096) flags hself
  refine ⟨hcr3,?_,ht.free,fun g hg => ?_,?_,?_,fun g hg => ?_,fun v' hv' hne => ?_⟩ <;> try rw [hcr3]
  · exact (hproper.map hv _ _).1
  · exact (Grows.map ⟨m,pmm,s.cr3⟩ s.cr3 v (f*4096) flags).bitmap g (ht.used g hg)
  · exact hkeep.1
  · exact hkeep.2
  · have hne : g ≠ f := by
      rintro rfl
      have hb := hg.used
      rw [ht.free] at hb
      cases hb
    obtain ⟨hholds,hmem⟩ := hproper.map_holds hv (f*4096) flags (g:=g) ⟨ht.used g hg.used,hsame.loose hg.loose⟩
    exact ⟨hholds,hmem.trans (hm g hne)⟩
  · exact ((hproper.map_local hv _ _ hv').1 (Or.inl hne)).trans (htr v' hv')

/-- The page that is mapped, if the tables for it were there or could be added. -/
theorem Proper.turn_mapped (hf : f < 2^40) (hc : Canonical v) (hx : flags.getLsbD 63 = false)
    (hok : (vmmMapPageInCr3 ⟨m,pmm,s.cr3⟩ s.cr3 v (f*4096) flags).1 = true) :
    translation (vmmMapPageInCr3 ⟨m,pmm,s.cr3⟩ s.cr3 v (f*4096) flags).2.mem s.cr3 v =
      some ⟨f,user flags,writable flags⟩ := by
  obtain ⟨hframe,huser,hwrite⟩ := pteOf_leaf hf hx
  have hproper : Proper slots tidy ⟨m,pmm,s.cr3⟩ s.cr3 :=
    (h.write ((h.loose_free ht.free).sameTables hm) ht.used rfl).1
  obtain ⟨hafter,hleaf⟩ := hproper.map hv (f*4096) flags
  have htr := (hafter.shown v (h.sub hv)).translation
  rw [hleaf hok,if_pos hc,Option.map_some] at htr
  simpa only [pageOf,pow_zero,Nat.div_one,Nat.mul_one,Nat.mod_one,Nat.add_zero,hframe,huser,hwrite]
    using htr

end

end

/-! Pages in a row. -/

/-- A place for pages in a row: they are in slots of the root that are tidy, with room for as many
as there are frames, twice over. -/
structure Site (tidy : Set ℕ) (start : ℕ) : Prop where
  pos : 0 < start
  aligned : 4096 ∣ start
  slot : ∀ i < 65536, pml4Idx (start+4096*i) ∈ tidy
  canonical : ∀ i < 65536, Canonical (start+4096*i)
  room : start+4096*65536 < 2^64

theorem indices_inj {v v' : ℕ} (h : indices v = indices v') : v/4096%2^36 = v'/4096%2^36 := by
  simp only [indices,pml4Idx,pdptIdx,pdIdx,ptIdx,List.cons.injEq,and_true] at h
  omega

theorem Site.page_inj {tidy : Set ℕ} {start i k : ℕ} (hs : Site tidy start) (hi : i < 65536)
    (hk : k < 65536) (h : indices (start+4096*i) = indices (start+4096*k)) : i = k := by
  have hinj := indices_inj h
  obtain ⟨a,rfl⟩ := hs.aligned
  omega

/-- The first `n` pages have frames of their own, as `P` asks. -/
def Assigned (P : ℕ → ℕ → Prop) (n : ℕ) : Prop :=
  ∃ frame : ℕ → ℕ, (∀ i < n, P i (frame i)) ∧ ∀ i < n, ∀ j < n, frame i = frame j → i = j

section
variable {P Q : ℕ → ℕ → Prop} {n c f : ℕ}

theorem assigned_zero : Assigned P 0 :=
  ⟨id,fun i hi => absurd hi (Nat.not_lt_zero i),fun i hi => absurd hi (Nat.not_lt_zero i)⟩

theorem Assigned.mono (h : Assigned P n) (hc : c ≤ n) : Assigned P c := by
  obtain ⟨frame,hP,hinj⟩ := h
  exact ⟨frame,fun i hi => hP i (by omega),fun i hi k hk => hinj i (by omega) k (by omega)⟩

theorem Assigned.imp (h : Assigned P n) (hPQ : ∀ i < n, ∀ g, P i g → Q i g) : Assigned Q n := by
  obtain ⟨frame,hP,hinj⟩ := h
  exact ⟨frame,fun i hi => hPQ i hi _ (hP i hi),hinj⟩

theorem Assigned.count_le (h : Assigned P n) {N : ℕ} (hP : ∀ i f, P i f → f < N) : n ≤ N := by
  obtain ⟨frame,hframe,hinj⟩ := h
  have hmaps : Set.MapsTo frame (Finset.range n) (Finset.range N) := fun i hi =>
    Finset.mem_coe.mpr (Finset.mem_range.mpr (hP i _ (hframe i (Finset.mem_range.mp hi))))
  have hcard := Finset.card_le_card_of_injOn frame hmaps fun i hi j hj =>
    hinj i (Finset.mem_range.mp hi) j (Finset.mem_range.mp hj)
  simpa using hcard

theorem Assigned.succ (h : Assigned P n) (hPQ : ∀ i < n, ∀ g, P i g → Q i g ∧ g ≠ f) (hf : Q n f) :
    Assigned Q (n+1) := by
  obtain ⟨frame,hP,hinj⟩ := h
  have hold : ∀ i < n, Q i (frame i) ∧ frame i ≠ f := fun i hi => hPQ i hi _ (hP i hi)
  refine ⟨Function.update frame n f,fun i hi => ?_,fun i hi k hk he => ?_⟩
  · by_cases hin : i = n
    · rw [hin,Function.update_self]
      exact hf
    · rw [Function.update_of_ne hin]
      exact (hold i (by omega)).1
  · by_cases hin : i = n <;> by_cases hkn : k = n
    · rw [hin,hkn]
    · rw [hin,Function.update_self,Function.update_of_ne hkn] at he
      exact absurd he.symm (hold k (by omega)).2
    · rw [hkn,Function.update_self,Function.update_of_ne hin] at he
      exact absurd he (hold i (by omega)).2
    · rw [Function.update_of_ne hin,Function.update_of_ne hkn] at he
      exact hinj i (by omega) k (by omega) he

end

end Memory
end DonsOs
