import DonsOs.Lib.Run
import DonsOs.Memory.Clone

/-! A clone and its source.
Right after `vmm_clone_page_table` both roots translate alike.  Later calls of
`vmm_map_page_in_cr3` and `vmm_unmap_page_in_cr3` on the clone change nothing under the
source, and in the upper half of the clone only the recursive slot, which shows the tables
themselves. -/
namespace DonsOs
namespace Memory

open Paging Run

/-- A hierarchy of 4 KB and 2 MB pages.  All its tables are in use; those of the low half,
which the kernel reads through the HHDM, have addresses that it can reach there. -/
structure Hierarchy (s : Vm) (src : ℕ) : Prop where
  root : Stable s src
  tables : ∀ v, ∀ f ∈ tables s.mem (s.mem src (pml4Idx v)) v, Stable s f
  plain : ∀ v, pml4Idx v < 256 → Plain s.mem src v

/-- What the hardware makes of `v` under the root `r` and under `r'`, the entry that it ends in
included. -/
def Agree (m : Mem) (r : ℕ) (m' : Mem) (r' v : ℕ) : Prop :=
  translation m r v = translation m' r' v ∧ leafAt m r v = leafAt m' r' v

theorem Agree.trans {m m' m'' : Mem} {r r' r'' v : ℕ} (h : Agree m r m' r' v)
    (h' : Agree m' r' m'' r'' v) : Agree m r m'' r'' v := ⟨h.1.trans h'.1,h.2.trans h'.2⟩

theorem Agree.symm {m m' : Mem} {r r' v : ℕ} (h : Agree m r m' r' v) : Agree m' r' m r v :=
  ⟨h.1.symm,h.2.symm⟩

/-! Calls on the clone. -/

inductive Edit where
  | map (virt phys : ℕ) (flags : Word)
  | unmap (virt : ℕ)

def Edit.virt : Edit → ℕ
  | .map virt _ _ | .unmap virt => virt

def editStep (root : ℕ) (s : Vm) : Edit → Option Vm
  | .map virt phys flags => some (vmmMapPageInCr3 s root virt phys flags).2
  | .unmap virt => some (vmmUnmapPageInCr3 s root virt)

/-- The address is in the low half and no 2 MB page covers it. -/
def LowEdit (root : ℕ) (s : Vm) (e : Edit) : Prop := e.virt < 2^47 ∧ Uncovered s.mem root e.virt

/-- All 2 MB pages. -/
def anyLarge (_ : List ℕ) (_ : Word) : Prop := True

variable {s s' s₁ : Vm} {ty ty' ty₁ : Typing} {src new r v : ℕ}
variable {large : List ℕ → Word → Prop}

theorem low_addr (hv : v < 2^47) : pml4Idx v < 256 := by
  simp only [pml4Idx]
  omega

theorem Forest.physFrame (h : Forest large s ty) {w : Word} {x : ℕ × List ℕ}
    (hw : ty (frameOf w) = some x) : frameOf w < 2^40 := by
  have hlow := (h.typed _ x hw).2.1
  have hz := s.pmm.zones.low_lt
  simp only [maxPages] at hz
  omega

theorem Forest.plain (h : Forest large s ty) (hr : ty r = some (r,[])) (hv : pml4Idx v < 256) :
    Plain s.mem r v := by
  intro hp4
  obtain ⟨hh4,ht4⟩ := ((h.node r r [] hr).link _ (by simp) (fun _ => hv) hp4).resolve_right (by simp)
  refine ⟨hh4,h.physFrame ht4,fun hp3 => ?_⟩
  obtain ⟨hh3,ht3⟩ := ((h.node _ _ _ ht4).link _ (by simp) (by simp) hp3).resolve_right (by simp)
  exact ⟨hh3,h.physFrame ht3,fun hl2 => h.physFrame (h.link_typed ht3 (by simp) (by simp) hl2)⟩

/-- What the calls on the clone keep: the tree grows, its upper half stays. -/
def Private (s₁ : Vm) (ty₁ : Typing) (root : ℕ) (s : Vm) : Prop :=
  ∃ ty, Forest anyLarge s ty ∧ Extends s₁ s ty₁ ty root ∧
    ∀ i, 256 ≤ i → s.mem root i = s₁.mem root i

theorem Private.map (h : Private s₁ ty₁ r s) (hr : ty₁ r = some (r,[])) {virt phys : ℕ} {flags : Word}
    (hv : pml4Idx virt < 256) (hc : Uncovered s.mem r virt) :
    Private s₁ ty₁ r (vmmMapPageInCr3 s r virt phys flags).2 := by
  obtain ⟨ty,hf,hx,hhigh⟩ := h
  have hroot := hx.old r _ hr
  obtain ⟨s₂,ty',hf₂,hg,-,-,⟨-,he⟩ | ⟨-,pt,hw,he⟩⟩ :=
    map_tree hf hroot hv hc (Prod.mk.eta.symm : vmmMapPageInCr3 s r virt phys flags = _) <;> rw [he]
  · exact ⟨ty',hf₂,hx.trans hg.toExtends,fun i hi => (hg.high r hroot i hi).trans (hhigh i hi)⟩
  · have hpt := hf₂.walk_typed (hg.old r _ hroot) (by simp) (low_pathOf hv) hw
    have hne : r ≠ pt := by
      rintro rfl
      have hpath := (Prod.mk.inj (Option.some.inj ((hg.old r _ hroot).symm.trans hpt))).2
      simp at hpath
    refine ⟨ty',hf₂.store hpt fun hlen => by simp at hlen,hx.trans (hg.toExtends.store hpt _ _),
      fun i hi => ?_⟩
    exact (congrFun (store_of_ne hne) i).trans ((hg.high r hroot i hi).trans (hhigh i hi))

theorem Private.unmap (h : Private s₁ ty₁ r s) (hr : ty₁ r = some (r,[])) {virt : ℕ}
    (hv : pml4Idx virt < 256) (hc : Uncovered s.mem r virt) :
    Private s₁ ty₁ r (vmmUnmapPageInCr3 s r virt) := by
  have hsame := h
  obtain ⟨ty,hf,hx,hhigh⟩ := h
  have hroot := hx.old r _ hr
  simp only [vmmUnmapPageInCr3]
  cases hp4 : present (s.mem r (pml4Idx virt)) with
  | false => simpa using hsame
  | true =>
  obtain ⟨hh4,ht4⟩ := ((hf.node r r [] hroot).link _ (by simp) (fun _ => hv) hp4).resolve_right
    (by simp)
  cases hp3 : present (s.mem (frameOf (s.mem r (pml4Idx virt))) (pdptIdx virt)) with
  | false => simpa using hsame
  | true =>
  obtain ⟨hh3,ht3⟩ := ((hf.node _ _ _ ht4).link _ (by simp) (by simp) hp3).resolve_right (by simp)
  generalize hpd : frameOf (s.mem (frameOf (s.mem r (pml4Idx virt))) (pdptIdx virt)) = pd at ht3 ⊢
  cases hp2 : present (s.mem pd (pdIdx virt)) with
  | false => simpa using hsame
  | true =>
  have hw : walkTo s.mem r [pml4Idx virt,pdptIdx virt] = some pd := by
    simp [walkTo,link,hp4,hh4,hp3,hh3,hpd]
  have hl2 : link (s.mem pd (pdIdx virt)) = true := by simp [link,hp2,hc pd hw hp2]
  have ht2 := hf.link_typed ht3 (by simp) (by simp) hl2
  have hne : r ≠ frameOf (s.mem pd (pdIdx virt)) := by
    intro he
    rw [← he,hroot] at ht2
    simp at ht2
  simp only [Bool.not_true,Bool.false_eq_true,if_false]
  refine ⟨ty,hf.store ht2 fun hlen => by simp at hlen,hx.trans ((Extends.refl s ty r).store ht2 _ _),
    fun i hi => (congrFun (store_of_ne hne) i).trans (hhigh i hi)⟩

theorem Private.run (hf : Forest anyLarge s₁ ty₁) (hr : ty₁ r = some (r,[])) {es : List Edit}
    (ha : Admits (editStep r) (LowEdit r) s₁ es) (hrun : run (editStep r) s₁ es = some s) :
    Private s₁ ty₁ r s := by
  refine run_invariant (Private s₁ ty₁ r) (fun s e s' h hok hs => ?_)
    ⟨ty₁,hf,Extends.refl s₁ ty₁ r,fun _ _ => rfl⟩ ha hrun
  obtain ⟨hv,hc⟩ := hok
  cases e with
  | map virt phys flags =>
    obtain rfl := Option.some.inj hs
    exact h.map hr (low_addr hv) hc
  | unmap virt =>
    obtain rfl := Option.some.inj hs
    exact h.unmap hr (low_addr hv) hc

/-! The source. -/

/-- The tables that the kernel finds on its way to a low address are in use. -/
theorem Hierarchy.walk (h : Hierarchy s src) (hv : pml4Idx v < 256) :
    let pdpt := frameOf (s.mem src (pml4Idx v))
    let pd := frameOf (s.mem pdpt (pdptIdx v))
    link (s.mem src (pml4Idx v)) = true → Stable s pdpt ∧ (link (s.mem pdpt (pdptIdx v)) = true →
      Stable s pd ∧ (link (s.mem pd (pdIdx v)) = true → Stable s (frameOf (s.mem pd (pdIdx v))))) := by
  intro pdpt pd hl4
  have hp4 := link_present hl4
  obtain ⟨-,hf4,hp⟩ := h.plain v hv hp4
  have ht := h.tables v
  simp only [Paging.tables,hp4,physFrame_eq hf4,Bool.not_true,Bool.false_eq_true,if_false] at ht
  refine ⟨ht _ (List.mem_cons_self ..),fun hl3 => ?_⟩
  obtain ⟨-,hf3,hp⟩ := hp (link_present hl3)
  simp only [pdpt] at hl3
  simp only [hl3,physFrame_eq hf3,Bool.not_true,Bool.false_eq_true,if_false] at ht
  refine ⟨ht _ (by simp [pd,pdpt]),fun hl2 => ?_⟩
  simp only [pd,pdpt] at hl2
  simp only [hl2,physFrame_eq (hp hl2),Bool.not_true,Bool.false_eq_true,if_false] at ht
  exact ht _ (by simp [pd,pdpt])

/-- The first address of the 2 MB with the given indices. -/
def addrOf (i j k : ℕ) : ℕ := i*2^39+j*2^30+k*2^21

theorem addrOf_idx {i j k : ℕ} (hi : i < 512) (hj : j < 512) (hk : k < 512) :
    pml4Idx (addrOf i j k) = i ∧ pdptIdx (addrOf i j k) = j ∧ pdIdx (addrOf i j k) = k := by
  simp only [addrOf,pml4Idx,pdptIdx,pdIdx]
  omega

theorem Hierarchy.source (h : Hierarchy s src) : Source anyLarge s src := by
  constructor
  · intro q f hq hlow hidx hw
    match q with
    | [] => exact Option.some.inj hw ▸ h.root
    | [i] =>
      obtain ⟨h4,h3,h2⟩ := addrOf_idx (hidx i (by simp)) (Nat.zero_lt_succ 511) (Nat.zero_lt_succ 511)
      have hi : i < 256 := hlow i (by simp)
      have hs := h.walk (v:=addrOf i 0 0) (by rw [h4]; exact hi)
      rw [h4] at hs
      obtain ⟨hl,rfl⟩ := by simpa [walkTo_cons] using hw
      exact (hs hl).1
    | [i,j] =>
      obtain ⟨h4,h3,h2⟩ := addrOf_idx (hidx i (by simp)) (hidx j (by simp)) (Nat.zero_lt_succ 511)
      have hi : i < 256 := hlow i (by simp)
      have hs := h.walk (v:=addrOf i j 0) (by rw [h4]; exact hi)
      rw [h4,h3] at hs
      obtain ⟨hl,hl3,rfl⟩ := by simpa [walkTo_cons] using hw
      exact ((hs hl).2 hl3).1
    | [i,j,k] =>
      obtain ⟨h4,h3,h2⟩ := addrOf_idx (hidx i (by simp)) (hidx j (by simp)) (hidx k (by simp))
      have hi : i < 256 := hlow i (by simp)
      have hs := h.walk (v:=addrOf i j k) (by rw [h4]; exact hi)
      rw [h4,h3,h2] at hs
      obtain ⟨hl,hl3,hl2,rfl⟩ := by simpa [walkTo_cons] using hw
      exact ((hs hl).2 hl3).2 hl2
    | _::_::_::_::_ =>
      simp at hq
      omega
  · intro q f i hq hlow hidx hw hp hh
    match q with
    | [] =>
      obtain rfl := Option.some.inj hw
      obtain ⟨h4,-,-⟩ := addrOf_idx (hidx i (by simp)) (Nat.zero_lt_succ 511) (Nat.zero_lt_succ 511)
      have hpl := h.plain (addrOf i 0 0) (by rw [h4]; exact hlow i (by simp))
      simp only [Plain,h4] at hpl
      rw [(hpl hp).1] at hh
      cases hh
    | [j] =>
      obtain ⟨h4,h3,-⟩ := addrOf_idx (hidx j (by simp)) (hidx i (by simp)) (Nat.zero_lt_succ 511)
      have hpl := h.plain (addrOf j i 0) (by rw [h4]; exact hlow j (by simp))
      simp only [Plain,h4,h3] at hpl
      obtain ⟨hl,rfl⟩ := by simpa [walkTo_cons] using hw
      rw [((hpl (link_present hl)).2.2 hp).1] at hh
      cases hh
    | [_,_] => exact ⟨rfl,trivial⟩
    | _::_::_::_ =>
      simp at hq
      omega

theorem Hierarchy.agree {m : Mem} (h : Hierarchy s src) (hm : ∀ f, Stable s f → m f = s.mem f) (v : ℕ) :
    Agree m src s.mem src v :=
  translation_congr (by rw [hm src h.root]) fun f hf => hm f (h.tables v f hf)

theorem Hierarchy.agree_high {m : Mem} (h : Hierarchy s src) (hm : ∀ f, Stable s f → m f = s.mem f)
    (hi : m new (pml4Idx v) = highWord (s.mem src) (pml4Idx v)) (hv : pml4Idx v ≠ 510) :
    Agree m new s.mem src v := by
  cases hp : present (s.mem src (pml4Idx v)) with
  | true =>
    have he : m new (pml4Idx v) = s.mem src (pml4Idx v) := by
      rw [hi,highWord,if_neg]
      simp [hp,recursivePml4Index,hv]
    exact translation_congr he fun f hf => hm f (h.tables v f hf)
  | false =>
    rw [highWord,if_pos (Or.inr hp)] at hi
    have hp' : present (m new (pml4Idx v)) = false := by
      rw [hi]
      rfl
    obtain ⟨ht,hl⟩ := translation_absent hp
    obtain ⟨ht',hl'⟩ := translation_absent hp'
    exact ⟨ht'.trans ht.symm,hl'.trans hl.symm⟩

/-- A clone and its source translate alike outside the recursive slot; the recursive slot of
the clone shows the clone; and calls on the clone for low addresses that no 2 MB page covers
change no translation of the source and, outside the recursive slot, none in the upper half
of the clone. -/
theorem clone_faithful_independent (h : Hierarchy s src)
    (hrun : vmmClonePageTable s src = .ok (new,s')) :
    (∀ v, pml4Idx v ≠ recursivePml4Index → Agree s'.mem new s'.mem src v) ∧
    s'.mem new recursivePml4Index = entry new (ptPresent ||| ptWrite) ∧
    ∀ es t, Admits (editStep new) (LowEdit new) s' es → run (editStep new) s' es = some t → ∀ v,
      Agree t.mem src s'.mem src v ∧
      (256 ≤ pml4Idx v → pml4Idx v ≠ recursivePml4Index → Agree t.mem new s'.mem new v) := by
  have hempty : Forest anyLarge s fun _ => none := ⟨by simp,by simp,by simp⟩
  obtain ⟨ty',hf,hx,hr,-,hself,hshared,hcop⟩ := clone_spec hempty h.source hrun
  have hidx : ∀ v, pml4Idx v < 512 := fun v => Nat.mod_lt _ (by omega)
  have hkeep : ∀ f, Stable s f → s'.mem f = s.mem f := fun f hs => hx.keep f hs (by simp)
  refine ⟨fun v hv => ?_,hself,fun es t ha ht v => ?_⟩
  · refine Agree.trans ?_ (h.agree hkeep v).symm
    by_cases h256 : pml4Idx v < 256
    · obtain ⟨hst,hc⟩ := hcop _ h256
      exact translation_copy hst hc (h.plain v h256) (hf.plain hr h256)
    · exact h.agree_high hkeep (hshared _ (by omega) (hidx v) hv) hv
  · obtain ⟨ty,-,hx',hhigh⟩ := Private.run hf hr ha ht
    have hkeep' : ∀ f, Stable s f → t.mem f = s.mem f := fun f hs =>
      (hx.trans hx').keep f hs (by simp)
    refine ⟨(h.agree hkeep' v).trans (h.agree hkeep v).symm,fun h256 hv => ?_⟩
    have hword := hshared _ h256 (hidx v) hv
    exact (h.agree_high hkeep' ((hhigh _ h256).trans hword) hv).trans (h.agree_high hkeep hword hv).symm

/-! A small hierarchy: one 4 KB page, one 2 MB page, and the recursive slot. -/

def smallMem : Mem := fun f i =>
  if f = 100 ∧ i = 0 then entry 101 7#64 else
  if f = 100 ∧ i = 510 then entry 100 3#64 else
  if f = 101 ∧ i = 0 then entry 102 7#64 else
  if f = 102 ∧ i = 0 then entry 103 7#64 else
  if f = 102 ∧ i = 1 then entry 512 0x83#64 else
  if f = 103 ∧ i = 5 then entry 5 7#64 else 0

def smallVm : Vm := ⟨smallMem,bootPmm,100⟩

theorem smallMem_link {f i : ℕ} (h : link (smallMem f i) = true) : frameOf (smallMem f i) < 512 := by
  revert h
  simp only [smallMem]
  split_ifs <;> decide

theorem smallMem_upper (f i : ℕ) (hp : present (smallMem f i) = true) :
    (f = 100 → i < 256 → smallMem f i = entry 101 7#64) ∧
      (f = 100 ∨ f = 101 → huge (smallMem f i) = false) := by
  revert hp
  simp only [smallMem]
  split_ifs <;> simp_all [present] <;> decide

theorem smallVm_hierarchy : Hierarchy smallVm 100 := by
  have hphys : ∀ {f i}, link (smallMem f i) = true → physFrame (smallMem f i) < 512 := fun hl => by
    have hlt := smallMem_link hl
    rw [physFrame_eq (by omega)]
    exact hlt
  have hroot : ∀ {i}, present (smallMem 100 i) = true → link (smallMem 100 i) = true := fun hp => by
    simp [link,hp,(smallMem_upper _ _ hp).2 (Or.inl rfl)]
  refine ⟨Or.inr (by decide),fun v => ?_,fun v hv hp4 => ?_⟩
  · exact tables_of_links (fun hp => Or.inr (hphys (hroot hp))) (fun _ _ hl => Or.inr (hphys hl)) v
  · have he4 := (smallMem_upper _ _ hp4).1 rfl hv
    have hframe : frameOf (entry 101 7#64) = 101 := by decide
    simp only [smallVm] at hp4 ⊢
    rw [he4,hframe]
    refine ⟨by decide,by decide,fun hp3 => ?_⟩
    have hh3 := (smallMem_upper _ _ hp3).2 (Or.inr rfl)
    have hlt := smallMem_link (f:=101) (i:=pdptIdx v) (by simp [link,hp3,hh3])
    exact ⟨hh3,by omega,fun hl2 => lt_trans (smallMem_link hl2) (by norm_num)⟩

/-- The address at which the recursive slot shows the word 1 of the root. -/
def recursiveAddr : ℕ := 2^64-2^48+510*2^39+510*2^30+510*2^21+4096

/-- Mapping a page at 512 GB in the clone, where it has no tables, adds one, and the recursive
slot shows it. -/
theorem recursive_slot_changes : Hierarchy smallVm 100 ∧ 256 ≤ pml4Idx recursiveAddr ∧
    ((vmmClonePageTable smallVm 100).toOption.map fun r =>
      (walkTo r.2.mem r.1 [pml4Idx 0x8000000000,pdptIdx 0x8000000000],
        translation r.2.mem r.1 recursiveAddr,
        translation (vmmMapPageInCr3 r.2 r.1 0x8000000000 0 3#64).2.mem r.1 recursiveAddr)) =
      some (none,none,some ⟨1028,false,true⟩) :=
  ⟨smallVm_hierarchy,by decide,by decide +kernel⟩

theorem clone_faithful_independent_small :
    ∃ t, vmmClonePageTable smallVm 100 = .ok (1024,t) ∧
      Agree t.mem 1024 t.mem 100 0x5000 ∧ Agree t.mem 1024 t.mem 100 0x200000 := by
  have hrun : (vmmClonePageTable smallVm 100).toOption.map Prod.fst = some 1024 := by decide +kernel
  obtain ⟨⟨new,t⟩,hr,rfl⟩ := Option.map_eq_some_iff.mp hrun
  replace hr : vmmClonePageTable smallVm 100 = .ok (1024,t) := by
    cases hc : vmmClonePageTable smallVm 100 with
    | error s => simp [hc,Except.toOption] at hr
    | ok r => simpa [hc,Except.toOption] using hr
  obtain ⟨hagree,-,-⟩ := clone_faithful_independent smallVm_hierarchy hr
  exact ⟨t,hr,hagree _ (by decide),hagree _ (by decide)⟩

end Memory
end DonsOs
