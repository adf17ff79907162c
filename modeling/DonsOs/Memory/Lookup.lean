import DonsOs.Lib.LinkedTables
import DonsOs.Memory.Tree

/-! Looking pages up.
`vmm_get_phys`, `vmm_get_phys_from_cr3` and `vmm_is_mapped` follow present entries through four
levels.  They do not look at the page-size bit, so they take a large page for a page table, and they
keep every bit of an entry above bit 11. -/
namespace DonsOs
namespace Memory

open Paging LinkedTables

/-! Lookups and the hardware. -/

/-- The physical address that the walk of the hardware gives to `v`. -/
def hardwarePhys (m : Mem) (root v : ℕ) : Option ℕ :=
  (leafAt m root v).map fun x => x.2*4096+v%4096

/-- The answer `phys` reports what the hardware finds, bit 63 apart. -/
def Reports (hw : Option ℕ) (phys : ℕ) : Prop :=
  (phys ≠ 0 ↔ hw.isSome = true) ∧ ∀ pa, hw = some pa → phys%2^63 = pa

/-- Physical addresses have 52 bits. -/
def Physical (m : Mem) : Prop := ∀ f, 2^40 ≤ f → ∀ i, m f i = 0

/-- The walk of the hardware meets no 1 GB page. -/
def NoGigabyte (m : Mem) (root v : ℕ) : Prop :=
  let e4 := m root (pml4Idx v)
  let e3 := m (physFrame e4) (pdptIdx v)
  present e4 = true → present e3 = true → huge e3 = false

/-- The entry `e`, read as one of a page table, gives the frame `f` to `v`, and not address 0. -/
def Gives (e : Word) (f v : ℕ) : Prop :=
  present e = true ∧ frameOf e%2^51 = f ∧ frameOf e*4096+v%4096 ≠ 0

/-- What a lookup needs in order to report the mapping of `v`: the entries above have no bit
beyond 51, and the last one has none but bit 63.  Where a 2 MB page is met, its first frame must
happen to hold an entry for the frame of `v`. -/
def Legible (m : Mem) (root v : ℕ) : Prop :=
  let e4 := m root (pml4Idx v)
  let e3 := m (physFrame e4) (pdptIdx v)
  let e2 := m (physFrame e3) (pdIdx v)
  let e1 := m (physFrame e2) (ptIdx v)
  present e4 = true → present e3 = true → present e2 = true →
    if huge e2 then frameOf e4 < 2^40 ∧ frameOf e3 < 2^40 ∧
      Gives (m (frameOf e2) (ptIdx v)) (physFrame e2/512*512+v/4096%512) v
    else present e1 = true → frameOf e4 < 2^40 ∧ frameOf e3 < 2^40 ∧ frameOf e2 < 2^40 ∧
      Gives e1 (physFrame e1) v

/-- The table that the kernel takes an entry to name is the one it names, or lies beyond memory. -/
theorem Physical.read {m : Mem} (hm : Physical m) (e : Word) (i : ℕ) :
    frameOf e < 2^40 ∧ m (frameOf e) i = m (physFrame e) i ∨
      ¬frameOf e < 2^40 ∧ m (frameOf e) i = 0#64 := by
  by_cases hf : frameOf e < 2^40
  · exact Or.inl ⟨hf,by rw [physFrame_eq hf]⟩
  · exact Or.inr ⟨hf,hm _ (Nat.not_lt.mp hf) i⟩

/-- Where the hardware finds nothing the lookup does not either; where it finds a frame, the
lookup has to read an entry for that frame. -/
theorem walk_cases {m : Mem} {root v : ℕ} (hm : Physical m) (hg : NoGigabyte m root v) :
    leafAt m root v = none ∧ vmmWalk m root v = none ∧ Legible m root v ∨
      ∃ x, leafAt m root v = some x ∧
        (Legible m root v ↔ ∃ k, vmmWalk m root v = some k ∧ Gives k x.2 v) := by
  have habsent : present 0#64 = false := rfl
  simp only [NoGigabyte] at hg
  simp only [leafAt,vmmWalk,Legible]
  generalize m root (pml4Idx v) = e4 at *
  have h3 := hm.read e4 (pdptIdx v)
  generalize m (physFrame e4) (pdptIdx v) = e3 at *
  have h2 := hm.read e3 (pdIdx v)
  generalize m (physFrame e3) (pdIdx v) = e2 at *
  have h1 := hm.read e2 (ptIdx v)
  generalize m (physFrame e2) (ptIdx v) = e1 at *
  generalize (frameOf e4 < 2^40) = b4 at *
  generalize (frameOf e3 < 2^40) = b3 at *
  generalize (frameOf e2 < 2^40) = b2 at *
  cases hp4 : present e4 with
  | false => simp
  | true =>
  cases hp3 : present e3 with
  | false => rcases h3 with ⟨-,h3⟩ | ⟨-,h3⟩ <;> simp [h3,hp3,habsent]
  | true =>
  have hh3 := hg hp4 hp3
  rcases h3 with ⟨hb4,h3⟩ | ⟨hb4,h3⟩
  · cases hp2 : present e2 with
    | false => rcases h2 with ⟨-,h2⟩ | ⟨-,h2⟩ <;> simp [h3,h2,hp3,hh3,hp2,habsent]
    | true =>
    rcases h2 with ⟨hb3,h2⟩ | ⟨hb3,h2⟩
    · cases hh2 : huge e2 with
      | true =>
        cases hw : present (m (frameOf e2) (ptIdx v)) <;>
          simp [h3,h2,hp3,hh3,hp2,hb4,hb3,hw,Gives]
      | false =>
        cases hp1 : present e1 with
        | false => rcases h1 with ⟨-,h1⟩ | ⟨-,h1⟩ <;> simp [h3,h2,h1,hp3,hh3,hp2,hp1,habsent]
        | true =>
          rcases h1 with ⟨hb2,h1⟩ | ⟨hb2,h1⟩ <;>
            simp [h3,h2,h1,hp3,hh3,hp2,hp1,hb4,hb3,hb2,habsent]
    · cases hh2 : huge e2 <;> cases hp1 : present e1 <;> simp [h3,h2,hp3,hh3,hb3,habsent]
  · cases hp2 : present e2 <;> cases hh2 : huge e2 <;> cases hp1 : present e1 <;>
      simp [h3,hh3,hb4,habsent]

theorem vmmWalk_present {m : Mem} {root v : ℕ} {k : Word} (h : vmmWalk m root v = some k) :
    present k = true := by
  simp only [vmmWalk] at h
  split_ifs at h with _ _ _ h1
  obtain rfl := Option.some.inj h
  simpa using h1

/-- An entry for the frame `f` yields the address in `f`, bit 63 apart. -/
theorem reports_iff {k : Word} (f v : ℕ) (hk : present k = true) :
    Reports (some (f*4096+v%4096)) (frameOf k*4096+v%4096) ↔ Gives k f v := by
  have ho : v%4096 < 4096 := Nat.mod_lt _ (by norm_num)
  simp only [Reports,Gives,hk,Option.isSome_some,iff_true,true_and,Option.some.injEq,forall_eq']
  constructor
  · rintro ⟨hne,hmod⟩
    exact ⟨by omega,hne⟩
  · rintro ⟨hmod,hne⟩
    exact ⟨hne,by omega⟩

theorem reports_of_walk {m : Mem} {root v : ℕ} (hm : Physical m) (hg : NoGigabyte m root v) :
    (Reports (hardwarePhys m root v) (vmmGetPhysFromCr3 m root v) ↔ Legible m root v) ∧
      (Legible m root v →
        (vmmWalk m root v).isSome = (hardwarePhys m root v).isSome) := by
  simp only [hardwarePhys,vmmGetPhysFromCr3]
  rcases walk_cases hm hg with ⟨hl,hw,hok⟩ | ⟨x,hl,hiff⟩
  · rw [hl,hw]
    exact ⟨⟨fun _ => hok,fun _ => by simp [Reports]⟩,fun _ => rfl⟩
  · rw [hl,hiff]
    cases hw : vmmWalk m root v with
    | none => simp [Reports]
    | some k =>
      have hk := vmmWalk_present hw
      simp only [Option.map_some,reports_iff x.2 v hk,Option.some.injEq,exists_eq_left',
        Option.isSome_some,implies_true,and_self]

/-- Each of the three lookups agrees with the hardware exactly where the entries are legible for
it. -/
theorem lookups_agree_iff (s : Vm) (root v : ℕ) (hm : Physical s.mem)
    (hroot : NoGigabyte s.mem root v) (hactive : NoGigabyte s.mem s.cr3 v) :
    (Reports (hardwarePhys s.mem root v) (vmmGetPhysFromCr3 s.mem root v) ↔ Legible s.mem root v) ∧
      (Reports (hardwarePhys s.mem s.cr3 v) (vmmGetPhys s v) ∧
          vmmIsMapped s v = (hardwarePhys s.mem s.cr3 v).isSome ↔ Legible s.mem s.cr3 v) := by
  obtain ⟨hiff,hmapped⟩ := reports_of_walk hm hactive
  refine ⟨(reports_of_walk hm hroot).1,fun h => hiff.mp h.1,fun h => ⟨hiff.mpr h,hmapped h⟩⟩

theorem bootMem_physical {base : ℕ} (hb : base < 512) : Physical (bootMem base) := by
  intro f hf i
  have hne : ∀ k ≤ 6, f ≠ base+k := fun k hk => by omega
  have h0 : f ≠ base := by omega
  simp [bootMem,h0,hne 1,hne 2,hne 3,hne 4,hne 5,hne 6]

/-- The boot tables map the third megabyte by a 2 MB page, whose first frame is empty. -/
theorem large_page_missed :
    hardwarePhys (bootVm 0x12).mem 0x12 0x200000 = some 0x200000 ∧
      vmmGetPhysFromCr3 (bootVm 0x12).mem 0x12 0x200000 = 0 ∧
      vmmGetPhys (bootVm 0x12) 0x200000 = 0 ∧ vmmIsMapped (bootVm 0x12) 0x200000 = false := by
  decide +kernel

theorem lookups_agree_low :
    Reports (hardwarePhys (bootVm 0x12).mem 0x12 0x1234) (vmmGetPhysFromCr3 (bootVm 0x12).mem 0x12 0x1234) := by
  have hg : NoGigabyte (bootVm 0x12).mem 0x12 0x1234 := by
    unfold NoGigabyte
    decide +kernel
  refine (lookups_agree_iff (bootVm 0x12) 0x12 0x1234 (bootMem_physical (by decide)) hg hg).1.mpr ?_
  simp only [Legible,Gives]
  decide +kernel

/-! Lookups after a mapping. -/

/-- The table to which the kernel takes an entry to lead. -/
def dirNext (_ : Bool) (e : Word) : Option ℕ := if present e then some (frameOf e) else none

/-- An entry of a page table, if it is present. -/
def found (e : Word) : Option Word := if present e then some e else none

theorem vmmWalk_eq (m : Mem) (root v : ℕ) : vmmWalk m root v =
    (reach dirNext m true root (pathOf v)).bind fun t => found (m t (ptIdx v)) := by
  simp only [vmmWalk,pathOf,reach,dirNext]
  cases h4 : present (m root (pml4Idx v)) with
  | false => simp
  | true =>
    cases h3 : present (m (frameOf (m root (pml4Idx v))) (pdptIdx v)) with
    | false => simp [h3]
    | true =>
      cases h2 : present (m (frameOf (m (frameOf (m root (pml4Idx v))) (pdptIdx v))) (pdIdx v)) with
      | false => simp [h3,h2]
      | true =>
        simp only [Bool.not_true,Bool.false_eq_true,if_false,if_true,Option.bind_some,h3,h2,found]
        split_ifs <;> simp_all

theorem unmap_eq (s : Vm) (root v : ℕ) : vmmUnmapPageInCr3 s root v =
    (reach dirNext s.mem true root (pathOf v)).elim s fun t => s.store t (ptIdx v) 0 := by
  simp only [vmmUnmapPageInCr3,pathOf,reach,dirNext]
  cases h4 : present (s.mem root (pml4Idx v)) with
  | false => simp
  | true =>
    cases h3 : present (s.mem (frameOf (s.mem root (pml4Idx v))) (pdptIdx v)) with
    | false => simp [h3]
    | true =>
      cases h2 : present (s.mem (frameOf (s.mem (frameOf (s.mem root (pml4Idx v))) (pdptIdx v)))
        (pdIdx v)) <;> simp [h3,h2]

theorem store_eq_put (m : Mem) (t i : ℕ) (w : Word) : Paging.store m t i w = put m t i w := rfl

theorem unmap_lookup (s : Vm) (root v : ℕ) :
    vmmGetPhysFromCr3 (vmmUnmapPageInCr3 s root v).mem root v = 0 := by
  have hzero : ∀ b, dirNext b 0 = none := fun _ => rfl
  have hnone : vmmWalk (vmmUnmapPageInCr3 s root v).mem root v = none := by
    rw [unmap_eq,vmmWalk_eq]
    cases hr : reach dirNext s.mem true root (pathOf v) with
    | none => simp [hr]
    | some t =>
      simp only [Option.elim_some,Vm.store,store_eq_put]
      by_cases hv : (t,ptIdx v) ∈ visits dirNext s.mem true root (pathOf v)
      · rw [reach_put_of_mem hv hzero]
        rfl
      · rw [reach_put_of_not_mem hv,hr,Option.bind_some,put_apply,if_pos ⟨rfl,rfl⟩]
        rfl
  simp [vmmGetPhysFromCr3,hnone]

section
variable {s s' : Vm} {m m' : Mem} {top : Bool} {root t i f pt v phys : ℕ} {path : List ℕ} {flags : Word}

theorem Opens.dirNext {e w : Word} (h : Opens e w) (b : Bool) : dirNext b w = dirNext b e := by
  obtain ⟨hp,-,hf⟩ := h.bits
  simp only [Memory.dirNext,hp,hf]

theorem reach_opens (h : ∀ f i, Opens (m f i) (m' f i)) :
    reach dirNext m' top t path = reach dirNext m top t path ∧
      visits dirNext m' top t path = visits dirNext m top t path := by
  induction path generalizing top t with
  | nil => exact ⟨rfl,rfl⟩
  | cons i path ih =>
    simp only [reach,visits,(h t i).dirNext]
    cases dirNext top (m t i) with
    | none => exact ⟨rfl,rfl⟩
    | some f =>
      obtain ⟨h1,h2⟩ := @ih false f
      simp [h1,h2]

theorem getPhys_opens (h : ∀ f i, Opens (m f i) (m' f i)) :
    vmmGetPhysFromCr3 m' root v = vmmGetPhysFromCr3 m root v := by
  simp only [vmmGetPhysFromCr3,vmmWalk_eq,(reach_opens h).1]
  cases reach dirNext m true root (pathOf v) with
  | none => rfl
  | some t =>
    obtain ⟨hp,-,hf⟩ := (h t (ptIdx v)).bits
    simp only [Option.bind_some,found,hp]
    cases present (m t (ptIdx v)) with
    | false => rfl
    | true => simp [hf]

/-- The tables that a walk goes through are in use. -/
def Held (s : Vm) (top : Bool) (t : ℕ) (path : List ℕ) : Prop :=
  ∀ r f, r <+: path → reach dirNext s.mem top t r = some f → s.pmm.bitmap f = true

/-- What the way down to a page table has done: it leads there now, words that were present were at
most opened, and the page table is either the old one or a new one that the walk does not go
through. -/
structure Descended (s s' : Vm) (top : Bool) (t : ℕ) (path : List ℕ) (pt : ℕ) : Prop where
  here : reach dirNext s'.mem top t path = some pt
  used : ∀ f, s.pmm.bitmap f = true → s'.pmm.bitmap f = true
  opened : ∀ f i, s.pmm.bitmap f = true → present (s.mem f i) = true → Opens (s.mem f i) (s'.mem f i)
  table : reach dirNext s.mem top t path = some pt ∧ (∀ f i, Opens (s.mem f i) (s'.mem f i)) ∨
    reach dirNext s.mem top t path = none ∧ s.pmm.bitmap pt = false ∧
      ∀ x ∈ visits dirNext s'.mem top t path, x.1 ≠ pt

/-- A new and empty table `f` has been linked by the word `i` of the table `t`. -/
structure Added (s s₁ : Vm) (t i f : ℕ) : Prop where
  free : s.pmm.bitmap f = false
  taken : s₁.pmm.bitmap f = true
  used : ∀ g, s.pmm.bitmap g = true → s₁.pmm.bitmap g = true
  blank : ∀ j, s₁.mem f j = 0
  present : present (s₁.mem t i) = true
  link : ∀ b, dirNext b (s₁.mem t i) = some f
  kept : ∀ g j, s.pmm.bitmap g = true → Paging.present (s.mem g j) = true → s₁.mem g j = s.mem g j

theorem added_of_alloc (ht : s.pmm.bitmap t = true) (hp : present (s.mem t i) = false) {pmm : Pmm}
    (ha : pmmAllocPageForTables s.pmm = some (f,pmm)) (flags : Word) :
    Added s ({ s with pmm := pmm, mem := fill s.mem f fun _ => 0 }.store t i
      (entry f (dirFlags flags))) t i f := by
  obtain ⟨htk,h512,-,hlow⟩ := allocForTables_spec ha
  have hne : ∀ g, s.pmm.bitmap g = true → g ≠ f := fun g hg => Stable.ne (Or.inl hg) htk.free h512
  have hf52 : f < 2^52 := by
    have hz := s.pmm.zones.low_lt
    simp only [maxPages] at hz
    omega
  refine ⟨htk.free,by simp [Vm.store,htk.bitmap],fun g hg => ?_,fun j => ?_,?_,fun b => ?_,
    fun g j hg hpg => ?_⟩
  · simp [Vm.store,htk.bitmap,Function.update_of_ne (hne g hg),hg]
  · simp [Vm.store,store_of_ne (hne t ht).symm]
  · simp [Vm.store,present_dirFlags]
  · simp [Vm.store,dirNext,present_dirFlags,frameOf_dirFlags hf52]
  · simp only [Vm.store,store_apply,fill_of_ne (hne g hg)]
    rw [if_neg]
    rintro ⟨rfl,rfl⟩
    rw [hp] at hpg
    cases hpg

theorem Added.stop {s₁ : Vm} {r : List ℕ} (h : Added s s₁ t i f) (hr : r ≠ []) :
    reach dirNext s₁.mem false f r = none := by
  obtain ⟨j,r,rfl⟩ := List.exists_cons_of_ne_nil hr
  simp [reach,dirNext,h.blank,Paging.present]

theorem descend_spec (hused : Held s top t path)
    (hd : descend (dirFlags flags) path s t = .ok (pt,s')) : Descended s s' top t path pt := by
  induction path generalizing s t top with
  | nil =>
    obtain ⟨rfl,rfl⟩ := Prod.mk.inj (Except.ok.inj hd)
    exact ⟨rfl,fun _ h => h,fun _ _ _ _ => Opens.refl _,Or.inl ⟨rfl,fun _ _ => Opens.refl _⟩⟩
  | cons i path ih =>
    have ht : s.pmm.bitmap t = true := hused [] t (List.nil_prefix) rfl
    simp only [descend] at hd
    cases hn : nextTable s t i (dirFlags flags) with
    | none =>
      rw [hn] at hd
      cases hd
    | some x =>
    obtain ⟨f,s₁⟩ := x
    rw [hn] at hd
    rcases nextTable_cases hn with ⟨hp,rfl,rfl⟩ | ⟨hp,pmm,ha,rfl⟩
    · have hnext : ∀ b, dirNext b (s.mem t i) = some (frameOf (s.mem t i)) := by simp [dirNext,hp]
      have hopen : ∀ g j, Opens (s.mem g j) ((s.store t i (s.mem t i ||| rwFlags)).mem g j) := by
        intro g j
        simp only [Vm.store,store_apply]
        split
        · rename_i he
          obtain ⟨rfl,rfl⟩ := he
          exact (Opens.refl _).open
        · exact Opens.refl _
      have hrest : Held (s.store t i (s.mem t i ||| rwFlags)) false (frameOf (s.mem t i)) path := by
        intro r g hr hg
        rw [(reach_opens hopen).1] at hg
        exact hused (i::r) g (List.cons_prefix_cons.mpr ⟨rfl,hr⟩) (by simp [reach,hnext,hg])
      obtain ⟨hhere,hmono,hold,htable⟩ := ih hrest hd
      have hword := (hopen t i).trans (hold t i ht (by rw [(hopen t i).bits.1,hp]))
      refine ⟨by simp [reach,hword.dirNext,hnext,hhere],hmono,fun g j hg hpg => ?_,?_⟩
      · exact (hopen g j).trans (hold g j hg (by rw [(hopen g j).bits.1,hpg]))
      · rw [(reach_opens hopen).1] at htable
        simp only [reach,visits,hnext,hword.dirNext,Option.bind_some,Option.elim_some]
        refine htable.imp (fun h => ⟨h.1,fun g j => (hopen g j).trans (h.2 g j)⟩) fun h => ?_
        refine ⟨h.1,h.2.1,fun x hx => ?_⟩
        rcases List.mem_cons.mp hx with rfl | hx
        · rintro rfl
          exact Bool.noConfusion (ht.symm.trans h.2.1)
        · exact h.2.2 x hx
    · have hadd := added_of_alloc ht hp ha flags
      generalize ({ s with pmm := pmm, mem := fill s.mem f fun _ => 0 }.store t i
        (entry f (dirFlags flags)) : Vm) = s₁ at hd hadd
      have hrest : Held s₁ false f path := by
        intro r g hr hg
        by_cases hnil : r = []
        · subst hnil
          obtain rfl := Option.some.inj hg
          exact hadd.taken
        · rw [hadd.stop hnil] at hg
          cases hg
      obtain ⟨hhere,hmono,hold,htable⟩ := ih hrest hd
      have hword := hold t i (hadd.used t ht) hadd.present
      have hnext : ∀ b, dirNext b (s'.mem t i) = some f := fun b =>
        (hword.dirNext b).trans (hadd.link b)
      have hnone : reach dirNext s.mem top t (i::path) = none := by simp [reach,dirNext,hp]
      refine ⟨by simp [reach,hnext,hhere],fun g hg => hmono g (hadd.used g hg),fun g j hg hpg => ?_,
        Or.inr ⟨hnone,?_⟩⟩
      · have hk := hadd.kept g j hg hpg
        rw [← hk]
        exact hold g j (hadd.used g hg) (by rw [hk,hpg])
      · -- the page table is the new table itself, or newer
        have hpt : s.pmm.bitmap pt = false ∧ ∀ x ∈ visits dirNext s'.mem false f path, x.1 ≠ pt := by
          rcases htable with ⟨hr,-⟩ | ⟨-,hfree,hv⟩
          · have hnil : path = [] := by
              by_contra hne
              rw [hadd.stop hne] at hr
              cases hr
            subst hnil
            obtain rfl := Option.some.inj hr
            exact ⟨hadd.free,by simp [visits]⟩
          · refine ⟨?_,hv⟩
            by_contra hb
            rw [hadd.used pt (by simpa using hb)] at hfree
            cases hfree
        refine ⟨hpt.1,fun x hx => ?_⟩
        simp only [visits,hnext,Option.elim_some] at hx
        rcases List.mem_cons.mp hx with rfl | hx
        · rintro rfl
          exact Bool.noConfusion (ht.symm.trans hpt.1)
        · exact hpt.2 x hx

/-- The no-execute flag is the only one that ends up among the address bits. -/
theorem frameOf_pteOf_iff (hlt : phys < 2^52) :
    frameOf (pteOf phys flags) = phys/4096 ↔ flags.getLsbD 63 = false := by
  have hnx : flags &&& ptNx = if flags.getLsbD 63 then ptNx else 0#64 := BitVec.and_twoPow flags 63
  have hlow : (ptPresent ||| flags &&& ptWrite ||| flags &&& ptUser |||
      flags &&& (pagePcd ||| pagePwt)).toNat < 4096 := by
    have hbits : ∀ w : Word, w.toNat < 2^12 → (flags &&& w).toNat < 2^12 := fun w hw => by
      rw [BitVec.toNat_and]
      exact Nat.lt_of_le_of_lt Nat.and_le_right hw
    simp only [BitVec.toNat_or]
    exact Nat.or_lt_two_pow (Nat.or_lt_two_pow (Nat.or_lt_two_pow (by decide) (hbits _ (by decide)))
      (hbits _ (by decide))) (hbits _ (by decide))
  have hframe : frameOf (pteOf phys flags) =
      frameOf (BitVec.ofNat 64 (phys/4096*4096) ||| flags &&& ptNx) := by
    rw [pteOf,entry,BitVec.or_comm _ (flags &&& ptNx),← BitVec.or_assoc,frameOf_or hlow]
  have hplain : (BitVec.ofNat 64 (phys/4096*4096)).toNat = phys/4096*4096 := by
    rw [BitVec.toNat_ofNat,Nat.mod_eq_of_lt (by omega)]
  rw [hframe,hnx]
  cases flags.getLsbD 63 with
  | false =>
    simp only [Bool.false_eq_true,if_false,BitVec.or_zero,iff_true,frameOf,hplain]
    omega
  | true =>
    have hbig : 2^63 ≤ (BitVec.ofNat 64 (phys/4096*4096) ||| ptNx).toNat := by
      rw [BitVec.toNat_or]
      exact Nat.right_le_or
    simp only [if_true,frameOf,Bool.true_eq_false,iff_false]
    omega

/-- The word of the page table for `v` is itself one of those that lead to that table. -/
def Overwrites (m : Mem) (root v : ℕ) : Prop :=
  ∃ t, reach dirNext m true root (pathOf v) = some t ∧
    (t,ptIdx v) ∈ visits dirNext m true root (pathOf v)

/-- What a lookup needs in order to find a new mapping.  Where the entry replaces a link of its own
walk, the walk through it must happen to end at the same address. -/
def Readable (m : Mem) (root v phys : ℕ) (flags : Word) : Prop :=
  ¬Overwrites m root v ∧ flags.getLsbD 63 = false ∨
    ∃ t, reach dirNext m true root (pathOf v) = some t ∧
      (t,ptIdx v) ∈ visits dirNext m true root (pathOf v) ∧
      vmmGetPhysFromCr3 (Paging.store m t (ptIdx v) (pteOf phys flags)) root v = phys ||| v%4096

theorem lookup_stored (hr : reach dirNext m true root (pathOf v) = some pt)
    (hv : (pt,ptIdx v) ∉ visits dirNext m true root (pathOf v)) :
    vmmGetPhysFromCr3 (Paging.store m pt (ptIdx v) (pteOf phys flags)) root v =
      frameOf (pteOf phys flags)*4096+v%4096 := by
  simp only [vmmGetPhysFromCr3,vmmWalk_eq,store_eq_put]
  rw [reach_put_of_not_mem hv,hr,Option.bind_some,put_apply,if_pos ⟨rfl,rfl⟩,found,
    if_pos (present_pteOf phys flags)]

theorem page_or_offset (hphys : 4096 ∣ phys) (v : ℕ) : phys ||| v%4096 = phys+v%4096 := by
  obtain ⟨k,rfl⟩ := hphys
  exact (Nat.two_pow_add_eq_or_of_lt (i:=12) (Nat.mod_lt _ (by norm_num)) k).symm

/-- When the tables that it goes through are in use and it gets its frames, a mapping is found again
exactly if it is readable, and it is gone after unmapping. -/
theorem map_lookup_iff (s : Vm) {root v phys : ℕ} (flags : Word) (hheld : Held s true root (pathOf v))
    (hphys : 4096 ∣ phys) (hlt : phys < 2^52)
    (hok : (vmmMapPageInCr3 s root v phys flags).1 = true) :
    vmmGetPhysFromCr3 (vmmMapPageInCr3 s root v phys flags).2.mem root v = phys ||| v%4096 ∧
        vmmGetPhysFromCr3 (vmmUnmapPageInCr3 (vmmMapPageInCr3 s root v phys flags).2 root v).mem root v = 0 ↔
      Readable s.mem root v phys flags := by
  rw [unmap_lookup]
  rw [map_eq_descend] at hok ⊢
  cases hd : descend (dirFlags flags) (pathOf v) s root with
  | error s₁ => simp [hd] at hok
  | ok x =>
    obtain ⟨pt,s₁⟩ := x
    simp only [and_true,Vm.store]
    obtain ⟨hhere,-,-,htable⟩ := descend_spec hheld hd
    have hplain : (pt,ptIdx v) ∉ visits dirNext s₁.mem true root (pathOf v) →
        (vmmGetPhysFromCr3 (Paging.store s₁.mem pt (ptIdx v) (pteOf phys flags)) root v = phys ||| v%4096 ↔
          flags.getLsbD 63 = false) := by
      intro hv
      rw [lookup_stored hhere hv,page_or_offset hphys,← frameOf_pteOf_iff hlt]
      omega
    rcases htable with ⟨hr,hopen⟩ | ⟨hr,-,hnew⟩
    · have hvis : visits dirNext s₁.mem true root (pathOf v) = visits dirNext s.mem true root (pathOf v) :=
        (reach_opens hopen).2
      rw [hvis] at hplain
      by_cases hv : (pt,ptIdx v) ∈ visits dirNext s.mem true root (pathOf v)
      · have hstored : ∀ f i, Opens (Paging.store s.mem pt (ptIdx v) (pteOf phys flags) f i)
            (Paging.store s₁.mem pt (ptIdx v) (pteOf phys flags) f i) := by
          intro f i
          simp only [store_apply]
          split
          · exact Opens.refl _
          · exact hopen f i
        have hover : Overwrites s.mem root v := ⟨pt,hr,hv⟩
        rw [getPhys_opens hstored]
        simp [Readable,hover,hr,hv]
      · have hno : ¬Overwrites s.mem root v := by
          rintro ⟨t,ht,hmem⟩
          obtain rfl := Option.some.inj (hr.symm.trans ht)
          exact hv hmem
        rw [hplain hv]
        simp [Readable,hno,hr,hv]
    · have hno : ¬Overwrites s.mem root v := by
        rintro ⟨t,ht,-⟩
        rw [hr] at ht
        cases ht
      rw [hplain fun hv => hnew _ hv rfl]
      simp [Readable,hno,hr]

/-- A page that may not be executed is found at an address with bit 63. -/
theorem nx_page_misread :
    (vmmMapPageInCr3 (bootVm 0x12) 0x12 0x8000000000 0x1000000 (ptNx ||| ptUser)).1 = true ∧
      vmmGetPhysFromCr3 (vmmMapPageInCr3 (bootVm 0x12) 0x12 0x8000000000 0x1000000
        (ptNx ||| ptUser)).2.mem 0x12 0x8000000000 = 0x8000000001000000 := by
  decide +kernel

theorem map_lookup_user :
    vmmGetPhysFromCr3 (vmmMapPageInCr3 (bootVm 0x12) 0x12 0x8000000123 0x1000000 ptUser).2.mem 0x12
      0x8000000123 = 0x1000000 ||| 0x8000000123%4096 := by
  have hnone : dirNext true ((bootVm 0x12).mem 0x12 1) = none := by decide +kernel
  have hheld : Held (bootVm 0x12) true 0x12 (pathOf 0x8000000123) := by
    intro r f hr hf
    cases r with
    | nil =>
      obtain rfl := Option.some.inj hf
      decide
    | cons i r =>
      obtain ⟨rfl,-⟩ := List.cons_prefix_cons.mp hr
      simp [reach,pml4Idx,hnone] at hf
  have hok : (vmmMapPageInCr3 (bootVm 0x12) 0x12 0x8000000123 0x1000000 ptUser).1 = true := by
    decide +kernel
  refine ((map_lookup_iff (bootVm 0x12) ptUser hheld (by decide) (by decide) hok).mpr (Or.inl ⟨?_,by decide⟩)).1
  rintro ⟨t,ht,-⟩
  simp [pathOf,reach,pml4Idx,hnone] at ht

end

end Memory
end DonsOs
