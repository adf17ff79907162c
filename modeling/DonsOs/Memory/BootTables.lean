import DonsOs.Memory.Clone

/-! The boot tables as the kernel finds and changes them.
Below the roots, `stage2.asm` leaves seven tables in consecutive frames, which all address
spaces share.  Mapping calls open entries of them and change them in no other way.  The
upper half of every root has the same entries, apart from the recursive slot. -/
namespace DonsOs
namespace Memory

open Paging

/-- The large pages of the low half: those from 2 MB to 1 GB, without the user bit. -/
def bootLarge (path : List ℕ) (w : Word) : Prop := (∃ k, 0 < k ∧ path = [0,0,k]) ∧ user w = false

/-- The boot tables, some entries opened; what the upper half of the root has is left to
`HighHalf`. -/
structure BootWords (base : ℕ) (m : Mem) : Prop where
  opened : ∀ t i, base ≤ t → t ≤ base+6 → ¬(t = base ∧ 256 ≤ i) → Opens (bootMem base t i) (m t i)
  large : ∀ i, 0 < i → user (m (base+4) i) = false

/-- The entries of the upper half: those of the boot tables, and those added before the first
address space was made. -/
structure Top (base : ℕ) (top : ℕ → Word) : Prop where
  hhdm : present (top 256) = true ∧ frameOf (top 256) = base+2
  kernel : present (top 511) = true ∧ frameOf (top 511) = base+3
  absent : ∀ i, present (top i) = false → top i = 0

/-- The upper half of the root `r`: the shared entries and the recursive slot. -/
structure HighHalf (top : ℕ → Word) (m : Mem) (r : ℕ) : Prop where
  shared : ∀ i, 256 ≤ i → i < 512 → i ≠ 510 → Opens (top i) (m r i)
  self : m r 510 = entry r (ptPresent ||| ptWrite)

variable {base : ℕ} {top : ℕ → Word} {s s' : Vm} {ty ty' : Typing} {f r t i : ℕ} {path : List ℕ}
variable {large : List ℕ → Word → Prop} {m m' : Mem} {src new : ℕ}

theorem BootWords.congr (h : BootWords base m) (hm : ∀ t, base ≤ t → t ≤ base+6 → m' t = m t) :
    BootWords base m' := by
  refine ⟨fun t i h1 h2 => ?_,fun i => ?_⟩
  · rw [hm t h1 h2]
    exact h.opened t i h1 h2
  · rw [hm (base+4) (by omega) (by omega)]
    exact h.large i

/-- The boot tables lie outside the trees. -/
theorem BootWords.extends (h : BootWords base s.mem) (hf : Forest large s ty)
    (hx : Extends s s' ty ty' r) (hb : base+6 < 512) : BootWords base s'.mem := by
  refine h.congr fun t h1 h2 => hx.keep t (Or.inr (by omega)) fun path ht => ?_
  have := (hf.typed t _ ht).1
  omega

/-! The words of `stage2.asm`. -/

theorem entry_link {f : ℕ} (hf : f < 2^52) : present (entry f 3#64) = true ∧
    huge (entry f 3#64) = false ∧ frameOf (entry f 3#64) = f := by
  rw [present,huge,getLsbD_entry (by decide),getLsbD_entry (by decide)]
  exact ⟨rfl,rfl,frameOf_entry hf (by decide)⟩

theorem entry_large {f : ℕ} (hf : f < 2^52) : present (entry f 0x83#64) = true ∧
    huge (entry f 0x83#64) = true ∧ frameOf (entry f 0x83#64) = f := by
  rw [present,huge,getLsbD_entry (by decide),getLsbD_entry (by decide)]
  exact ⟨rfl,rfl,frameOf_entry hf (by decide)⟩

theorem Opens.of_link {w : Word} (h : Opens (entry f 3#64) w) (hf : f < 2^52) :
    present w = true ∧ huge w = false ∧ frameOf w = f := by
  obtain ⟨hp,hh,hfr⟩ := h.bits
  obtain ⟨hp',hh',hfr'⟩ := entry_link hf
  exact ⟨hp.trans hp',hh.trans hh',hfr.trans hfr'⟩

section
variable (base)

theorem bootMem_root (i : ℕ) : bootMem base base i = bootPml4 base i := by simp [bootMem]
theorem bootMem_identity (i : ℕ) : bootMem base (base+1) i = bootPdptIdentity base i := by
  simp [bootMem]
theorem bootMem_hhdm (i : ℕ) : bootMem base (base+2) i = bootPdptHhdm base i := by simp [bootMem]
theorem bootMem_higher (i : ℕ) : bootMem base (base+3) i = bootPdptHigher base i := by simp [bootMem]
theorem bootMem_pd (i : ℕ) : bootMem base (base+4) i = bootPd base i := by simp [bootMem]
theorem bootMem_pdHhdm (i : ℕ) : bootMem base (base+5) i = bootPd base i := by simp [bootMem]
theorem bootMem_pt (i : ℕ) : bootMem base (base+6) i = bootPtLow i := by simp [bootMem]

end

theorem Opens.present_of {b w : Word} (h : Opens b w) (hp : present w = true) : present b = true :=
  h.bits.1.symm.trans hp

/-- The boot tables have one table per level below the first entry of the root, and large pages
beside the last one. -/
theorem BootWords.low_link (h : BootWords base m) (hb : base+6 < 512) :
    (∀ i < 256, present (m base i) = true → i = 0 ∧ huge (m base i) = false ∧
      frameOf (m base i) = base+1) ∧
    (∀ i, present (m (base+1) i) = true → i = 0 ∧ huge (m (base+1) i) = false ∧
      frameOf (m (base+1) i) = base+4) ∧
    (∀ i, present (m (base+4) i) = true →
      i = 0 ∧ huge (m (base+4) i) = false ∧ frameOf (m (base+4) i) = base+6 ∨
      0 < i ∧ huge (m (base+4) i) = true) := by
  refine ⟨fun i hi hp => ?_,fun i hp => ?_,fun i hp => ?_⟩
  · have ho := h.opened base i le_rfl (by omega) (by omega)
    rw [bootMem_root,bootPml4] at ho
    split_ifs at ho with h0
    · exact ⟨h0,(ho.of_link (by omega)).2⟩
    all_goals first | omega | cases ho.present_of hp
  · have ho := h.opened (base+1) i (by omega) (by omega) (by omega)
    rw [bootMem_identity,bootPdptIdentity] at ho
    split_ifs at ho with h0
    · exact ⟨h0,(ho.of_link (by omega)).2⟩
    · cases ho.present_of hp
  · have ho := h.opened (base+4) i (by omega) (by omega) (by omega)
    rw [bootMem_pd,bootPd] at ho
    split_ifs at ho with h0 h1
    · exact Or.inl ⟨h0,(ho.of_link (by omega)).2⟩
    · exact Or.inr ⟨by omega,ho.bits.2.1.trans (entry_large (by omega)).2.1⟩
    · cases ho.present_of hp

theorem BootWords.walk (h : BootWords base m) (hb : base+6 < 512) {q : List ℕ} {f : ℕ}
    (hq : q.length ≤ 3) (hlow : Low q) (hw : walkTo m base q = some f) :
    q = [] ∧ f = base ∨ q = [0] ∧ f = base+1 ∨ q = [0,0] ∧ f = base+4 ∨ q = [0,0,0] ∧ f = base+6 := by
  obtain ⟨h4,h3,h2⟩ := h.low_link hb
  cases q with
  | nil => exact Or.inl ⟨rfl,(Option.some.inj hw).symm⟩
  | cons i q =>
    obtain ⟨hl,hw⟩ := walkTo_cons.mp hw
    obtain ⟨rfl,-,he⟩ := h4 i (hlow i (by simp)) (link_present hl)
    rw [he] at hw
    cases q with
    | nil => exact Or.inr (Or.inl ⟨rfl,(Option.some.inj hw).symm⟩)
    | cons j q =>
      obtain ⟨hl,hw⟩ := walkTo_cons.mp hw
      obtain ⟨rfl,-,he⟩ := h3 j (link_present hl)
      rw [he] at hw
      cases q with
      | nil => exact Or.inr (Or.inr (Or.inl ⟨rfl,(Option.some.inj hw).symm⟩))
      | cons k q =>
        obtain rfl : q = [] := by
          simp at hq
          exact List.eq_nil_of_length_eq_zero (by omega)
        obtain ⟨hl,hw⟩ := walkTo_cons.mp hw
        rcases h2 k (link_present hl) with ⟨rfl,-,he⟩ | ⟨-,hh⟩
        · rw [he] at hw
          exact Or.inr (Or.inr (Or.inr ⟨rfl,(Option.some.inj hw).symm⟩))
        · simp [link,hh] at hl

theorem BootWords.source (h : BootWords base s.mem) (hb : base+6 < 512) : Source bootLarge s base := by
  refine ⟨fun q f hq hlow _ hw => Or.inr ?_,fun q f i hq hlow _ hw hp hh => ?_⟩
  · rcases h.walk hb hq hlow hw with h | h | h | h <;> omega
  · obtain ⟨h4,h3,h2⟩ := h.low_link hb
    rcases h.walk hb (by omega) (low_append hlow) hw with ⟨rfl,rfl⟩ | ⟨rfl,rfl⟩ | ⟨rfl,rfl⟩ | ⟨rfl,rfl⟩
    · rw [(h4 i (hlow i (by simp)) hp).2.1] at hh
      cases hh
    · rw [(h3 i hp).2.1] at hh
      cases hh
    · rcases h2 i hp with ⟨-,he,-⟩ | ⟨hi,-⟩
      · rw [he] at hh
        cases hh
      · exact ⟨rfl,⟨i,hi,rfl⟩,h.large i hi⟩
    · simp at hq

theorem highWord_opens {page : ℕ → Word} (ht : Top base top) (h : Opens (top i) (page i))
    (hrec : i ≠ 510) : Opens (top i) (highWord page i) := by
  rw [highWord]
  split
  · rename_i hskip
    have hp := h.bits.1.symm.trans (hskip.resolve_left hrec)
    exact Or.inl (ht.absent i hp).symm
  · exact h

theorem clone_highHalf (ht : Top base top) (hh : HighHalf top s.mem src)
    (hself : s'.mem new 510 = entry new (ptPresent ||| ptWrite))
    (hshared : ∀ i, 256 ≤ i → i < 512 → i ≠ 510 → s'.mem new i = highWord (s.mem src) i) :
    HighHalf top s'.mem new := by
  refine ⟨fun i h256 h512 hi => ?_,hself⟩
  rw [hshared i h256 h512 hi]
  exact highWord_opens ht (hh.shared i h256 h512 hi) hi

/-! The HHDM. -/

/-- What `ensure_hhdm_mapped` does for the frame `f`: an entry for `f` is in the first frame of its
2 MB block afterwards, in a word that was not present before, and the way to the HHDM is opened. -/
structure Aliased (base : ℕ) (s s' : Vm) (f : ℕ) : Prop where
  pmm : s'.pmm = s.pmm
  cr3 : s'.cr3 = s.cr3
  words : ∀ g i, s'.mem g i = s.mem g i ∨
    (g = 512*(f/512) ∧ present (s.mem g i) = false ∧ s'.mem g i = pteOf (f*4096) hhdmFlags) ∨
    Opens (s.mem g i) (s'.mem g i) ∧ (g = s.cr3 ∧ i = 256 ∨ g = base+2 ∧ i = 0 ∨ g = base+5)
  stored : present (s'.mem (512*(f/512)) (f%512)) = true

theorem hhdmAddr_idx (hf : f < 2^18) {o : ℕ} (ho : o < 4096) : pml4Idx (hhdmAddr (f*4096+o)) = 256 ∧
    pdptIdx (hhdmAddr (f*4096+o)) = 0 ∧ pdIdx (hhdmAddr (f*4096+o)) = f/512 ∧
    ptIdx (hhdmAddr (f*4096+o)) = f%512 := by
  simp only [hhdmAddr,hhdmStart,pml4Idx,pdptIdx,pdIdx,ptIdx]
  omega

theorem hhdm_way (h : BootWords base s.mem) (ht : Top base top) (hh : HighHalf top s.mem s.cr3)
    (hb : base+6 < 512) :
    (present (s.mem s.cr3 256) = true ∧ frameOf (s.mem s.cr3 256) = base+2) ∧
    (present (s.mem (base+2) 0) = true ∧ frameOf (s.mem (base+2) 0) = base+5) := by
  have h4 := (hh.shared 256 le_rfl (by omega) (by omega)).bits
  have h3 := h.opened (base+2) 0 (by omega) (by omega) (by omega)
  rw [bootMem_hhdm,bootPdptHhdm,if_pos rfl] at h3
  obtain ⟨hp,-,hf⟩ := h3.of_link (by omega)
  exact ⟨⟨h4.1.trans ht.hhdm.1,h4.2.2.trans ht.hhdm.2⟩,hp,hf⟩

theorem hhdm_large (h : BootWords base s.mem) (h512 : 512 ≤ f) (hf : f < 2^18) :
    present (s.mem (base+5) (f/512)) = true ∧ frameOf (s.mem (base+5) (f/512)) = 512*(f/512) := by
  have h2 := h.opened (base+5) (f/512) (by omega) (by omega) (by omega)
  have hk : f/512 ≠ 0 := by omega
  rw [bootMem_pdHhdm,bootPd,if_neg hk,if_pos (by omega)] at h2
  obtain ⟨hp,-,hfr⟩ := entry_large (f:=512*(f/512)) (by omega)
  exact ⟨h2.bits.1.trans hp,h2.bits.2.2.trans hfr⟩

theorem ensureHhdm_aliased (h : BootWords base s.mem) (ht : Top base top)
    (hh : HighHalf top s.mem s.cr3) (hb : base+6 < 512) (hroot : s.cr3 = base ∨ 512 ≤ s.cr3)
    (h512 : 512 ≤ f) (hf : f < 2^18) : Aliased base s (ensureHhdmMapped s (f*4096)) f := by
  obtain ⟨⟨hp4,hf4⟩,hp3,hf3⟩ := hhdm_way h ht hh hb
  obtain ⟨hp2,hf2⟩ := hhdm_large h h512 hf
  obtain ⟨hi4,hi3,hi2,hi1⟩ := hhdmAddr_idx hf (Nat.zero_lt_succ 4095)
  rw [Nat.add_zero] at hi4 hi3 hi2 hi1
  have hmapped : vmmIsMapped s (hhdmAddr (f*4096)) = present (s.mem (512*(f/512)) (f%512)) := by
    simp only [vmmIsMapped,vmmWalk,hi4,hi3,hi2,hi1,hp4,hf4,hp3,hf3,hp2,hf2,Bool.not_true,
      Bool.false_eq_true,if_false]
    cases present (s.mem (512*(f/512)) (f%512)) <;> rfl
  rw [ensureHhdmMapped,hmapped]
  split
  · rename_i hp
    exact ⟨rfl,rfl,fun _ _ => Or.inl rfl,hp⟩
  rename_i hp
  rw [Bool.not_eq_true] at hp
  have hs₁ : (s.store s.cr3 256 (s.mem s.cr3 256 ||| rwFlags)).mem (base+2) = s.mem (base+2) :=
    store_of_ne (by omega)
  rw [vmmMapPage,map_eq,hi4,nextTable_present hp4,hf4]
  simp only [mapBelowPdpt,hi3]
  rw [nextTable_present (by rw [hs₁]; exact hp3),hs₁,hf3]
  have hs₂ : ((s.store s.cr3 256 (s.mem s.cr3 256 ||| rwFlags)).store (base+2) 0
      (s.mem (base+2) 0 ||| rwFlags)).mem (base+5) = s.mem (base+5) :=
    (store_of_ne (by omega)).trans (store_of_ne (by omega))
  simp only [mapBelowPd,hi2,hi1]
  rw [nextTable_present (by rw [hs₂]; exact hp2),hs₂,hf2]
  refine ⟨rfl,rfl,fun g i => ?_,by simp [Vm.store,present_pteOf]⟩
  simp only [Vm.store,store_apply]
  split_ifs with h1 h2 h3 h4
  · obtain ⟨rfl,rfl⟩ := h1
    exact Or.inr (Or.inl ⟨rfl,hp,rfl⟩)
  · obtain ⟨rfl,rfl⟩ := h2
    exact Or.inr (Or.inr ⟨(Opens.refl _).open,Or.inr (Or.inr rfl)⟩)
  · obtain ⟨rfl,rfl⟩ := h3
    exact Or.inr (Or.inr ⟨(Opens.refl _).open,Or.inr (Or.inl ⟨rfl,rfl⟩)⟩)
  · obtain ⟨rfl,rfl⟩ := h4
    exact Or.inr (Or.inr ⟨(Opens.refl _).open,Or.inl ⟨rfl,rfl⟩⟩)
  · exact Or.inl rfl

theorem BootWords.pt (h : BootWords base m) (hi : i < 512) :
    present (m (base+6) i) = true ∧ frameOf (m (base+6) i) = i := by
  have h1 := h.opened (base+6) i (by omega) (by omega) (by omega)
  rw [bootMem_pt,bootPtLow,if_pos hi] at h1
  obtain ⟨hp,-,hf⟩ := h1.of_link (by omega)
  exact ⟨hp,hf⟩

/-- The alias of the first 2 MB is there page by page: `ensure_hhdm_mapped` has nothing to do. -/
theorem ensureHhdm_below (h : BootWords base s.mem) (ht : Top base top)
    (hh : HighHalf top s.mem s.cr3) (hb : base+6 < 512) {phys : ℕ} (hp : phys < 0x200000) :
    ensureHhdmMapped s phys = s := by
  have hlt : phys/4096 < 512 := by omega
  obtain ⟨hi4,hi3,hi2,hi1⟩ := hhdmAddr_idx (f:=phys/4096) (by omega) (Nat.mod_lt phys (Nat.zero_lt_succ 4095))
  rw [show phys/4096*4096+phys%4096 = phys by omega] at hi4 hi3 hi2 hi1
  rw [Nat.div_eq_of_lt hlt] at hi2
  rw [Nat.mod_eq_of_lt hlt] at hi1
  obtain ⟨⟨hq4,hg4⟩,hq3,hg3⟩ := hhdm_way h ht hh hb
  have h2 := h.opened (base+5) 0 (by omega) (by omega) (by omega)
  rw [bootMem_pdHhdm,bootPd,if_pos rfl] at h2
  obtain ⟨hq2,-,hg2⟩ := h2.of_link (by omega)
  obtain ⟨hp1,-⟩ := h.pt hlt
  rw [ensureHhdmMapped,if_pos]
  simp only [vmmIsMapped,vmmWalk,hi4,hi3,hi2,hi1,hq4,hg4,hq3,hg3,hq2,hg2,hp1,Bool.not_true,
    Bool.false_eq_true,if_false,Option.isSome_some]

theorem kernel_way (h : BootWords base s.mem) (ht : Top base top) (hh : HighHalf top s.mem s.cr3)
    (hb : base+6 < 512) :
    (present (s.mem s.cr3 511) = true ∧ frameOf (s.mem s.cr3 511) = base+3) ∧
    (present (s.mem (base+3) 510) = true ∧ frameOf (s.mem (base+3) 510) = base+4) ∧
    ∀ k < 512, present (s.mem (base+4) k) = true ∧
      frameOf (s.mem (base+4) k) = if k = 0 then base+6 else 512*k := by
  have h4 := (hh.shared 511 (by omega) (by omega) (by omega)).bits
  have h3 := h.opened (base+3) 510 (by omega) (by omega) (by omega)
  rw [bootMem_higher,bootPdptHigher,if_neg (by omega),if_pos rfl] at h3
  obtain ⟨hp3,-,hf3⟩ := h3.of_link (by omega)
  refine ⟨⟨h4.1.trans ht.kernel.1,h4.2.2.trans ht.kernel.2⟩,⟨hp3,hf3⟩,fun k hk => ?_⟩
  have h2 := h.opened (base+4) k (by omega) (by omega) (by omega)
  rw [bootMem_pd,bootPd] at h2
  split
  · rename_i h0
    rw [if_pos h0] at h2
    exact ⟨(h2.of_link (by omega)).1,(h2.of_link (by omega)).2.2⟩
  · rename_i h0
    rw [if_neg h0,if_pos hk] at h2
    obtain ⟨hp,-,hf⟩ := entry_large (f:=512*k) (by omega)
    exact ⟨h2.bits.1.trans hp,h2.bits.2.2.trans hf⟩

end Memory
end DonsOs
