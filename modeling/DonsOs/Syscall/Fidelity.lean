import DonsOs.Syscall.Residue

/-! Whether the child's memory is the image.
Each segment maps frames of its own for all pages that it meets.  A page that two segments share
is mapped twice, and what the first of them has put on it goes with the frame it loses. -/
namespace DonsOs
namespace Child

open Memory (Image Phdr readField elfValidate phdrs ptLoad pagesFrom)
open PagedBytes (Shows Alike Blind)

/-- The segment's `i`th byte in memory, as the file has it. -/
def segmentByte (image : Image) (ph : Phdr) (i : ℕ) : Byte :=
  if i < ph.pFilesz then image (ph.pOffset+i) else 0

/-- The segment as a well-made file of `size` bytes has it. -/
structure InOrder (size : ℕ) (ph : Phdr) : Prop where
  sizes : ph.pFilesz ≤ ph.pMemsz
  file : ph.pOffset+ph.pFilesz ≤ size
  user : ph.pVaddr+ph.pMemsz ≤ 2^47

instance (size : ℕ) (ph : Phdr) : Decidable (InOrder size ph) :=
  decidable_of_iff (ph.pFilesz ≤ ph.pMemsz ∧ ph.pOffset+ph.pFilesz ≤ size ∧ ph.pVaddr+ph.pMemsz ≤ 2^47)
    ⟨fun h => ⟨h.1,h.2.1,h.2.2⟩,fun h => ⟨h.sizes,h.file,h.user⟩⟩

/-- No byte of both. -/
def Apart (ph ph' : Phdr) : Prop :=
  ph.pVaddr+ph.pMemsz ≤ ph'.pVaddr ∨ ph'.pVaddr+ph'.pMemsz ≤ ph.pVaddr ∨ ph.pMemsz = 0 ∨ ph'.pMemsz = 0

instance (ph ph' : Phdr) : Decidable (Apart ph ph') := by unfold Apart; infer_instance

variable {Frame : Type} [DecidableEq Frame]

/-- All segments can be read in `t` as they are in the file. -/
def Faithful (q : Program Frame) (t : Space Frame) : Prop :=
  ∀ ph ∈ q.segments, ∀ i < ph.pMemsz, ∃ f, t.map (pageOf (ph.pVaddr+i)) = some f ∧
    t.bytes f ((ph.pVaddr+i)%4096) = segmentByte q.image ph i

/-- No segment maps a page on which an earlier one has bytes. -/
def NoSharedPage (q : Program Frame) : Prop :=
  q.segments.Pairwise fun ph ph' => ∀ i < ph.pMemsz, pageOf (ph.pVaddr+i) ∉ q.segmentPages ph'

section

set_option linter.unusedSectionVars false

variable {q : Program Frame} {s t : Space Frame} {c : Content} {size : ℕ}

theorem shown_segmentContent {ph : Phdr} (hph : InOrder size ph) (hsize : size ≤ 2^64) {a : ℕ}
    (ha : a < 2^47) :
    shown (q.segmentContent c ph) a =
      if ph.pVaddr ≤ a ∧ a < ph.pVaddr+ph.pMemsz then some (segmentByte q.image ph (a-ph.pVaddr))
      else if pageOf a ∈ q.segmentPages ph then none else shown c a := by
  obtain ⟨hsizes,hfile,huser⟩ := hph
  have hbase : (ph.pVaddr+ph.pFilesz)%2^64 = ph.pVaddr+ph.pFilesz := Nat.mod_eq_of_lt (by omega)
  rw [Program.segmentContent,hbase,shown_write _ _ (by omega) (by omega),
    shown_write _ _ (by omega) (by omega)]
  by_cases hin : ph.pVaddr ≤ a ∧ a < ph.pVaddr+ph.pMemsz
  · rw [if_pos hin,segmentByte]
    by_cases hf : a-ph.pVaddr < ph.pFilesz
    · rw [if_neg (by omega),if_pos (by omega),if_pos hf,Nat.mod_eq_of_lt (by omega)]
    · rw [if_pos (by omega),if_neg hf]
  · rw [if_neg (by omega),if_neg (by omega),if_neg hin,shown,foldl_fresh]
    split <;> rfl

/-- Later segments do not write to an address that is not theirs, but may map its page. -/
theorem shown_foldl_segmentContent {phs : List Phdr} (hphs : ∀ ph ∈ phs, InOrder size ph)
    (hsize : size ≤ 2^64) {a : ℕ} (ha : a < 2^47)
    (hout : ∀ ph ∈ phs, ¬(ph.pVaddr ≤ a ∧ a < ph.pVaddr+ph.pMemsz)) :
    shown (phs.foldl q.segmentContent c) a =
      if ∃ ph ∈ phs, pageOf a ∈ q.segmentPages ph then none else shown c a := by
  induction phs generalizing c with
  | nil => simp
  | cons ph phs ih =>
    rw [List.foldl_cons,ih (fun ph' hm => hphs ph' (List.mem_cons_of_mem ph hm))
      fun ph' hm => hout ph' (List.mem_cons_of_mem ph hm),
      shown_segmentContent (hphs ph List.mem_cons_self) hsize ha,if_neg (hout ph List.mem_cons_self)]
    by_cases hp : pageOf a ∈ q.segmentPages ph
    · simp [hp]
    · simp [hp]

/-- What is left of the `i`th byte of a segment after those behind it are loaded. -/
theorem shown_segment {l l' : List Phdr} {ph : Phdr} (hsegs : q.segments = l++ph::l')
    (horder : ∀ ph ∈ q.segments, InOrder size ph) (hsize : size ≤ 2^64)
    (hapart : q.segments.Pairwise Apart) {i : ℕ} (hi : i < ph.pMemsz) :
    shown (q.segments.foldl q.segmentContent c) (ph.pVaddr+i) =
      if ∃ ph' ∈ l', pageOf (ph.pVaddr+i) ∈ q.segmentPages ph' then none
      else some (segmentByte q.image ph i) := by
  rw [hsegs] at horder hapart ⊢
  have hph := horder ph (by simp)
  have huser := hph.user
  have hlater : ∀ ph' ∈ l', Apart ph ph' :=
    (List.pairwise_cons.mp (List.pairwise_append.mp hapart).2.1).1
  have hown : shown (q.segmentContent (l.foldl q.segmentContent c) ph) (ph.pVaddr+i) =
      some (segmentByte q.image ph i) := by
    rw [shown_segmentContent hph hsize (by omega),if_pos (by omega),Nat.add_sub_cancel_left]
  rw [List.foldl_append,List.foldl_cons,← hown]
  refine shown_foldl_segmentContent (fun ph' hm => horder ph' (by simp [hm])) hsize (by omega)
    fun ph' hm => ?_
  rcases hlater ph' hm with h | h | h | h <;> omega

theorem mem_segmentPages {ph : Phdr} (hph : InOrder size ph) (hmaps : ∀ v, q.maps v = true) {i : ℕ}
    (hi : i < ph.pMemsz) : pageOf (ph.pVaddr+i) ∈ q.segmentPages ph := by
  have huser := hph.user
  refine List.mem_filter.mpr ⟨List.mem_map.mpr ⟨(ph.pVaddr+i)/4096-ph.pVaddr/4096,?_,?_⟩,hmaps _⟩
  · simp only [pagesFrom,List.length_map,List.length_range,List.mem_range,Phdr.startPage,Phdr.endPage,
      Memory.roundUp]
    omega
  · simp only [pageOf,Phdr.startPage]
    omega

/-- The image is found in memory, whatever the free frames held, if and only if no page is
mapped again under an earlier segment. -/
theorem image_faithful_iff (q : Program Frame) (s : Space Frame) (size : ℕ)
    (hs : ∀ v f, s.map v = some f → s.inUse f = true) (hmaps : ∀ v, q.maps v = true)
    (hsize : size ≤ 2^64) (horder : ∀ ph ∈ q.segments, InOrder size ph)
    (hapart : q.segments.Pairwise Apart) :
    (∀ b t, (∀ f, s.inUse f = true → b f = s.bytes f) →
        elfLoadIntoProcess q { s with bytes := b } = some t → Faithful q t) ↔
      ((elfLoadIntoProcess q s).isSome → NoSharedPage q) := by
  have hshows : ∀ {b : Frame → ℕ → Byte} {t : Space Frame},
      elfLoadIntoProcess q { s with bytes := b } = some t →
      Shows { s with bytes := b } t (q.segments.foldl q.segmentContent fun _ _ => none)
        (q.segments.flatMap q.segmentPages) := fun ht =>
    elfLoadIntoProcess_shows (Shows.refl (by exact hs) fun _ _ => none) ht
  constructor
  · intro hall hsome
    by_contra hshared
    rw [NoSharedPage,List.pairwise_iff_forall_sublist] at hshared
    push Not at hshared
    obtain ⟨ph,ph',hsub,i,hi,hp⟩ := hshared
    obtain ⟨r,r',hr,hm,hm'⟩ := List.cons_sublist_iff.mp hsub
    obtain ⟨l,m,rfl⟩ := List.append_of_mem hm
    have hsegs : q.segments = l++ph::(m++r') := by simpa using hr
    -- fill the free frames with a byte that the segment does not have there
    obtain ⟨u,hu⟩ := Option.isSome_iff_exists.mp hsome
    have hsame : ∀ b, Alike s { s with bytes := b } := fun b => ⟨rfl,rfl⟩
    obtain ⟨t,ht,-⟩ := elfLoadIntoProcess_blind q (hsame (stained s (segmentByte q.image ph i+1))) hu
    obtain ⟨f,hf,hbyte⟩ := hall _ t (fun f hf => by simp [stained,hf]) ht ph (by simp [hsegs]) i hi
    have hnew : pageOf (ph.pVaddr+i) ∈ q.segments.flatMap q.segmentPages :=
      List.mem_flatMap.mpr ⟨ph,by simp [hsegs],mem_segmentPages (horder ph (by simp [hsegs])) hmaps hi⟩
    have hfree : s.inUse f = false := ((hshows ht).new_iff _ f hf).mpr hnew
    have hlost := shown_segment (c:=fun _ _ => none) hsegs horder hsize hapart hi
    rw [if_pos ⟨ph',by simpa using Or.inr (List.singleton_sublist.mp hm'),hp⟩] at hlost
    have hshow := (hshows ht).bytes _ f hf hfree ((ph.pVaddr+i)%4096)
    rw [shown] at hlost
    rw [hbyte,hlost] at hshow
    simp [stained,hfree] at hshow
  · intro hno b t _ ht ph hph i hi
    have hsame : ∀ b', Alike { s with bytes := b } { s with bytes := b' } := fun b' => ⟨rfl,rfl⟩
    obtain ⟨u,hu,-⟩ := elfLoadIntoProcess_blind q (hsame s.bytes) ht
    have hpages := hno (by rw [hu]; rfl)
    obtain ⟨l,l',hsegs⟩ := List.append_of_mem hph
    have hnew : pageOf (ph.pVaddr+i) ∈ q.segments.flatMap q.segmentPages :=
      List.mem_flatMap.mpr ⟨ph,hph,mem_segmentPages (horder ph hph) hmaps hi⟩
    obtain ⟨f,hf⟩ := Option.isSome_iff_exists.mp ((hshows ht).mapped _ hnew)
    have hfree : s.inUse f = false := ((hshows ht).new_iff _ f hf).mpr hnew
    have hkept := shown_segment (c:=fun _ _ => none) hsegs horder hsize hapart hi
    rw [NoSharedPage,hsegs] at hpages
    have hlater := (List.pairwise_cons.mp (List.pairwise_append.mp hpages).2.1).1
    rw [if_neg (by rintro ⟨ph',hm,hp⟩; exact hlater ph' hm i hi hp)] at hkept
    refine ⟨f,hf,?_⟩
    rw [shown] at hkept
    rw [(hshows ht).bytes _ f hf hfree,hkept]
    rfl

end

/-! ## Two segments -/

/-- An executable with two segments of one byte, its first, one at `0x8000000000` and the other
at `0x8000000000+256*page`. -/
def twoElf (page : ℕ) : Image
  | 0 => 0x7F | 1 => 0x45 | 2 => 0x4C | 3 => 0x46 | 4 => 2 | 5 => 1
  | 16 => 2 | 18 => 62 | 28 => 0x80 | 32 => 64 | 54 => 56 | 56 => 2
  | 64 => 1 | 84 => 0x80 | 96 => 1 | 104 => 1
  | 120 => 1 | 137 => BitVec.ofNat 8 page | 140 => 0x80 | 152 => 1 | 160 => 1
  | _ => 0

def twoProgram (page : ℕ) : Program ℕ :=
  ⟨twoElf page,[],fun i => some i,fun i j => some (16*(i+1)+j),fun _ => true⟩

/-- With both segments on one page, the byte of the first is gone. -/
theorem shared_page_loses_segment :
    (∀ ph ∈ (twoProgram 8).segments, InOrder 176 ph) ∧ (twoProgram 8).segments.Pairwise Apart ∧
      ∃ t, elfLoadIntoProcess (twoProgram 8) (emptySpace 0) = some t ∧ ¬Faithful (twoProgram 8) t := by
  refine ⟨by decide +kernel,by decide +kernel,?_⟩
  have hrun : (elfLoadIntoProcess (twoProgram 8) (emptySpace 0)).map (fun t =>
      (t.map 0x8000000,t.bytes 32 0)) = some (some 32,0) := by decide +kernel
  obtain ⟨t,ht,he⟩ := Option.map_eq_some_iff.mp hrun
  simp only [Prod.mk.injEq] at he
  refine ⟨t,ht,fun h => ?_⟩
  have hseg : (twoProgram 8).segments.head?.map (fun ph => (ph.pVaddr,ph.pMemsz,ph.pFilesz,ph.pOffset)) =
      some (0x8000000000,1,1,0) := by decide +kernel
  obtain ⟨ph,hph,hfields⟩ := Option.map_eq_some_iff.mp hseg
  simp only [Prod.mk.injEq] at hfields
  obtain ⟨f,hf,hbyte⟩ := h ph (List.mem_of_mem_head? hph) 0 (by omega)
  rw [hfields.1] at hf hbyte
  obtain rfl : 32 = f := Option.some.inj (he.1.symm.trans hf)
  have hfirst : segmentByte (twoProgram 8).image ph 0 = 0x7F := by
    simp [segmentByte,hfields,twoProgram,twoElf]
  rw [hfirst] at hbyte
  exact absurd (he.2.symm.trans hbyte) (by decide)

theorem image_faithful_iff_two_pages :
    (elfLoadIntoProcess (twoProgram 16) (emptySpace 0)).isSome ∧
      ∀ b t, elfLoadIntoProcess (twoProgram 16) { emptySpace 0 with bytes := b } = some t →
        Faithful (twoProgram 16) t :=
  ⟨by decide +kernel,fun b t ht => (image_faithful_iff (twoProgram 16) (emptySpace 0) 176
    (fun _ _ h => by cases h) (fun _ => rfl) (by omega) (by decide +kernel) (by decide +kernel)).mpr
      (fun _ => by unfold NoSharedPage; decide +kernel) b t (fun _ h => by cases h) ht⟩

end Child
end DonsOs
