import DonsOs.Syscall.ChildMemory

/-! What earlier owners leave in a new program's memory.
The stack is cleared page by page.  The pages of a segment are filled by the copy and the bss
loop, whose ranges end where the segment does: the rest of its first and last page keeps what
the frame held. -/
namespace DonsOs
namespace Child

open Memory (Image Phdr readField elfValidate phdrs ptLoad pagesFrom stackBottomAnchor)
open PagedBytes (Shows Alike Blind)

variable {Frame : Type} [DecidableEq Frame]

/-- The bytes of the pages that `exec` newly maps are the same whatever the free frames hold. -/
def NoResidue (q : Program Frame) (s : Space Frame) : Prop :=
  ∀ b b' : Frame → ℕ → Byte, (∀ f, s.inUse f = true → b f = b' f) →
    ∀ t, exec q { s with bytes := b } = some t → ∃ t', exec q { s with bytes := b' } = some t' ∧
      ∀ v f, t.map v = some f → s.inUse f = false →
        t'.map v = some f ∧ ∀ o < 4096, t.bytes f o = t'.bytes f o

/-- Every byte of every page that the child gets is written. -/
def Program.Covered (q : Program Frame) : Prop :=
  ∀ v ∈ q.newPages, ∀ o < 4096, (q.content v o).isSome

section

set_option linter.unusedSectionVars false

variable {q : Program Frame} {s t : Space Frame} {c : Content}

/-! ## The pages do not depend on the bytes -/

variable {v o : ℕ}

theorem newPage_alike {maps : ℕ → Bool} {o : Option Frame} {r : Frame × Space Frame}
    (h : Alike s t) (hr : newPage s maps v o = some r) :
    ∃ t', newPage t maps v o = some (r.1,t') ∧ Alike r.2 t' := by
  obtain ⟨ho,hf,hr2⟩ := newPage_some hr
  refine ⟨t.take v r.1 (maps v),?_,hr2 ▸ h.take v r.1 (maps v)⟩
  simp [ho,newPage,← h.2,hf]

theorem copyOut_blind (base count : ℕ) (src : ℕ → Byte) (copied : ℕ) :
    Blind fun s : Space Frame => copyOut s base count src copied := by
  induction hk : count-copied using Nat.strong_induction_on generalizing copied with
  | _ k ih =>
    intro s t s' h hs
    simp only at hs ⊢
    rw [copyOut] at hs ⊢
    by_cases hlt : copied < count
    · rw [if_pos hlt] at hs ⊢
      rw [← h.1]
      have hpos := chunk_pos base hlt
      cases hf : s.map (pageOf ((base+copied)%2^64)) with
      | none =>
        rw [hf] at hs
        cases hs
      | some f =>
        rw [hf] at hs
        exact ih _ (by omega) _ rfl (h.fill f _ _) hs
    · rw [if_neg hlt] at hs ⊢
      cases hs
      exact ⟨t,rfl,h⟩

theorem userStack_blind (q : Program Frame) : Blind (userStack q) := by
  refine Blind.loop (fun i s t s' h hs => ?_) _
  obtain ⟨r,hr,rfl⟩ := Option.map_eq_some_iff.mp hs
  obtain ⟨t',ht',hl⟩ := newPage_alike h hr
  exact ⟨t'.fill r.1 fun _ => 0,Option.map_eq_some_iff.mpr ⟨_,ht',rfl⟩,hl.fill r.1 _ _⟩

theorem segmentPages_blind (q : Program Frame) (i : ℕ) (ph : Phdr) : Blind (segmentPages q i ph) := by
  refine Blind.loop (fun j s t s' h hs => ?_) _
  obtain ⟨r,hr,rfl⟩ := Option.map_eq_some_iff.mp hs
  obtain ⟨t',ht',hl⟩ := newPage_alike h hr
  exact ⟨t',Option.map_eq_some_iff.mpr ⟨_,ht',rfl⟩,hl⟩

theorem loadSegments_blind (q : Program Frame) (i : ℕ) (phs : List Phdr) :
    Blind (loadSegments q i phs) := by
  induction phs generalizing i with
  | nil => exact Blind.id
  | cons ph phs ih =>
    by_cases hp : ph.pType ≠ ptLoad
    · simpa only [Blind,loadSegments,if_pos hp] using ih (i+1)
    · have hload : Blind (loadSegment q i ph) :=
        (segmentPages_blind q i ph).bind ((copyOut_blind _ _ _ 0).bind (copyOut_blind _ _ _ 0))
      simpa only [Blind,loadSegments,if_neg hp] using hload.bind (ih (i+1))

theorem elfLoadIntoProcess_blind (q : Program Frame) : Blind (elfLoadIntoProcess q) := by
  intro s t s' h hs
  simp only [elfLoadIntoProcess] at hs ⊢
  split at hs
  · cases hs
  · rename_i hv
    rw [if_neg hv]
    split at hs
    · cases hs
    · rename_i he
      rw [if_neg he]
      exact loadSegments_blind q 0 _ h hs

theorem writeArgs_alike {cursor : ℕ} {args : List (List Byte)} {r : List ℕ × Space Frame}
    (h : Alike s t) (hr : writeArgs s cursor args = some r) :
    ∃ t', writeArgs t cursor args = some (r.1,t') ∧ Alike r.2 t' := by
  induction args generalizing s t cursor r with
  | nil =>
    cases hr
    exact ⟨t,rfl,h⟩
  | cons arg args ih =>
    simp only [writeArgs] at hr ⊢
    split at hr
    · cases hr
    · rename_i hroom
      simp only [Option.bind_eq_some_iff,Option.map_eq_some_iff] at hr
      obtain ⟨u,hu,r',hr',rfl⟩ := hr
      obtain ⟨w,hw,hl⟩ := copyOut_blind _ _ _ 0 h hu
      obtain ⟨t',ht',hl'⟩ := ih hl hr'
      refine ⟨t',?_,hl'⟩
      dsimp only at hw
      rw [if_neg hroom,hw]
      simp [ht']

theorem layArgv_blind (args : List (List Byte)) : Blind (layArgv args : Space Frame → Option (Space Frame)) := by
  intro s t s' h hs
  simp only [layArgv] at hs ⊢
  split at hs
  · rename_i hnil
    cases hs
    exact ⟨t,by rw [if_pos hnil],h⟩
  · rename_i hcons
    obtain ⟨r,hr,hs⟩ := Option.bind_eq_some_iff.mp hs
    obtain ⟨w,hw,hl⟩ := writeArgs_alike h hr
    obtain ⟨t',ht',hl'⟩ := copyOut_blind _ _ _ 0 hl hs
    exact ⟨t',by rw [if_neg hcons,hw]; exact ht',hl'⟩

theorem exec_blind (q : Program Frame) : Blind (exec q) :=
  (userStack_blind q).bind ((elfLoadIntoProcess_blind q).bind (layArgv_blind q.args))

/-! ## Exactly the covered programs carry nothing over -/

/-- The state with all free frames full of `x`. -/
def stained (s : Space Frame) (x : Byte) : Frame → ℕ → Byte :=
  fun f => if s.inUse f then s.bytes f else fun _ => x

theorem put_isSome (a : ℕ) (b : Byte) (h : (c v o).isSome) : (put c a b v o).isSome := by
  rw [put_at]
  split
  · rfl
  · exact h

theorem write_isSome (base : ℕ) (src : ℕ → Byte) (i n : ℕ) (h : (c v o).isSome) :
    (write c base src i n v o).isSome := by
  induction n generalizing c i with
  | zero => exact h
  | succ n ih => exact ih (i+1) (put_isSome _ _ h)

theorem write_covers (base : ℕ) (src : ℕ → Byte) {i n j : ℕ} (hi : i ≤ j) (hj : j < i+n) :
    (write c base src i n (pageOf ((base+j)%2^64)) ((base+j)%4096)).isSome := by
  induction n generalizing c i with
  | zero => omega
  | succ n ih =>
    by_cases he : i = j
    · subst he
      have hput : (put c (base+i) (src i) (pageOf ((base+i)%2^64)) ((base+i)%4096)).isSome := by
        rw [put_at,if_pos ⟨rfl,rfl⟩]
        rfl
      exact write_isSome _ _ (i+1) n hput
    · exact ih (by omega) (by omega)

/-- The segment starts and ends with a page. -/
structure Aligned (ph : Phdr) : Prop where
  start : ph.pVaddr%4096 = 0
  size : ph.pMemsz%4096 = 0
  file : ph.pFilesz ≤ ph.pMemsz

instance (ph : Phdr) : Decidable (Aligned ph) :=
  decidable_of_iff (ph.pVaddr%4096 = 0 ∧ ph.pMemsz%4096 = 0 ∧ ph.pFilesz ≤ ph.pMemsz)
    ⟨fun h => ⟨h.1,h.2.1,h.2.2⟩,fun h => ⟨h.start,h.size,h.file⟩⟩

theorem Aligned.covers {ph : Phdr} (h : Aligned ph) (hv : v ∈ q.segmentPages ph)
    (ho : o < 4096) : (q.segmentContent c ph v o).isSome := by
  obtain ⟨hv,-⟩ := List.mem_filter.mp hv
  obtain ⟨k,hk,rfl⟩ := List.mem_map.mp hv
  have hstart := h.start
  have hsize := h.size
  have hfile := h.file
  simp only [pagesFrom,List.length_map,List.length_range,List.mem_range,Phdr.startPage,Phdr.endPage,
    Memory.roundUp] at hk
  have hin : k*4096+o < ph.pMemsz := by omega
  rw [Program.segmentContent]
  by_cases hj : k*4096+o < ph.pFilesz
  · have hpage : pageOf (ph.startPage+k*4096) = pageOf ((ph.pVaddr+(k*4096+o))%2^64) := by
      simp only [pageOf,Phdr.startPage]
      omega
    have hoff : o = (ph.pVaddr+(k*4096+o))%4096 := by omega
    rw [hpage]
    nth_rw 2 [hoff]
    exact write_isSome _ _ _ _ (write_covers _ _ (Nat.zero_le _) (by omega))
  · obtain ⟨j,hj⟩ := Nat.exists_eq_add_of_le (not_lt.mp hj)
    have hpage : pageOf (ph.startPage+k*4096) =
        pageOf (((ph.pVaddr+ph.pFilesz)%2^64+j)%2^64) := by
      simp only [pageOf,Phdr.startPage]
      omega
    have hoff : o = ((ph.pVaddr+ph.pFilesz)%2^64+j)%4096 := by omega
    rw [hpage,hoff]
    exact write_covers _ _ (Nat.zero_le _) (by omega)

theorem covered_segments {vs : List ℕ} {phs : List Phdr} (hc : ∀ v ∈ vs, ∀ o < 4096, (c v o).isSome)
    (hphs : ∀ ph ∈ phs, Aligned ph) :
    ∀ v ∈ vs++phs.flatMap q.segmentPages, ∀ o < 4096, (phs.foldl q.segmentContent c v o).isSome := by
  induction phs generalizing c vs with
  | nil => simpa using hc
  | cons ph phs ih =>
    have hstep : ∀ v ∈ vs++q.segmentPages ph, ∀ o < 4096, (q.segmentContent c ph v o).isSome := by
      intro v hv o ho
      by_cases hp : v ∈ q.segmentPages ph
      · exact (hphs ph List.mem_cons_self).covers hp ho
      · have hmem : v ∈ vs := (List.mem_append.mp hv).resolve_right hp
        refine write_isSome _ _ _ _ (write_isSome _ _ _ _ ?_)
        rw [foldl_fresh,if_neg hp]
        exact hc v hmem o ho
    simpa using ih hstep fun ph' hm => hphs ph' (List.mem_cons_of_mem ph hm)

theorem argsContent_isSome {cursor : ℕ} {args : List (List Byte)} (h : (c v o).isSome) :
    (argsContent c cursor args v o).isSome := by
  induction args generalizing c cursor with
  | nil => exact h
  | cons arg args ih => exact ih (write_isSome _ _ _ _ h)

theorem foldl_constant_isSome {vs : List ℕ} (h : v ∈ vs ∨ (c v o).isSome) :
    (vs.foldl (fun c v => c.constant v 0) c v o).isSome := by
  induction vs generalizing c with
  | nil => simpa using h
  | cons w vs ih =>
    refine ih ?_
    by_cases hw : v = w
    · exact Or.inr (by simp [PagedBytes.Content.constant,hw])
    · simpa [PagedBytes.Content.constant,hw] using h

theorem covered_of_aligned (h : ∀ ph ∈ q.segments, Aligned ph) : q.Covered := by
  have hstack : ∀ v ∈ q.stackPages, ∀ o < 4096,
      (q.stackPages.foldl (fun (c : Content) v => c.constant v 0) (fun _ _ => none) v o).isSome :=
    fun v hv o _ => foldl_constant_isSome (Or.inl hv)
  intro v hv o ho
  have hseg := covered_segments hstack h v hv o ho
  rw [Program.content,argvContent]
  split
  · exact hseg
  · exact write_isSome _ _ _ _ (argsContent_isSome hseg)

end

/-! ## One page, or one byte of it -/

/-- An executable with one segment at `0x8000000000`, of `size` bytes of bss. -/
def bssElf (size : ℕ) : Image
  | 0 => 0x7F | 1 => 0x45 | 2 => 0x4C | 3 => 0x46 | 4 => 2 | 5 => 1
  | 16 => 2 | 18 => 62 | 28 => 0x80 | 32 => 64 | 54 => 56 | 56 => 1
  | 64 => 1 | 84 => 0x80 | 104 => BitVec.ofNat 8 size | 105 => BitVec.ofNat 8 (size/256)
  | _ => 0

def bssProgram (size : ℕ) : Program ℕ :=
  ⟨bssElf size,[],fun i => some i,fun _ j => some (16+j),fun _ => true⟩

def emptySpace (x : Byte) : Space ℕ := ⟨fun _ => none,fun _ => false,fun _ _ => x⟩

end Child
end DonsOs
