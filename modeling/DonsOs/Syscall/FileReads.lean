import DonsOs.Syscall.Residue

/-! Which bytes of the buffer the loader reads.
`sys_exec` checks the header and that the program headers are in the file, and passes on the
buffer without its size.  `elf_load_into_process` then takes `p_offset` and `p_filesz` of each
segment at their word. -/
namespace DonsOs
namespace Child

open Memory (Image Phdr readField elfValidate phdrs phdrAt ptLoad pagesFrom)

/-! ## The checks of `sys_exec` -/

/-- What `f_read` returns of `want` bytes at `pos`; `f_lseek` stops at the end of the file. -/
def bytesRead (size pos want : ℕ) : ℕ := min want (size-min pos size)

/-- The checks of `sys_exec` on a file of `size` bytes. -/
def accepts (img : Image) (size : ℕ) : Bool :=
  bytesRead size 0 64 = 64 ∧
  (elfValidate img ∧ readField img 16 2 = 2 ∧ readField img 18 2 = 62) ∧
  (readField img 54 2 = 56 ∧ readField img 56 2 ≠ 0 ∧ readField img 56 2 ≤ Exec.execMaxPhdrs) ∧
  readField img 32 8 ≤ 0xFFFFFFFF ∧
  bytesRead size (readField img 32 8) (readField img 56 2*56) = readField img 56 2*56 ∧
  size ≠ 0 ∧ size ≤ 4*1024*1024

/-! ## The offsets that are read -/

def fieldOffsets (off n : ℕ) : List ℕ := (List.range n).map fun i => (off+i)%2^64

variable {Frame : Type} [DecidableEq Frame]

/-- The copy loop of a segment, up to a page that is not mapped. -/
def copyReads (s : Space Frame) (base count off copied : ℕ) : List ℕ :=
  if copied < count then
    match s.map (pageOf ((base+copied)%2^64)) with
    | none => []
    | some _ => fieldOffsets (off+copied) (chunk base count copied)++
        copyReads s base count off (copied+chunk base count copied)
  else []
termination_by count-copied
decreasing_by
  have := chunk_pos base ‹copied < count›
  omega

def segmentReads (q : Program Frame) (i : ℕ) (ph : Phdr) (s : Space Frame) : List ℕ :=
  match segmentPages q i ph s with
  | none => []
  | some s => copyReads s ph.pVaddr ph.pFilesz ph.pOffset 0

/-- The loop over the program headers, `p_type` first, and `e_entry` in the end. -/
def loadReads (q : Program Frame) : ℕ → List Phdr → Space Frame → List ℕ
  | _, [], _ => fieldOffsets 24 8
  | i, ph::phs, s =>
    let start := readField q.image 32 8+56*i
    fieldOffsets start 4++
    if ph.pType ≠ ptLoad then loadReads q (i+1) phs s
    else fieldOffsets (start+8) 16++fieldOffsets (start+32) 16++segmentReads q i ph s++
      match loadSegment q i ph s with
      | none => []
      | some s => loadReads q (i+1) phs s

/-- The offsets from `elf_data` at which `elf_load_into_process` reads a byte: `e_ident`, `e_phoff`,
`e_phnum`, and the loop. -/
def fileReads (q : Program Frame) (s : Space Frame) : List ℕ :=
  fieldOffsets 0 6++
    if elfValidate q.image = false then []
    else fieldOffsets 32 8++fieldOffsets 56 2++loadReads q 0 (phdrs q.image) s

/-- However the load goes, it reads inside the file. -/
def ReadsInside (img : Image) (size : ℕ) : Prop :=
  ∀ (Frame : Type) [DecidableEq Frame] (q : Program Frame) (s : Space Frame), q.image = img →
    ∀ o ∈ fileReads q s, o < size

/-- The file bytes of the segment are in the file. -/
def InFile (size : ℕ) (ph : Phdr) : Prop := ph.pFilesz = 0 ∨ ph.pOffset+ph.pFilesz ≤ size

section

set_option linter.unusedSectionVars false

variable {q : Program Frame} {s t : Space Frame} {img : Image} {size : ℕ}

theorem readField_lt (img : Image) (off n : ℕ) : readField img off n < 256^n := by
  induction n with
  | zero => simp [readField]
  | succ n ih =>
    rw [readField,List.range_succ,List.map_append,List.sum_append]
    rw [readField] at ih
    have hbyte := (img ((off+n)%2^64)).isLt
    have hlast : (img ((off+n)%2^64)).toNat*256^n ≤ 255*256^n := Nat.mul_le_mul_right _ (by omega)
    simp only [List.map_cons,List.map_nil,List.sum_cons,List.sum_nil,Nat.add_zero]
    rw [pow_succ 256 n]
    omega

variable {o i : ℕ}

theorem mem_fieldOffsets {off n : ℕ} : o ∈ fieldOffsets off n ↔ ∃ j < n, (off+j)%2^64 = o := by
  simp [fieldOffsets]

theorem fieldOffsets_lt {off n : ℕ} (h : off+n ≤ size) (ho : o ∈ fieldOffsets off n) : o < size := by
  obtain ⟨j,hj,rfl⟩ := mem_fieldOffsets.mp ho
  exact (Nat.mod_le _ _).trans_lt (by omega)

theorem copyReads_lt {base count off copied : ℕ} (h : off+count ≤ size)
    (ho : o ∈ copyReads s base count off copied) : o < size := by
  induction hk : count-copied using Nat.strong_induction_on generalizing copied with
  | _ k ih =>
    rw [copyReads] at ho
    split at ho
    · rename_i hlt
      have hpos := chunk_pos base hlt
      obtain ⟨hle,-⟩ := chunk_le base count copied
      split at ho
      · cases ho
      · rcases List.mem_append.mp ho with ho | ho
        · exact fieldOffsets_lt (by omega) ho
        · exact ih _ (by omega) ho rfl
    · cases ho

theorem segmentReads_lt {ph : Phdr} (hph : InFile size ph)
    (ho : o ∈ segmentReads q i ph s) : o < size := by
  rw [segmentReads] at ho
  split at ho
  · cases ho
  · rename_i u _
    rcases hph with hz | hin
    · rw [hz,copyReads,if_neg (by omega)] at ho
      cases ho
    · exact copyReads_lt hin ho

theorem loadReads_lt {phs : List Phdr} (hentry : 64 ≤ size)
    (hphdrs : readField q.image 32 8+56*(i+phs.length) ≤ size)
    (hsegs : ∀ ph ∈ phs, ph.pType = ptLoad → InFile size ph) (ho : o ∈ loadReads q i phs s) :
    o < size := by
  induction phs generalizing i s with
  | nil => exact fieldOffsets_lt (by omega) ho
  | cons ph phs ih =>
    simp only [List.length_cons] at hphdrs
    have hrest : ∀ {s}, o ∈ loadReads q (i+1) phs s → o < size :=
      ih (by omega) fun ph' hm => hsegs ph' (List.mem_cons_of_mem ph hm)
    rw [loadReads] at ho
    rcases List.mem_append.mp ho with ho | ho
    · exact fieldOffsets_lt (by omega) ho
    · split at ho
      · exact hrest ho
      · rename_i hp
        simp only [List.mem_append] at ho
        rcases ho with ((ho | ho) | ho) | ho
        · exact fieldOffsets_lt (by omega) ho
        · exact fieldOffsets_lt (by omega) ho
        · exact segmentReads_lt (hsegs ph List.mem_cons_self (not_not.mp hp)) ho
        · split at ho
          · cases ho
          · exact hrest ho

/-! ## A child with every page mapped -/

/-- Frames of pages that are mapped from the start, and a frame for every page of a segment. -/
abbrev OpenFrame := ℕ ⊕ ℕ × ℕ

def openProgram (img : Image) : Program OpenFrame :=
  ⟨img,[],fun _ => none,fun i j => some (.inr (i,j)),fun _ => true⟩

def openSpace : Space OpenFrame := ⟨fun v => some (.inl v),fun f => f.isLeft,fun _ _ => 0⟩

/-- Every page is mapped, and the frames of the segments from `i` on are free. -/
structure Open (i : ℕ) (s : Space OpenFrame) : Prop where
  mapped : ∀ v, (s.map v).isSome
  free : ∀ i' j, i ≤ i' → s.inUse (.inr (i',j)) = false

theorem Open.copyOut {s : Space OpenFrame} (h : Open i s) (base count : ℕ) (src : ℕ → Byte)
    (copied : ℕ) : ∃ t, copyOut s base count src copied = some t ∧ Open i t := by
  induction hk : count-copied using Nat.strong_induction_on generalizing s copied with
  | _ k ih =>
    rw [Child.copyOut]
    split
    · rename_i hlt
      have hpos := chunk_pos base hlt
      obtain ⟨f,hf⟩ := Option.isSome_iff_exists.mp (h.mapped (pageOf ((base+copied)%2^64)))
      rw [hf]
      have hstore : Open i (s.store f ((base+copied)%4096) (chunk base count copied) fun j =>
          src (copied+j)) := ⟨h.mapped,h.free⟩
      exact ih (count-(copied+chunk base count copied)) (by omega) hstore _ rfl
    · exact ⟨s,rfl,h⟩

theorem Open.segmentPages {s : Space OpenFrame} (h : Open i s) (img : Image) (ph : Phdr) :
    ∃ t, segmentPages (openProgram img) i ph s = some t ∧ Open (i+1) t := by
  have hloop : ∀ n, ∃ t, (List.range n).foldlM (segmentPage (openProgram img) i ph) s = some t ∧
      Open (i+1) t ∧ ∀ j, n ≤ j → t.inUse (.inr (i,j)) = false := by
    intro n
    induction n with
    | zero => exact ⟨s,rfl,⟨h.mapped,fun i' j hi => h.free i' j (by omega)⟩,fun j _ => h.free i j le_rfl⟩
    | succ n ih =>
      obtain ⟨t,ht,hopen,hfree⟩ := ih
      refine ⟨t.take (pageOf (ph.startPage+n*4096)) (.inr (i,n)) true,?_,⟨fun v => ?_,fun i' j hi => ?_⟩,
        fun j hj => ?_⟩
      · rw [List.range_succ,List.foldlM_append,ht]
        simp [segmentPage,newPage,openProgram,hfree n le_rfl]
      · by_cases hv : v = pageOf (ph.startPage+n*4096)
        · simp [PagedBytes.Space.take,hv]
        · simpa [PagedBytes.Space.take,hv] using hopen.mapped v
      · have hne : (Sum.inr (i',j) : OpenFrame) ≠ .inr (i,n) := by
          simp only [ne_eq,Sum.inr.injEq,Prod.mk.injEq,not_and]
          omega
        simpa [PagedBytes.Space.take,hne] using hopen.free i' j hi
      · have hne : (Sum.inr (i,j) : OpenFrame) ≠ .inr (i,n) := by
          simp only [ne_eq,Sum.inr.injEq,Prod.mk.injEq,not_and]
          omega
        simpa [PagedBytes.Space.take,hne] using hfree j (by omega)
  obtain ⟨t,ht,hopen,-⟩ := hloop (pagesFrom ph.startPage ph.endPage).length
  exact ⟨t,ht,hopen⟩

theorem Open.copyReads {s : Space OpenFrame} (h : Open i s) (base : ℕ) {count : ℕ} (off : ℕ)
    {copied j : ℕ} (hj : copied ≤ j) (hlt : j < count) :
    (off+j)%2^64 ∈ copyReads s base count off copied := by
  induction hk : count-copied using Nat.strong_induction_on generalizing copied with
  | _ k ih =>
    have hpos := chunk_pos base (show copied < count by omega)
    obtain ⟨f,hf⟩ := Option.isSome_iff_exists.mp (h.mapped (pageOf ((base+copied)%2^64)))
    rw [Child.copyReads,if_pos (by omega),hf]
    by_cases hin : j < copied+chunk base count copied
    · refine List.mem_append_left _ (mem_fieldOffsets.mpr ⟨j-copied,by omega,?_⟩)
      rw [show off+copied+(j-copied) = off+j by omega]
    · exact List.mem_append_right _ (ih _ (by omega) (by omega) rfl)

theorem Open.loadReads {s : Space OpenFrame} (h : Open i s) {phs : List Phdr} {ph : Phdr}
    (hph : ph ∈ phs) (hp : ph.pType = ptLoad) {j : ℕ} (hj : j < ph.pFilesz) :
    (ph.pOffset+j)%2^64 ∈ loadReads (openProgram img) i phs s := by
  induction phs generalizing i s with
  | nil => cases hph
  | cons ph' phs ih =>
    rw [Child.loadReads]
    refine List.mem_append_right _ ?_
    by_cases hp' : ph'.pType ≠ ptLoad
    · rw [if_pos hp']
      refine ih ⟨h.mapped,fun i' j hi => h.free i' j (by omega)⟩ ?_
      rcases List.mem_cons.mp hph with rfl | hm
      · exact absurd hp hp'
      · exact hm
    · rw [if_neg hp']
      obtain ⟨u,hu,hopen⟩ := h.segmentPages img ph'
      rcases List.mem_cons.mp hph with rfl | hm
      · refine List.mem_append_left _ (List.mem_append_right _ ?_)
        rw [segmentReads,hu]
        exact hopen.copyReads _ _ (Nat.zero_le j) hj
      · obtain ⟨w,hw,hopen⟩ := hopen.copyOut ph'.pVaddr ph'.pFilesz
          (fun j => (openProgram img).image ((ph'.pOffset+j)%2^64)) 0
        obtain ⟨x,hx,hopen⟩ := hopen.copyOut ((ph'.pVaddr+ph'.pFilesz)%2^64) (ph'.pMemsz-ph'.pFilesz)
          (fun _ => 0) 0
        have hload : loadSegment (openProgram img) i ph' s = some x := by
          rw [loadSegment,hu,Option.bind_some,hw,Option.bind_some,hx]
        refine List.mem_append_right _ ?_
        rw [hload]
        exact ih hopen hm

/-- The loader stays inside a file that `sys_exec` accepts if and only if the segments do. -/
theorem reads_inside_iff (img : Image) (size : ℕ) (h : accepts img size = true) :
    ReadsInside img size ↔ ∀ ph ∈ phdrs img, ph.pType = ptLoad → InFile size ph := by
  obtain ⟨hheader,⟨hvalid,-,-⟩,⟨-,hsome,-⟩,hphoff,htable,-,hsize⟩ := of_decide_eq_true h
  rw [bytesRead] at hheader htable
  have hlen : (phdrs img).length = readField img 56 2 := by simp [phdrs]
  constructor
  · intro hin ph hph hp
    by_contra hout
    simp only [InFile,not_or,not_le] at hout
    have hoff : ph.pOffset < 2^64 := by
      obtain ⟨i,-,rfl⟩ := List.mem_map.mp hph
      exact readField_lt img _ 8
    have hread : ∀ j < ph.pFilesz, (ph.pOffset+j)%2^64 < size := by
      intro j hj
      refine hin OpenFrame (openProgram img) openSpace rfl _ (List.mem_append_right _ ?_)
      rw [if_neg (by simp [openProgram,hvalid])]
      exact List.mem_append_right _ (Open.loadReads ⟨fun _ => rfl,fun _ _ _ => rfl⟩ hph hp hj)
    -- the first byte is in the file, so the first one past its end is read
    have hfirst := hread 0 (by omega)
    have hpast := hread (size-ph.pOffset) (by omega)
    omega
  · rintro hsegs Frame _ q s rfl o ho
    rcases List.mem_append.mp ho with ho | ho
    · exact fieldOffsets_lt (by omega) ho
    · rw [if_neg (by simp [hvalid])] at ho
      simp only [List.mem_append] at ho
      rcases ho with (ho | ho) | ho
      · exact fieldOffsets_lt (by omega) ho
      · exact fieldOffsets_lt (by omega) ho
      · exact loadReads_lt (by omega) (by rw [hlen]; omega) hsegs ho

end

/-- An executable of 120 bytes that is all header, with one byte of file data at `off`. -/
def farElf (off : Byte) : Image
  | 0 => 0x7F | 1 => 0x45 | 2 => 0x4C | 3 => 0x46 | 4 => 2 | 5 => 1
  | 16 => 2 | 18 => 62 | 28 => 0x80 | 32 => 64 | 54 => 56 | 56 => 1
  | 64 => 1 | 72 => off | 84 => 0x80 | 96 => 1 | 104 => 1
  | _ => 0

def farProgram (off : Byte) : Program ℕ :=
  ⟨farElf off,[],fun i => some i,fun _ j => some (16+j),fun _ => true⟩

/-- The byte behind the end of the file is copied into the child. -/
theorem segment_past_end_is_read : accepts (farElf 120) 120 = true ∧
    120 ∈ fileReads (farProgram 120) (emptySpace 0) := by decide +kernel

theorem reads_inside_iff_header : accepts (farElf 119) 120 = true ∧ ReadsInside (farElf 119) 120 :=
  ⟨by decide +kernel,(reads_inside_iff _ _ (by decide +kernel)).mpr (by
    unfold InFile
    decide +kernel)⟩

end Child
end DonsOs
