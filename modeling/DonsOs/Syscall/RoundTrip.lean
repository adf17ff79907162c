import DonsOs.Memory.CopyExact

/-! What is written to a file and read back.
`sys_write` and `sys_read` move the bytes of a file in pieces of up to 512 bytes, through a buffer
on the kernel's heap.  FatFs is taken at its word: a call moves bytes at the file pointer and
advances it, or returns an error and moves none. -/
namespace DonsOs
namespace FileIo

open Paging Memory

abbrev Byte := BitVec 8

/-- An open file: its bytes and the file pointer. -/
structure Fil where
  content : List Byte
  fptr : ℕ

/-- `f_open`; `FA_CREATE_ALWAYS` truncates the file. -/
def fOpen (create : Bool) (content : List Byte) : Fil := ⟨if create then [] else content,0⟩

/-- What `f_close` leaves on the disk. -/
def fClose (f : Fil) : List Byte := f.content

/-- `f_write` that returns `FR_OK`, on a disk with place for `room` bytes: the file, and `bw`. -/
def fWrite (f : Fil) (data : List Byte) (room : ℕ) : Fil × ℕ :=
  let n := min room data.length
  (⟨f.content.take f.fptr++data.take n++f.content.drop (f.fptr+n),f.fptr+n⟩,n)

/-- `f_read`: the file, and the bytes in the buffer. -/
def fRead (f : Fil) (want : ℕ) : Fil × List Byte :=
  let data := (f.content.drop f.fptr).take want
  (⟨f.content,f.fptr+data.length⟩,data)

/-- The loop of `sys_write`; `outcome total` is the place that `f_write` finds after the first
`total` bytes, or an error.  There is no result if the copy from user space faults. -/
def writeLoop (m : Mem) (cr3 buf count : ℕ) (outcome : ℕ → Option ℕ) (total : ℕ) (f : Fil) :
    Option (ℤ × Fil) :=
  if total < count then
    let copy := safeCopyFromUser m (some cr3) (buf+total) (min 512 (count-total))
    match copy.1,outcome total with
    | .fault,_ => none
    | .failed,_ => some (if 0 < total then (total : ℤ) else -1,f)
    | .done,none => some (if 0 < total then (total : ℤ) else -1,f)
    | .done,some room =>
      let w := fWrite f copy.2.1 room
      if w.2 < min 512 (count-total) then some (((total+w.2 : ℕ) : ℤ),w.1)
      else writeLoop m cr3 buf count outcome (total+w.2) w.1
  else some (total,f)
termination_by count-total
decreasing_by
  rename_i hw
  have hmoved : ¬(fWrite f (safeCopyFromUser m (some cr3) (buf+total)
    (min 512 (count-total))).2.1 room).2 < min 512 (count-total) := hw
  omega

/-- The loop of `sys_read`. -/
def readLoop (cr3 buf count : ℕ) (total : ℕ) (m : Mem) (f : Fil) : Option (ℤ × Mem × Fil) :=
  if total < count then
    let r := fRead f (min 512 (count-total))
    if r.2.length = 0 then some (total,m,r.1) else
    let copy := safeCopyToUser m (some cr3) (buf+total) (fun i => r.2.getD i 0) r.2.length
    match copy.1 with
    | .fault => none
    | .failed => some (-1,copy.2.1,r.1)
    | .done =>
      if r.2.length < min 512 (count-total) then some (((total+r.2.length : ℕ) : ℤ),copy.2.1,r.1)
      else readLoop cr3 buf count (total+r.2.length) copy.2.1 r.1
  else some (total,m,f)
termination_by count-total
decreasing_by
  rename_i hr
  have hmoved : ¬(fRead f (min 512 (count-total))).2.length < min 512 (count-total) := hr
  omega

/-- `sys_write` to an open file; `bounce` says whether `kmalloc` gives the buffer. -/
def sysWrite (m : Mem) (current : Option ℕ) (buf count : ℕ) (bounce : Bool)
    (outcome : ℕ → Option ℕ) (f : Fil) : Option (ℤ × Fil) :=
  if buf = 0 ∨ count = 0 then some (0,f) else
  match current with
  | none => some (-1,f)
  | some cr3 => if bounce = false then some (-1,f) else writeLoop m cr3 buf count outcome 0 f

/-- `sys_read` from an open file. -/
def sysRead (m : Mem) (current : Option ℕ) (buf count : ℕ) (bounce : Bool) (f : Fil) :
    Option (ℤ × Mem × Fil) :=
  if buf = 0 ∨ count = 0 then some (0,m,f) else
  match current with
  | none => some (0,m,f)
  | some cr3 => if bounce = false then some (-1,m,f) else readLoop cr3 buf count 0 m f

/-! ## Writing -/

section
variable {m : Mem} {cr3 buf count : ℕ} {outcome : ℕ → Option ℕ}

theorem fWrite_end (content data : List Byte) (room : ℕ) :
    fWrite ⟨content,content.length⟩ data room =
      (⟨content++data.take (min room data.length),content.length+min room data.length⟩,
        min room data.length) := by
  simp [fWrite,List.drop_of_length_le]

/-- The file with the first `n` bytes of the user's buffer. -/
def written (m : Mem) (cr3 buf n : ℕ) : Fil := ⟨loadRange m cr3 buf n,n⟩

@[simp] theorem loadRange_length (n : ℕ) : (loadRange m cr3 buf n).length = n := by simp [loadRange]

theorem fWrite_written {total chunk room : ℕ} :
    fWrite (written m cr3 buf total) (loadRange m cr3 (buf+total) chunk) room =
      (written m cr3 buf (total+min room chunk),min room chunk) := by
  have h := fWrite_end (loadRange m cr3 buf total) (loadRange m cr3 (buf+total) chunk) room
  simp only [loadRange_length,loadRange_take (min_le_right room chunk)] at h
  rw [written,h,written,loadRange_add]

theorem writeLoop_spec (total : ℕ) {n : ℤ} {f : Fil}
    (h : writeLoop m cr3 buf count outcome total (written m cr3 buf total) = some (n,f)) :
    n = -1 ∨ ∃ k : ℕ, n = k ∧ f = written m cr3 buf k := by
  induction hk : count-total using Nat.strong_induction_on generalizing total with
  | _ k ih =>
    have hstop : ((if 0 < total then (total : ℤ) else -1),written m cr3 buf total) = (n,f) →
        n = -1 ∨ ∃ k : ℕ, n = k ∧ f = written m cr3 buf k := by
      intro he
      split at he <;> cases he
      · exact Or.inr ⟨total,rfl,rfl⟩
      · exact Or.inl rfl
    rw [writeLoop] at h
    split at h
    · rename_i hlt
      simp only at h
      split at h
      · cases h
      · exact hstop (Option.some.inj h)
      · exact hstop (Option.some.inj h)
      · rename_i room hdone _
        rw [copyFrom_done hdone,fWrite_written] at h
        split at h
        · cases h
          exact Or.inr ⟨_,rfl,rfl⟩
        · exact ih _ (by omega) _ h rfl
    · cases h
      exact Or.inr ⟨total,rfl,rfl⟩

/-- After a `sys_write` that returns `n > 0` on a truncated file, the file holds the first `n` bytes
of the buffer. -/
theorem sysWrite_spec {bounce : Bool} {old : List Byte} {n : ℤ} {f : Fil}
    (h : sysWrite m (some cr3) buf count bounce outcome (fOpen true old) = some (n,f))
    (hn : 0 < n) : f = written m cr3 buf n.toNat := by
  simp only [sysWrite] at h
  split at h
  · cases h
    exact absurd hn (lt_irrefl 0)
  · split at h
    · cases h
      exact absurd hn (by decide)
    · rcases writeLoop_spec 0 h with rfl | ⟨k,rfl,hf⟩
      · exact absurd hn (by decide)
      · exact hf

end

/-! ## Reading -/

section
variable {m : Mem} {cr3 buf count : ℕ}

theorem readLoop_spec (hall : ∀ i < count, Resolved m cr3 buf i) (hsep : Separate m cr3 buf count)
    {content : List Byte} {pos total : ℕ} (htotal : total ≤ count) (hpos : pos+total ≤ content.length) :
    readLoop cr3 buf count total (storeRange (fun i => content.getD (pos+i) 0) m cr3 buf total)
        ⟨content,pos+total⟩ =
      some (((min count (content.length-pos) : ℕ) : ℤ),
        storeRange (fun i => content.getD (pos+i) 0) m cr3 buf (min count (content.length-pos)),
        ⟨content,pos+min count (content.length-pos)⟩) := by
  induction hk : count-total using Nat.strong_induction_on generalizing total with
  | _ k ih =>
    rw [readLoop]
    by_cases hlt : total < count
    · rw [if_pos hlt]
      have hdata : (fRead ⟨content,pos+total⟩ (min 512 (count-total))).2.length =
          min (min 512 (count-total)) (content.length-(pos+total)) := by simp [fRead]
      have hfil : (fRead ⟨content,pos+total⟩ (min 512 (count-total))).1 =
          ⟨content,pos+total+min (min 512 (count-total)) (content.length-(pos+total))⟩ := by
        simp [fRead]
      simp only [hdata,hfil]
      generalize hn : min (min 512 (count-total)) (content.length-(pos+total)) = n
      by_cases h0 : n = 0
      · rw [if_pos h0,h0,show min count (content.length-pos) = total by omega,Nat.add_zero]
      have hsrc : ∀ i < n, (fRead ⟨content,pos+total⟩ (min 512 (count-total))).2.getD i 0 =
          content.getD (pos+(total+i)) 0 := by
        intro i hi
        simp only [fRead,List.getD_eq_getElem?_getD]
        rw [List.getElem?_take_of_lt (by omega),List.getElem?_drop,Nat.add_assoc]
      obtain ⟨hall',hsep'⟩ := rest_usable hall hsep
        (walksKept_storeRange (fun i => content.getD (pos+i) 0) hsep htotal)
        (show total+n ≤ count by omega)
      have hcopy := copyTo_done hall' hsep' fun i =>
        (fRead ⟨content,pos+total⟩ (min 512 (count-total))).2.getD i 0
      rw [storeRange_congr hsrc,storeRange_add (fun i => content.getD (pos+i) 0) hsep (by omega)]
        at hcopy
      rw [if_neg h0,hcopy]
      simp only
      by_cases hend : n < min 512 (count-total)
      · rw [if_pos hend,show min count (content.length-pos) = total+n by omega,Nat.add_assoc]
      · rw [if_neg hend,Nat.add_assoc]
        exact ih _ (by omega) (by omega) (by omega) rfl
    · rw [if_neg hlt]
      obtain rfl : total = count := by omega
      rw [min_eq_left (by omega)]

end

/-! ## The round trip -/

/-- A call of `sys_read`, with the memory it finds. -/
structure ReadCall where
  mem : Mem
  cr3 : ℕ
  buf : ℕ
  count : ℕ

/-- The call asks for some bytes, and its buffer can take them: the pages resolve, and are apart
from the tables. -/
structure ReadCall.Valid (q : ReadCall) : Prop where
  buf : q.buf ≠ 0
  count : 0 < q.count
  resolved : ∀ i < q.count, Resolved q.mem q.cr3 q.buf i
  separate : Separate q.mem q.cr3 q.buf q.count

/-- One call after the other: the return values, and memory after each of them. -/
def readAll : Fil → List ReadCall → Option (List (ℤ × Mem))
  | _, [] => some []
  | f, q::qs => (sysRead q.mem (some q.cr3) q.buf q.count true f).bind fun r =>
      (readAll r.2.2 qs).map ((r.1,r.2.1)::·)

/-- What the calls should do from position `pos` on: each one stores the next bytes of the content
at its buffer, as many as it asks for or as there are left, and returns their number. -/
def delivered (content : List Byte) : ℕ → List ReadCall → List (ℤ × Mem)
  | _, [] => []
  | pos, q::qs =>
    let n := min q.count (content.length-pos)
    ((n : ℤ),storeRange (fun i => content.getD (pos+i) 0) q.mem q.cr3 q.buf n)::
      delivered content (pos+n) qs

theorem sysRead_spec {q : ReadCall} (h : q.Valid) {content : List Byte} {pos : ℕ}
    (hpos : pos ≤ content.length) :
    sysRead q.mem (some q.cr3) q.buf q.count true ⟨content,pos⟩ =
      some (((min q.count (content.length-pos) : ℕ) : ℤ),
        storeRange (fun i => content.getD (pos+i) 0) q.mem q.cr3 q.buf
          (min q.count (content.length-pos)),
        ⟨content,pos+min q.count (content.length-pos)⟩) := by
  have hargs : ¬(q.buf = 0 ∨ q.count = 0) := by
    have hb := h.buf
    have hc := h.count
    omega
  simp only [sysRead,if_neg hargs]
  exact readLoop_spec h.resolved h.separate (Nat.zero_le _) hpos

theorem readAll_spec {content : List Byte} {pos : ℕ} {calls : List ReadCall}
    (hcalls : ∀ q ∈ calls, q.Valid) (hpos : pos ≤ content.length) :
    readAll ⟨content,pos⟩ calls = some (delivered content pos calls) := by
  induction calls generalizing pos with
  | nil => rfl
  | cons q qs ih =>
    rw [readAll,sysRead_spec (hcalls q (by simp)) hpos,Option.bind_some,
      ih (fun r hr => hcalls r (by simp [hr])) (by omega)]
    rfl

/-- If `sys_write` on a truncated file returns `n > 0`, then after closing and opening the file
again, reads deliver the first `n` bytes of the buffer in order, and 0 from then on. -/
theorem file_round_trip (m : Mem) (cr3 buf count : ℕ) (bounce : Bool) (outcome : ℕ → Option ℕ)
    (old : List Byte) (n : ℤ) (f : Fil)
    (hwrite : sysWrite m (some cr3) buf count bounce outcome (fOpen true old) = some (n,f))
    (hn : 0 < n) (calls : List ReadCall) (hcalls : ∀ q ∈ calls, q.Valid) :
    readAll (fOpen false (fClose f)) calls =
      some (delivered (loadRange m cr3 buf n.toNat) 0 calls) := by
  rw [sysWrite_spec hwrite hn]
  exact readAll_spec hcalls (Nat.zero_le _)

/-- Nine bytes across a page boundary, read back in two pieces. -/
theorem file_round_trip_nine : ∃ f,
    sysWrite (twoPages 6) (some 1) 0x1FEFF8 9 true (fun _ => some 512) (fOpen true []) = some (9,f) ∧
    (readAll (fOpen false (fClose f)) [⟨twoPages 6,1,0x1FEFF8,4⟩,⟨twoPages 6,1,0x1FEFF8,9⟩,
      ⟨twoPages 6,1,0x1FEFF8,1⟩]).map (List.map Prod.fst) = some [4,5,0] := by
  have hcopy : (safeCopyFromUser (twoPages 6) (some 1) (0x1FEFF8+0) (min 512 (9-0))).1 = .done := by
    decide +kernel
  have hwrite : sysWrite (twoPages 6) (some 1) 0x1FEFF8 9 true (fun _ => some 512) (fOpen true []) =
      some (9,written (twoPages 6) 1 0x1FEFF8 9) := by
    have hloop : writeLoop (twoPages 6) 1 0x1FEFF8 9 (fun _ => some 512) 0
        (written (twoPages 6) 1 0x1FEFF8 0) = some (9,written (twoPages 6) 1 0x1FEFF8 9) := by
      rw [writeLoop,if_pos (by decide)]
      simp only [hcopy]
      rw [copyFrom_done hcopy,fWrite_written,writeLoop]
      rfl
    exact hloop
  have hres : ∀ i < 9, Resolved (twoPages 6) 1 0x1FEFF8 i := by
    unfold Resolved
    decide +kernel
  have hsep : Separate (twoPages 6) 1 0x1FEFF8 9 := by
    unfold Separate
    decide +kernel
  have hvalid : ∀ count, 0 < count → count ≤ 9 →
      (⟨twoPages 6,1,0x1FEFF8,count⟩ : ReadCall).Valid := fun count hpos hle =>
    ⟨(by decide : 0x1FEFF8 ≠ 0),hpos,fun i hi => hres i (lt_of_lt_of_le hi hle),
      fun i hi j hj => hsep i (lt_of_lt_of_le hi hle) j (lt_of_lt_of_le hj hle)⟩
  refine ⟨_,hwrite,?_⟩
  rw [file_round_trip _ _ _ _ _ _ _ _ _ hwrite (by decide) _ ?_]
  · simp [delivered]
  · simp only [List.mem_cons,List.not_mem_nil,or_false,forall_eq_or_imp,forall_eq]
    exact ⟨hvalid 4 (by decide) (by decide),hvalid 9 (by decide) le_rfl,
      hvalid 1 (by decide) (by decide)⟩

end FileIo
end DonsOs
