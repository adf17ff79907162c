import DonsOs.Memory.UserCopy

/-! What the copies transfer.
A copy goes on to the first page that does not resolve, and moves byte `i` of the kernel's buffer
to or from the place that the tables give for address `base+i`.  This is so as long as the copy
does not write to the tables it reads. -/
namespace DonsOs
namespace Memory

open Paging

/-- `safe_copy_to_user_cr3`. -/
def safeCopyToUserCr3 (m : Mem) (cr3 userDest : ℕ) (src : ℕ → BitVec 8) (count : ℕ) :
    CopyEnd × Mem × List (ℕ × ℕ) :=
  copyLoop id (storeChunk src) cr3 userDest count count 0 m []

/-- The page of byte `i` resolves. -/
def Mapped (m : Mem) (cr3 base i : ℕ) : Prop := (vmmWalk m cr3 ((base+i)%2^64)).isSome

/-- The copy transfers the first `n` bytes: all of them and returns 0, or returns -1 at the first
page that does not resolve. -/
structure EndsAt (m : Mem) (cr3 base count : ℕ) (e : CopyEnd) (n : ℕ) : Prop where
  within : n ≤ count
  mapped : ∀ i < n, Mapped m cr3 base i
  stop : e = .done ∧ n = count ∨ e = .failed ∧ n < count ∧ ¬Mapped m cr3 base n

/-- Byte `i < n` of `src` is stored where the tables put address `base+i`. -/
def storeRange (src : ℕ → BitVec 8) (m : Mem) (cr3 base n : ℕ) : Mem :=
  (List.range n).foldl (fun m' i => storeByte m' (physAt m cr3 base i) (src i)) m

def loadRange (m : Mem) (cr3 base n : ℕ) : List (BitVec 8) :=
  (List.range n).map fun i => loadByte m (physAt m cr3 base i)

theorem EndsAt.done_iff {m : Mem} {cr3 base count n : ℕ} {e : CopyEnd}
    (h : EndsAt m cr3 base count e n) : e = .done ↔ ∀ i < count, Mapped m cr3 base i := by
  rcases h.stop with ⟨he,hn⟩ | ⟨he,hn,hno⟩
  · exact iff_of_true he fun i hi => h.mapped i (by omega)
  · exact iff_of_false (by rw [he]; decide) fun hall => hno (hall n hn)

/-! ## Bytes in memory -/

theorem loadByte_storeByte (m : Mem) (a a' : ℕ) (b : BitVec 8) :
    loadByte (storeByte m a b) a' = if a' = a then b else loadByte m a' := by
  simp only [loadByte,storeByte,store_apply]
  by_cases hw : a'/4096 = a/4096 ∧ a'%4096/8 = a%4096/8
  · rw [if_pos hw,setByte_byte _ _ (by omega),hw.1,hw.2]
    congr 1
    apply propext
    constructor <;> intro h <;> omega
  · rw [if_neg hw,if_neg (by omega)]

section
variable {src : ℕ → BitVec 8} {m : Mem} {cr3 base : ℕ}

theorem storeRange_succ (n : ℕ) : storeRange src m cr3 base (n+1) =
    storeByte (storeRange src m cr3 base n) (physAt m cr3 base n) (src n) := by
  simp only [storeRange,List.range_succ,List.foldl_append,List.foldl_cons,List.foldl_nil]

theorem storeRange_congr {src' : ℕ → BitVec 8} {n : ℕ} (h : ∀ i < n, src' i = src i) :
    storeRange src' m cr3 base n = storeRange src m cr3 base n := by
  induction n with
  | zero => rfl
  | succ n ih =>
    rw [storeRange_succ,storeRange_succ,ih fun i hi => h i (by omega),h n (by omega)]

theorem loadByte_storeRange_of_ne {n a : ℕ} (h : ∀ i < n, physAt m cr3 base i ≠ a) :
    loadByte (storeRange src m cr3 base n) a = loadByte m a := by
  induction n with
  | zero => rfl
  | succ n ih =>
    rw [storeRange_succ,loadByte_storeByte,if_neg (h n (by omega)).symm]
    exact ih fun i hi => h i (by omega)

/-- Of the bytes with one place, the last is found there. -/
theorem loadByte_storeRange {n i : ℕ} (hi : i < n)
    (hlast : ∀ j, i < j → j < n → physAt m cr3 base j ≠ physAt m cr3 base i) :
    loadByte (storeRange src m cr3 base n) (physAt m cr3 base i) = src i := by
  induction n with
  | zero => cases hi
  | succ n ih =>
    rw [storeRange_succ,loadByte_storeByte]
    by_cases he : i = n
    · rw [he,if_pos rfl]
    · rw [if_neg (hlast n (by omega) (by omega)).symm]
      exact ih (by omega) fun j hj hjn => hlast j hj (by omega)

end

/-! ## The state after a copy -/

/-- If moving a chunk is moving its bytes one by one, the copy has moved the bytes of its log. -/
theorem copyLoop_moved {σ : Type} (mem : σ → Mem) (move : σ → ℕ → ℕ → ℕ → σ) (cr3 base count : ℕ)
    (act : σ → ℕ × ℕ → σ)
    (hmove : ∀ s phys copied chunk, move s phys copied chunk =
      ((List.range chunk).map fun i => (copied+i,phys+i)).foldl act s)
    (fuel copied : ℕ) (s : σ) (log : List (ℕ × ℕ)) :
    ∃ l, (copyLoop mem move cr3 base count fuel copied s log).2.2 = log++l ∧
      (copyLoop mem move cr3 base count fuel copied s log).2.1 = l.foldl act s := by
  induction fuel generalizing copied s log with
  | zero => exact ⟨[],by simp [copyLoop],rfl⟩
  | succ fuel ih =>
    simp only [copyLoop]
    split
    · exact ⟨[],by simp,rfl⟩
    split
    · exact ⟨[],by simp,rfl⟩
    split
    · exact ⟨[],by simp,rfl⟩
    obtain ⟨l,hlog,hstate⟩ := ih _ (move s _ copied _) (log++_)
    refine ⟨_,hlog.trans (List.append_assoc ..),hstate.trans ?_⟩
    rw [hmove,List.foldl_append]

theorem foldl_bytesLog {σ : Type} (act : σ → ℕ × ℕ → σ) (s : σ) (m : Mem) (cr3 base n : ℕ) :
    (bytesLog m cr3 base 0 n).foldl act s =
      (List.range n).foldl (fun s i => act s (i,physAt m cr3 base i)) s := by
  rw [bytesLog,Nat.sub_zero,← List.range_eq_range',List.foldl_map]

section
variable {m : Mem} {cr3 base count : ℕ}

theorem resolved_iff {i : ℕ} (hzero : ∀ v pte, vmmWalk m cr3 v = some pte → frameOf pte ≠ 0)
    (hwindow : physAt m cr3 base i < hhdmSize) :
    Resolved m cr3 base i ↔ Mapped m cr3 base i := by
  have hphys : physAt m cr3 base i ≠ 0 ↔ Mapped m cr3 base i := by
    simp only [physAt,vmmGetPhysFromCr3,Mapped]
    cases hw : vmmWalk m cr3 ((base+i)%2^64) with
    | none => simp
    | some pte =>
      have hne := hzero _ pte hw
      simp only [Option.isSome_some,iff_true]
      omega
  rw [Resolved,hphys]
  exact and_iff_left hwindow

theorem endsAt_of_loop {e : CopyEnd} {n : ℕ}
    (hzero : ∀ v pte, vmmWalk m cr3 v = some pte → frameOf pte ≠ 0)
    (hwindow : ∀ i < count, physAt m cr3 base i < hhdmSize) (hn : n ≤ count)
    (hall : ∀ i, 0 ≤ i → i < n → Resolved m cr3 base i)
    (hcase : e = .done ∧ n = count ∨ e ≠ .done ∧ n < count ∧ ¬Resolved m cr3 base n ∧
      (e = .fault → hhdmSize ≤ physAt m cr3 base n)) : EndsAt m cr3 base count e n where
  within := hn
  mapped i hi := (resolved_iff hzero (hwindow i (by omega))).mp (hall i (Nat.zero_le i) hi)
  stop := by
    refine hcase.imp_right fun h => ?_
    obtain ⟨hne,hlt,hno,hfault⟩ := h
    refine ⟨?_,hlt,(resolved_iff hzero (hwindow n hlt)).not.mp hno⟩
    cases e with
    | done => exact absurd rfl hne
    | failed => rfl
    | fault => exact absurd (hfault rfl) (not_le.mpr (hwindow n hlt))

end

/-- A copy to user space, on a range apart from its tables, has stored the bytes it has
reached. -/
theorem copyTo_stores {m : Mem} {cr3 base count : ℕ} (hsep : Separate m cr3 base count)
    (src : ℕ → BitVec 8) :
    ∃ e n, n ≤ count ∧ safeCopyToUserCr3 m cr3 base src count =
        (e,storeRange src m cr3 base n,bytesLog m cr3 base 0 n) ∧
      (e = .done ∧ n = count ∨ e ≠ .done ∧ n < count ∧ ¬Resolved m cr3 base n ∧
        (e = .fault → hhdmSize ≤ physAt m cr3 base n)) ∧
      ∀ i, 0 ≤ i → i < n → Resolved m cr3 base i := by
  obtain ⟨e,n,m',he,hn,hall,hcase⟩ := copyTo_ends hsep src
  obtain ⟨l,hlog,hstate⟩ := copyLoop_moved id (storeChunk src) cr3 base count
    (fun m x => storeByte m x.2 (src x.1))
    (fun m phys copied chunk => by rw [storeChunk,List.foldl_map]) count 0 m []
  rw [he] at hlog hstate
  rw [← List.append_cancel_left hlog,foldl_bytesLog] at hstate
  refine ⟨e,n,hn,he.trans ?_,hcase,hall⟩
  rw [List.nil_append]
  exact congrArg (fun m' => (e,m',_)) hstate

theorem copyFrom_loads (m : Mem) (cr3 base count : ℕ) :
    ∃ e n, n ≤ count ∧ safeCopyFromUser m (some cr3) base count =
        (e,loadRange m cr3 base n,bytesLog m cr3 base 0 n) ∧
      (e = .done ∧ n = count ∨ e ≠ .done ∧ n < count ∧ ¬Resolved m cr3 base n ∧
        (e = .fault → hhdmSize ≤ physAt m cr3 base n)) ∧
      ∀ i, 0 ≤ i → i < n → Resolved m cr3 base i := by
  obtain ⟨e,n,dst,he,hn,hall,hcase⟩ := copyFrom_ends m cr3 base count
  have happend (l : List (ℕ × ℕ)) (dst : List (BitVec 8)) :
      l.foldl (fun dst x => dst++[loadByte m x.2]) dst = dst++l.map fun x => loadByte m x.2 := by
    induction l generalizing dst with
    | nil => simp
    | cons x l ih => simp [ih]
  obtain ⟨l,hlog,hstate⟩ := copyLoop_moved (fun _ => m) (loadChunk m) cr3 base count
    (fun dst x => dst++[loadByte m x.2])
    (fun dst phys copied chunk => by rw [happend,loadChunk,List.map_map]; rfl) count 0 [] []
  rw [he] at hlog hstate
  rw [← List.append_cancel_left hlog,happend,bytesLog,Nat.sub_zero,← List.range_eq_range',
    List.map_map,List.nil_append] at hstate
  refine ⟨e,n,hn,he.trans ?_,hcase,hall⟩
  rw [List.nil_append]
  exact congrArg (fun dst => (e,dst,_)) hstate

/-! ## Pieces of a range -/

section
variable {m : Mem} {cr3 base count : ℕ} {src : ℕ → BitVec 8}

theorem copyFrom_done (h : (safeCopyFromUser m (some cr3) base count).1 = .done) :
    (safeCopyFromUser m (some cr3) base count).2.1 = loadRange m cr3 base count := by
  obtain ⟨e,n,hn,he,hstop,-⟩ := copyFrom_loads m cr3 base count
  rw [he] at h ⊢
  rcases hstop with ⟨-,rfl⟩ | ⟨hne,-⟩
  · rfl
  · exact absurd h hne

theorem copyTo_done (hall : ∀ i < count, Resolved m cr3 base i) (hsep : Separate m cr3 base count)
    (src : ℕ → BitVec 8) : safeCopyToUser m (some cr3) base src count =
      (.done,storeRange src m cr3 base count,bytesLog m cr3 base 0 count) := by
  obtain ⟨e,n,hn,he,hstop,-⟩ := copyTo_stores hsep src
  rcases hstop with ⟨rfl,rfl⟩ | ⟨-,hlt,hno,-⟩
  · exact he
  · exact absurd (hall n hlt) hno

theorem loadRange_add (a b : ℕ) :
    loadRange m cr3 base (a+b) = loadRange m cr3 base a++loadRange m cr3 (base+a) b := by
  simp only [loadRange,List.range_add,List.map_append,List.map_map]
  congr 2
  funext i
  simp only [Function.comp,physAt,Nat.add_assoc]

theorem loadRange_take {a b : ℕ} (h : a ≤ b) :
    (loadRange m cr3 base b).take a = loadRange m cr3 base a := by
  simp only [loadRange,← List.map_take,List.take_range,Nat.min_eq_left h]

theorem walksKept_storeRange (src : ℕ → BitVec 8) (hsep : Separate m cr3 base count) {n : ℕ} (hn : n ≤ count) :
    WalksKept m cr3 base count (storeRange src m cr3 base n) := by
  induction n with
  | zero => exact fun _ _ _ _ => rfl
  | succ n ih =>
    intro j hj f hf
    have hne : f ≠ physAt m cr3 base n/4096 := by
      rintro rfl
      exact hsep n (by omega) j hj hf
    rw [storeRange_succ,storeByte_of_ne hne]
    exact ih (by omega) j hj f hf

theorem walkFrames_congr {m' : Mem} {v : ℕ} (h : ∀ f ∈ walkFrames m cr3 v, m' f = m f) :
    walkFrames m' cr3 v = walkFrames m cr3 v := by
  simp only [walkFrames,List.mem_cons,List.not_mem_nil,or_false,forall_eq_or_imp,forall_eq] at h ⊢
  obtain ⟨h4,h3,h2,-⟩ := h
  simp only [h4,h3,h2]

theorem physAt_add (m : Mem) (cr3 base a i : ℕ) :
    physAt m cr3 (base+a) i = physAt m cr3 base (a+i) := by
  simp only [physAt,Nat.add_assoc]

/-- The rest of the range is as good as the whole was. -/
theorem rest_usable (hall : ∀ i < count, Resolved m cr3 base i) (hsep : Separate m cr3 base count)
    {m' : Mem} (hk : WalksKept m cr3 base count m') {a n : ℕ} (h : a+n ≤ count) :
    (∀ i < n, Resolved m' cr3 (base+a) i) ∧ Separate m' cr3 (base+a) n := by
  have hphys : ∀ i < n, physAt m' cr3 (base+a) i = physAt m cr3 base (a+i) := by
    intro i hi
    rw [physAt_add]
    exact hk.physAt (a+i) (by omega)
  constructor
  · intro i hi
    rw [Resolved,hphys i hi]
    exact hall (a+i) (by omega)
  · intro i hi j hj
    rw [hphys i hi,Nat.add_assoc,walkFrames_congr (hk (a+j) (by omega))]
    exact hsep (a+i) (by omega) (a+j) (by omega)

theorem storeRange_add (src : ℕ → BitVec 8) (hsep : Separate m cr3 base count) {a b : ℕ} (h : a+b ≤ count) :
    storeRange (fun i => src (a+i)) (storeRange src m cr3 base a) cr3 (base+a) b =
      storeRange src m cr3 base (a+b) := by
  have hk := walksKept_storeRange src hsep (show a ≤ count by omega)
  induction b with
  | zero => rfl
  | succ b ih =>
    rw [storeRange_succ,ih (by omega),← Nat.add_assoc,storeRange_succ,physAt_add]
    congr 1
    exact hk.physAt (a+b) (by omega)

end

/-- If no page of the tables is on frame 0 and the frames of the range are in the HHDM, a copy
from user space is exact, and so are the copies to user space if the range is not mapped over
its own tables. -/
theorem user_copies_exact (m : Mem) (cr3 base count : ℕ) (src : ℕ → BitVec 8)
    (hzero : ∀ v pte, vmmWalk m cr3 v = some pte → frameOf pte ≠ 0)
    (hwindow : ∀ i < count, physAt m cr3 base i < hhdmSize) :
    (∃ e n, EndsAt m cr3 base count e n ∧ (e = .done ↔ ∀ i < count, Mapped m cr3 base i) ∧
      safeCopyFromUser m (some cr3) base count =
        (e,loadRange m cr3 base n,bytesLog m cr3 base 0 n)) ∧
    (Separate m cr3 base count → ∃ e n, EndsAt m cr3 base count e n ∧
      (e = .done ↔ ∀ i < count, Mapped m cr3 base i) ∧
      safeCopyToUser m (some cr3) base src count =
        (e,storeRange src m cr3 base n,bytesLog m cr3 base 0 n) ∧
      safeCopyToUserCr3 m cr3 base src count =
        (e,storeRange src m cr3 base n,bytesLog m cr3 base 0 n) ∧
      (∀ i < n, (∀ j, i < j → j < n → physAt m cr3 base j ≠ physAt m cr3 base i) →
        loadByte (storeRange src m cr3 base n) (physAt m cr3 base i) = src i) ∧
      ∀ a, (∀ i < n, physAt m cr3 base i ≠ a) →
        loadByte (storeRange src m cr3 base n) a = loadByte m a) := by
  constructor
  · obtain ⟨e,n,hn,hcopy,hcase,hall⟩ := copyFrom_loads m cr3 base count
    have hend := endsAt_of_loop hzero hwindow hn hall hcase
    exact ⟨e,n,hend,hend.done_iff,hcopy⟩
  · intro hsep
    obtain ⟨e,n,hn,hcopy,hcase,hall⟩ := copyTo_stores hsep src
    have hend := endsAt_of_loop hzero hwindow hn hall hcase
    exact ⟨e,n,hend,hend.done_iff,hcopy,hcopy,fun i => loadByte_storeRange,
      fun a => loadByte_storeRange_of_ne⟩

/-- Tables with two pages, the last two of a page table, on the frames `f` and 5.  The page table
is on frame 4. -/
def twoPages (f : ℕ) : Mem := fun g i =>
  if g = 1 ∧ i = 0 then entry 2 7 else
  if g = 2 ∧ i = 0 then entry 3 7 else
  if g = 3 ∧ i = 0 then entry 4 7 else
  if g = 4 ∧ i = 510 then entry f 7 else
  if g = 4 ∧ i = 511 then entry 5 7 else 0

theorem twoPages_frame {f : ℕ} (hf : frameOf (entry f 7) ≠ 0) (v : ℕ) (pte : Word)
    (h : vmmWalk (twoPages f) 1 v = some pte) : frameOf pte ≠ 0 := by
  have hentry {g i : ℕ} (hp : present (twoPages f g i) = true) : frameOf (twoPages f g i) ≠ 0 := by
    revert hp
    simp only [twoPages]
    split_ifs
    · decide
    · decide
    · decide
    · exact fun _ => hf
    · decide
    · decide
  simp only [vmmWalk] at h
  split_ifs at h with h4 h3 h2 h1
  cases h
  exact hentry (by simpa using h1)

/-- If the first page is the page table itself, eight zeros at its end clear the entry of the
second one, and the ninth byte has nowhere to go; at the start both pages resolved. -/
theorem copy_unmaps_itself :
    (∀ v pte, vmmWalk (twoPages 4) 1 v = some pte → frameOf pte ≠ 0) ∧
      (∀ i < 9, Mapped (twoPages 4) 1 0x1FEFF8 i) ∧
      (∀ i < 9, physAt (twoPages 4) 1 0x1FEFF8 i < hhdmSize) ∧
      (safeCopyToUser (twoPages 4) (some 1) 0x1FEFF8 (fun _ => 0) 9).1 = .failed := by
  refine ⟨twoPages_frame (by decide),?_,by decide +kernel,by decide +kernel⟩
  unfold Mapped
  decide +kernel

theorem user_copies_exact_nine :
    (safeCopyToUser (twoPages 6) (some 1) 0x1FEFF8 (fun _ => 0) 9).1 = .done := by
  have hsep : Separate (twoPages 6) 1 0x1FEFF8 9 := by
    unfold Separate
    decide +kernel
  have hmapped : ∀ i < 9, Mapped (twoPages 6) 1 0x1FEFF8 i := by
    unfold Mapped
    decide +kernel
  obtain ⟨e,n,-,hdone,hcopy,-⟩ := (user_copies_exact (twoPages 6) 1 0x1FEFF8 9 (fun _ => 0)
    (twoPages_frame (by decide)) (by decide +kernel)).2 hsep
  rw [hcopy]
  exact hdone.mpr hmapped

end Memory
end DonsOs
