import DonsOs.Memory.Model

/-! Copies between the kernel and user addresses.
`safe_copy_to_user` and `safe_copy_from_user` go page by page and trust whatever
`vmm_get_phys_from_cr3` finds.  Byte by byte, a copy reaches exactly the addresses that
this walk resolves, whether or not user mode may access them. -/
namespace DonsOs
namespace Memory

open Paging

/-- A copy returns 0, returns -1, or touches an address outside the HHDM and faults. -/
inductive CopyEnd where
  | done | failed | fault
deriving DecidableEq

/-- The loop of both copies.  `move` transfers one chunk between the kernel buffer and
physical memory; the log holds each byte's index and physical address. -/
def copyLoop {σ : Type} (mem : σ → Mem) (move : σ → ℕ → ℕ → ℕ → σ) (cr3 base count : ℕ) :
    ℕ → ℕ → σ → List (ℕ × ℕ) → CopyEnd × σ × List (ℕ × ℕ)
  | 0, _, s, log => (.done,s,log)
  | fuel+1, copied, s, log =>
    if count ≤ copied then (.done,s,log) else
    let cur := (base+copied)%2^64
    let phys := vmmGetPhysFromCr3 (mem s) cr3 cur
    if phys = 0 then (.failed,s,log) else
    if hhdmSize ≤ phys then (.fault,s,log) else
    let chunk := min (count-copied) (4096-cur%4096)
    copyLoop mem move cr3 base count fuel (copied+chunk) (move s phys copied chunk)
      (log++(List.range chunk).map fun i => (copied+i,phys+i))

def storeChunk (src : ℕ → BitVec 8) (m : Mem) (phys copied chunk : ℕ) : Mem :=
  (List.range chunk).foldl (fun m i => storeByte m (phys+i) (src (copied+i))) m

def loadByte (m : Mem) (a : ℕ) : BitVec 8 := (m (a/4096) (a%4096/8) >>> (8*(a%8))).setWidth 8

def loadChunk (m : Mem) (dst : List (BitVec 8)) (phys _copied chunk : ℕ) : List (BitVec 8) :=
  dst++(List.range chunk).map fun i => loadByte m (phys+i)

/-- `safe_copy_to_user`; `current` is the root of the current process. -/
def safeCopyToUser (m : Mem) (current : Option ℕ) (userDest : ℕ) (src : ℕ → BitVec 8) (count : ℕ) :
    CopyEnd × Mem × List (ℕ × ℕ) :=
  match current with
  | none => (.failed,m,[])
  | some cr3 => copyLoop id (storeChunk src) cr3 userDest count count 0 m []

/-- `safe_copy_from_user`, with the bytes that end up in the kernel buffer. -/
def safeCopyFromUser (m : Mem) (current : Option ℕ) (userSrc count : ℕ) :
    CopyEnd × List (BitVec 8) × List (ℕ × ℕ) :=
  match current with
  | none => (.failed,[],[])
  | some cr3 => copyLoop (fun _ => m) (loadChunk m) cr3 userSrc count count 0 [] []

/-! What the copies should respect. -/

/-- User mode may access the address, for writing if `write` is set. -/
def UserMapped (write : Bool) (m : Mem) (cr3 v : ℕ) : Prop :=
  ∃ leaf, translation m cr3 v = some leaf ∧ leaf.user = true ∧ (write = true → leaf.writable = true)

/-- User mode may access the address, and finds the physical address `a` there. -/
def UserByte (write : Bool) (m : Mem) (cr3 v a : ℕ) : Prop :=
  ∃ leaf, translation m cr3 v = some leaf ∧ leaf.user = true ∧
    (write = true → leaf.writable = true) ∧ a = leaf.frame*4096+v%4096

/-- Success only on user memory, and every byte where user mode would have found it. -/
def SafeCopy (write : Bool) (m : Mem) (cr3 base count : ℕ) (e : CopyEnd) (log : List (ℕ × ℕ)) :
    Prop :=
  (e = .done → ∀ i < count, UserMapped write m cr3 ((base+i)%2^64)) ∧
    ∀ x ∈ log, x.1 < count ∧ UserByte write m cr3 ((base+x.1)%2^64) x.2

/-- Where the walk of the kernel finds byte `i`. -/
def physAt (m : Mem) (cr3 base i : ℕ) : ℕ := vmmGetPhysFromCr3 m cr3 ((base+i)%2^64)

def Resolved (m : Mem) (cr3 base i : ℕ) : Prop :=
  physAt m cr3 base i ≠ 0 ∧ physAt m cr3 base i < hhdmSize

/-- Up to the first byte that does not resolve, the range is user memory at all levels of
the tables, and a large page on the way agrees with the word found in place of its page
table. -/
def UserRange (write : Bool) (m : Mem) (cr3 base count : ℕ) : Prop :=
  ∀ i < count, (∀ j ≤ i, Resolved m cr3 base j) →
    UserByte write m cr3 ((base+i)%2^64) (physAt m cr3 base i)

/-! The walk. -/

/-- The frames that the walk reads. -/
def walkFrames (m : Mem) (cr3 v : ℕ) : List ℕ :=
  let e4 := m cr3 (pml4Idx v)
  let e3 := m (frameOf e4) (pdptIdx v)
  let e2 := m (frameOf e3) (pdIdx v)
  [cr3,frameOf e4,frameOf e3,frameOf e2]

theorem vmmWalk_congr {m m' : Mem} {cr3 v : ℕ} (h : ∀ f ∈ walkFrames m cr3 v, m' f = m f) :
    vmmWalk m' cr3 v = vmmWalk m cr3 v := by
  simp only [walkFrames,List.mem_cons,List.not_mem_nil,or_false,forall_eq_or_imp,forall_eq] at h
  obtain ⟨h4,h3,h2,h1⟩ := h
  simp only [vmmWalk,h4,h3,h2,h1]

theorem vmmWalk_page (m : Mem) (cr3 : ℕ) {v w : ℕ} (h : v/4096 = w/4096) :
    vmmWalk m cr3 v = vmmWalk m cr3 w := by
  have h4 : pml4Idx v = pml4Idx w := by simp only [pml4Idx]; omega
  have h3 : pdptIdx v = pdptIdx w := by simp only [pdptIdx]; omega
  have h2 : pdIdx v = pdIdx w := by simp only [pdIdx]; omega
  have h1 : ptIdx v = ptIdx w := by simp only [ptIdx]; omega
  simp only [vmmWalk,h4,h3,h2,h1]

theorem getPhys_offset {m : Mem} {cr3 v i : ℕ} (h : vmmGetPhysFromCr3 m cr3 v ≠ 0)
    (hi : v%4096+i < 4096) :
    vmmGetPhysFromCr3 m cr3 (v+i) = vmmGetPhysFromCr3 m cr3 v+i ∧
      vmmGetPhysFromCr3 m cr3 v%4096 = v%4096 := by
  have hw := vmmWalk_page m cr3 (show (v+i)/4096 = v/4096 by omega)
  simp only [vmmGetPhysFromCr3] at h ⊢
  rw [hw]
  cases hv : vmmWalk m cr3 v with
  | none =>
    rw [hv] at h
    exact absurd rfl h
  | some pte =>
    simp only
    omega

/-- The bytes of a chunk resolve one after the other. -/
theorem physAt_chunk {m : Mem} {cr3 base copied i : ℕ} (h : Resolved m cr3 base copied)
    (hi : (base+copied)%2^64%4096+i < 4096) :
    physAt m cr3 base (copied+i) = physAt m cr3 base copied+i ∧
      Resolved m cr3 base (copied+i) := by
  have hcur : (base+(copied+i))%2^64 = (base+copied)%2^64+i := by omega
  obtain ⟨hoff,hmod⟩ := getPhys_offset h.1 hi
  have he : physAt m cr3 base (copied+i) = physAt m cr3 base copied+i := by
    rw [physAt,hcur,hoff,physAt]
  refine ⟨he,?_,?_⟩
  · have hne := h.1
    omega
  · have hlt := h.2
    rw [he]
    simp only [physAt,hhdmSize] at hlt hmod ⊢
    omega

/-! The loop, byte by byte. -/

section
variable {σ : Type} {mem : σ → Mem} {move : σ → ℕ → ℕ → ℕ → σ} {m : Mem} {cr3 base count : ℕ}
variable {keeps : σ → Prop}

/-- The log of the bytes from `first` up to `n`. -/
def bytesLog (m : Mem) (cr3 base first n : ℕ) : List (ℕ × ℕ) :=
  (List.range' first (n-first)).map fun i => (i,physAt m cr3 base i)

theorem bytesLog_chunk {copied chunk n : ℕ} (hr : Resolved m cr3 base copied)
    (hc : chunk ≤ 4096-(base+copied)%2^64%4096) (hn : copied+chunk ≤ n) :
    ((List.range chunk).map fun i => (copied+i,physAt m cr3 base copied+i))++
      bytesLog m cr3 base (copied+chunk) n = bytesLog m cr3 base copied n := by
  have hfirst : ((List.range chunk).map fun i => (copied+i,physAt m cr3 base copied+i)) =
      (List.range' copied chunk).map fun i => (i,physAt m cr3 base i) := by
    rw [List.range'_eq_map_range,List.map_map]
    refine List.map_congr_left fun i hi => ?_
    have hi' := List.mem_range.mp hi
    simp only [Function.comp,(physAt_chunk hr (i:=i) (by omega)).1]
  have hsplit : List.range' copied (n-copied) =
      List.range' copied chunk++List.range' (copied+chunk) (n-(copied+chunk)) := by
    rw [List.range'_append_1]
    congr 1
    omega
  rw [hfirst,bytesLog,bytesLog,hsplit,List.map_append]

/-- As long as the copy does not disturb the walks of its range, it handles the bytes in
order up to the first one that does not resolve, and faults only at one outside the HHDM. -/
theorem copyLoop_ends
    (hwalk : ∀ s, keeps s → ∀ i < count,
      vmmGetPhysFromCr3 (mem s) cr3 ((base+i)%2^64) = physAt m cr3 base i)
    (hmove : ∀ s copied chunk, keeps s → copied < count →
      (∀ i < chunk, (physAt m cr3 base copied+i)/4096 = physAt m cr3 base copied/4096) →
      keeps (move s (physAt m cr3 base copied) copied chunk))
    (fuel copied : ℕ) (s : σ) (log : List (ℕ × ℕ)) (hs : keeps s) (hle : copied ≤ count)
    (hfuel : count ≤ copied+fuel) :
    ∃ e n s', copyLoop mem move cr3 base count fuel copied s log =
        (e,s',log++bytesLog m cr3 base copied n) ∧ copied ≤ n ∧ n ≤ count ∧
      (∀ i, copied ≤ i → i < n → Resolved m cr3 base i) ∧
      (e = .done ∧ n = count ∨ e ≠ .done ∧ n < count ∧ ¬Resolved m cr3 base n ∧
        (e = .fault → hhdmSize ≤ physAt m cr3 base n)) := by
  induction fuel generalizing copied s log with
  | zero =>
    obtain rfl : copied = count := by omega
    exact ⟨.done,copied,s,by simp [copyLoop,bytesLog],le_rfl,le_rfl,fun i h h' => by omega,
      Or.inl ⟨rfl,rfl⟩⟩
  | succ fuel ih =>
    by_cases hend : count ≤ copied
    · obtain rfl : copied = count := by omega
      exact ⟨.done,copied,s,by simp [copyLoop,bytesLog],le_rfl,le_rfl,fun i h h' => by omega,
        Or.inl ⟨rfl,rfl⟩⟩
    have hlt : copied < count := by omega
    have hphys := hwalk s hs copied hlt
    simp only [copyLoop,if_neg hend,hphys]
    by_cases h0 : physAt m cr3 base copied = 0
    · exact ⟨.failed,copied,s,by simp [h0,bytesLog],le_rfl,hle,fun i h h' => by omega,
        Or.inr ⟨by decide,hlt,fun hr => hr.1 h0,fun h => by cases h⟩⟩
    by_cases hw : hhdmSize ≤ physAt m cr3 base copied
    · exact ⟨.fault,copied,s,by simp [h0,hw,bytesLog],le_rfl,hle,fun i h h' => by omega,
        Or.inr ⟨by decide,hlt,fun hr => absurd hr.2 (not_lt.mpr hw),fun _ => hw⟩⟩
    have hr : Resolved m cr3 base copied := ⟨h0,not_le.mp hw⟩
    rw [if_neg h0,if_neg hw]
    generalize hchunk : min (count-copied) (4096-(base+copied)%2^64%4096) = chunk
    have hpos : 0 < chunk := by omega
    have hmod : physAt m cr3 base copied%4096 = (base+copied)%2^64%4096 :=
      (getPhys_offset (i:=0) h0 (by omega)).2
    have hk := hmove s copied chunk hs hlt fun i hi => by omega
    obtain ⟨e,n,s',he,hcn,hn,hall,hcase⟩ := ih (copied+chunk) (move s (physAt m cr3 base copied) copied chunk)
      (log++(List.range chunk).map fun i => (copied+i,physAt m cr3 base copied+i)) hk (by omega)
      (by omega)
    refine ⟨e,n,s',?_,by omega,hn,fun i hci hin => ?_,hcase⟩
    · rw [he,List.append_assoc,bytesLog_chunk hr (by omega) hcn]
    · by_cases hic : copied+chunk ≤ i
      · exact hall i hic hin
      · obtain ⟨j,rfl⟩ : ∃ j, i = copied+j := ⟨i-copied,by omega⟩
        exact (physAt_chunk hr (by omega)).2

/-- A copy that reaches the bytes below `n` is safe exactly if the range is user memory. -/
theorem safeCopy_iff {write : Bool} {e : CopyEnd} {n : ℕ} (hn : n ≤ count)
    (hall : ∀ i, 0 ≤ i → i < n → Resolved m cr3 base i)
    (hcase : e = .done ∧ n = count ∨ e ≠ .done ∧ n < count ∧ ¬Resolved m cr3 base n) :
    SafeCopy write m cr3 base count e ([]++bytesLog m cr3 base 0 n) ↔
      UserRange write m cr3 base count := by
  have hmem : ∀ x, x ∈ ([] : List (ℕ × ℕ))++bytesLog m cr3 base 0 n ↔
      x.1 < n ∧ x.2 = physAt m cr3 base x.1 := by
    rintro ⟨i,a⟩
    simp only [List.nil_append,bytesLog,List.mem_map,List.mem_range'_1,Nat.zero_add,Nat.sub_zero]
    constructor
    · rintro ⟨j,⟨-,hj⟩,he⟩
      simp only [Prod.mk.injEq] at he
      obtain ⟨rfl,rfl⟩ := he
      exact ⟨hj,rfl⟩
    · rintro ⟨hi,rfl⟩
      exact ⟨i,⟨Nat.zero_le i,hi⟩,rfl⟩
  constructor
  · rintro ⟨-,hlog⟩ i hi hres
    have hin : i < n := by
      by_contra hni
      rcases hcase with ⟨-,rfl⟩ | ⟨-,-,hno⟩
      · exact hni hi
      · exact hno (hres n (by omega))
    exact (hlog (i,physAt m cr3 base i) ((hmem _).mpr ⟨hin,rfl⟩)).2
  · intro hu
    have hbyte : ∀ i < n, UserByte write m cr3 ((base+i)%2^64) (physAt m cr3 base i) :=
      fun i hi => hu i (by omega) fun j hj => hall j (Nat.zero_le j) (by omega)
    refine ⟨fun hd i hi => ?_,fun x hx => ?_⟩
    · have hnc : n = count := by
        rcases hcase with ⟨-,h⟩ | ⟨h,-⟩
        · exact h
        · exact absurd hd h
      obtain ⟨leaf,ht,hus,hwr,-⟩ := hbyte i (by omega)
      exact ⟨leaf,ht,hus,hwr⟩
    · obtain ⟨hlt,ha⟩ := (hmem x).mp hx
      rw [ha]
      exact ⟨by omega,hbyte x.1 hlt⟩

end

theorem storeChunk_of_ne {src : ℕ → BitVec 8} {m : Mem} {phys copied chunk g : ℕ}
    (h : ∀ i < chunk, (phys+i)/4096 = phys/4096) (hg : g ≠ phys/4096) :
    storeChunk src m phys copied chunk g = m g := by
  simp only [storeChunk]
  have hstep : ∀ (l : List ℕ) (m₁ : Mem), (∀ i ∈ l, i < chunk) → m₁ g = m g →
      l.foldl (fun m i => storeByte m (phys+i) (src (copied+i))) m₁ g = m g := by
    intro l
    induction l with
    | nil => exact fun m₁ _ h₁ => h₁
    | cons i l ih =>
      intro m₁ hl h₁
      refine ih _ (fun j hj => hl j (by simp [hj])) ?_
      exact (storeByte_of_ne (by rw [h i (hl i (by simp))]; exact hg)).trans h₁
  exact hstep _ m (fun i hi => List.mem_range.mp hi) rfl

/-- The range is not mapped over the tables that map it. -/
def Separate (m : Mem) (cr3 base count : ℕ) : Prop :=
  ∀ i < count, ∀ j < count, physAt m cr3 base i/4096 ∉ walkFrames m cr3 ((base+j)%2^64)

/-- The frames that the walks of the range read are as in `m`. -/
def WalksKept (m : Mem) (cr3 base count : ℕ) (m' : Mem) : Prop :=
  ∀ j < count, ∀ f ∈ walkFrames m cr3 ((base+j)%2^64), m' f = m f

theorem WalksKept.physAt {m m' : Mem} {cr3 base count : ℕ} (h : WalksKept m cr3 base count m') (i : ℕ)
    (hi : i < count) : vmmGetPhysFromCr3 m' cr3 ((base+i)%2^64) = Memory.physAt m cr3 base i := by
  simp only [Memory.physAt,vmmGetPhysFromCr3,vmmWalk_congr (h i hi)]

theorem WalksKept.storeChunk {m m' : Mem} {cr3 base count copied chunk : ℕ}
    (h : WalksKept m cr3 base count m') (hsep : Separate m cr3 base count) (src : ℕ → BitVec 8)
    (hc : copied < count) (hpage : ∀ i < chunk, (Memory.physAt m cr3 base copied+i)/4096 =
      Memory.physAt m cr3 base copied/4096) :
    WalksKept m cr3 base count
      (Memory.storeChunk src m' (Memory.physAt m cr3 base copied) copied chunk) := by
  intro j hj f hf
  have hne : f ≠ Memory.physAt m cr3 base copied/4096 := by
    rintro rfl
    exact hsep copied hc j hj hf
  rw [storeChunk_of_ne hpage hne]
  exact h j hj f hf

theorem copyTo_ends {m : Mem} {cr3 base count : ℕ} (hsep : Separate m cr3 base count)
    (src : ℕ → BitVec 8) :
    ∃ e n m', copyLoop id (storeChunk src) cr3 base count count 0 m [] =
        (e,m',[]++bytesLog m cr3 base 0 n) ∧ n ≤ count ∧
      (∀ i, 0 ≤ i → i < n → Resolved m cr3 base i) ∧
      (e = .done ∧ n = count ∨ e ≠ .done ∧ n < count ∧ ¬Resolved m cr3 base n ∧
        (e = .fault → hhdmSize ≤ physAt m cr3 base n)) := by
  obtain ⟨e,n,m',he,-,h⟩ := @copyLoop_ends Mem id (storeChunk src) m cr3 base count
    (WalksKept m cr3 base count) (fun _ hk => hk.physAt)
    (fun _ _ _ hk hc hpage => hk.storeChunk hsep src hc hpage) count 0 m [] (fun _ _ _ _ => rfl)
    (Nat.zero_le _) (by omega)
  exact ⟨e,n,m',he,h⟩

theorem copyFrom_ends (m : Mem) (cr3 base count : ℕ) :
    ∃ e n dst, copyLoop (fun _ => m) (loadChunk m) cr3 base count count 0 [] [] =
        (e,dst,[]++bytesLog m cr3 base 0 n) ∧ n ≤ count ∧
      (∀ i, 0 ≤ i → i < n → Resolved m cr3 base i) ∧
      (e = .done ∧ n = count ∨ e ≠ .done ∧ n < count ∧ ¬Resolved m cr3 base n ∧
        (e = .fault → hhdmSize ≤ physAt m cr3 base n)) := by
  obtain ⟨e,n,dst,he,-,h⟩ := @copyLoop_ends (List (BitVec 8)) (fun _ => m) (loadChunk m) m cr3 base
    count (fun _ => True) (fun _ _ _ _ => rfl) (fun _ _ _ _ _ _ => trivial) count 0 [] [] trivial
    (Nat.zero_le _) (by omega)
  exact ⟨e,n,dst,he,h⟩

/-- The boot tables with one user page. -/
def oneUserPage : Mem :=
  (vmmMapPageInCr3 (bootVm 0x12) 0x12 0x8000000000 0x5000000 (ptPresent ||| ptWrite ||| ptUser)).2.mem

end Memory
end DonsOs
