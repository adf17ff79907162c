import DonsOs.Syscall.Argv
import DonsOs.Syscall.Descriptors

/-! Strings from user space.
`copy_user_string` fills its buffer up to the last place and then puts a NUL there.  A string
that is too long is not refused: the caller is given the beginning of it, and the calls that take
a path go on with that. -/
namespace DonsOs
namespace Paths

open Child (Byte Space userByte readPointer readArg execMaxArgLen StringAt)
open Descriptors.Tables (openMode)

/-- The loop of `copy_user_string` from index `i` on, with `room` places left before the last one.
`read j` is what `safe_copy_from_user` delivers for the byte at `user_src+j`. -/
def copyFrom (read : ℕ → Option Byte) : ℕ → ℕ → (ℕ → Byte) → ℤ × (ℕ → Byte)
  | 0, i, dst => (0,Function.update dst i 0)
  | room+1, i, dst =>
    match read i with
    | none => (-1,dst)
    | some c =>
      if c = 0 then (0,Function.update dst i c)
      else copyFrom read room (i+1) (Function.update dst i c)

def copyUserString (read : ℕ → Option Byte) (dst : ℕ → Byte) (dstCap : ℕ) : ℤ × (ℕ → Byte) :=
  if dstCap = 0 then (-1,dst) else copyFrom read (dstCap-1) 0 dst

/-- The string that a buffer holds. -/
def text (dst : ℕ → Byte) (cap : ℕ) : List Byte := ((List.range cap).map dst).takeWhile (· ≠ 0)

def userPathMax : ℕ := 300

variable {Frame : Type}

/-- How the calls start that take a path: what is in `local_path`, or nothing if the call returns
-1.  `dst` is what was on the kernel stack before. -/
def localPath (caller : ℕ → Option Frame) (s : Space Frame) (dst : ℕ → Byte) (path : ℕ) :
    Option (List Byte) :=
  if path = 0 then none else
  let r := copyUserString (fun j => userByte caller s (path+j)) dst userPathMax
  if r.1 ≠ 0 then none else some (text r.2 userPathMax)

/-- The call to FatFs that a path is for. -/
inductive PathUse where
  | fOpen (path : List Byte) (mode : BitVec 8)
  | fUnlink (path : List Byte)
  | fOpendir (path : List Byte)
deriving DecidableEq

def PathUse.path : PathUse → List Byte
  | .fOpen path _ => path
  | .fUnlink path => path
  | .fOpendir path => path

section
variable (caller : ℕ → Option Frame) (s : Space Frame) (dst : ℕ → Byte) (path : ℕ)

/-- `sys_open` up to `f_open`; `slot` and `obj` say whether there is a descriptor with a block for
its slot, and a block for the file. -/
def sysOpen (flags : BitVec 32) (slot obj : Bool) : Option PathUse :=
  (localPath caller s dst path).bind fun p =>
    if slot = false then none else
    (openMode flags).bind fun mode => if obj = false then none else some (.fOpen p mode)

def sysUnlink : Option PathUse := (localPath caller s dst path).map .fUnlink

def sysOpendir (slot obj : Bool) : Option PathUse :=
  (localPath caller s dst path).bind fun p =>
    if slot = false ∨ obj = false then none else some (.fOpendir p)

/-- `sys_exec` up to `f_open`. -/
def sysExec (argc : ℤ) (argv : ℕ) : Option PathUse :=
  if argc < 0 ∨ Exec.execMaxArgc < argc ∨ 0 < argc ∧ argv = 0 then none
  else (localPath caller s dst path).map fun p => .fOpen p 0x01

end

inductive PathCall where
  | open (flags : BitVec 32) (slot obj : Bool)
  | unlink
  | opendir (slot obj : Bool)
  | exec (argc : ℤ) (argv : ℕ)

def PathCall.use (caller : ℕ → Option Frame) (s : Space Frame) (dst : ℕ → Byte) (path : ℕ) :
    PathCall → Option PathUse
  | .open flags slot obj => sysOpen caller s dst path flags slot obj
  | .unlink => sysUnlink caller s dst path
  | .opendir slot obj => sysOpendir caller s dst path slot obj
  | .exec argc argv => sysExec caller s dst path argc argv

/-! ## What is to be copied -/

/-- `read` gives the string `str` and its NUL. -/
structure Spells (read : ℕ → Option Byte) (str : List Byte) : Prop where
  chars : ∀ j < str.length, read j = some (str.getD j 0)
  nul : read str.length = some 0
  nonzero : ∀ b ∈ str, b ≠ 0

/-- A copy that returns 0 has delivered the whole string. -/
def WholeCopy (read : ℕ → Option Byte) (dst : ℕ → Byte) (cap : ℕ) : Prop :=
  (copyUserString read dst cap).1 = 0 → ∃ str, Spells read str ∧ str.length < cap ∧
    Spells (fun j => some ((copyUserString read dst cap).2 j)) str

/-- All bytes below `n` can be read, and none of them is a NUL. -/
def Runs (read : ℕ → Option Byte) (n : ℕ) : Prop := ∀ j < n, ∃ b, read j = some b ∧ b ≠ 0

/-- The string ends in the `cap` bytes that there is room for, or cannot be read before the last
of them. -/
def EndsWithin (read : ℕ → Option Byte) (cap : ℕ) : Prop :=
  cap = 0 ∨ ∃ n < cap, Runs read n ∧ (read n = some 0 ∨ n+1 < cap ∧ read n = none)

variable {str : List Byte}

theorem stringAt_iff {caller : ℕ → Option Frame} {s : Space Frame} {p : ℕ} :
    StringAt caller s p str ↔ Spells (fun j => userByte caller s (p+j)) str :=
  ⟨fun h => ⟨h.chars,h.nul,h.nonzero⟩,fun h => ⟨h.chars,h.nul,h.nonzero⟩⟩

variable {read : ℕ → Option Byte} {dst : ℕ → Byte}

theorem Spells.getD_ne (h : Spells read str) {j : ℕ} (hj : j < str.length) : str.getD j 0 ≠ 0 := by
  rw [List.getD_eq_getElem _ _ hj]
  exact h.nonzero _ (List.getElem_mem hj)

theorem Spells.runs (h : Spells read str) : Runs read str.length :=
  fun j hj => ⟨_,h.chars j hj,h.getD_ne hj⟩

theorem Spells.length_eq (h : Spells read str) {n : ℕ} (hruns : Runs read n)
    (hn : read n = some 0) : str.length = n := by
  rcases Nat.lt_trichotomy str.length n with hlt | he | hlt
  · obtain ⟨b,hb,hne⟩ := hruns _ hlt
    rw [h.nul] at hb
    cases hb
    exact absurd rfl hne
  · exact he
  · rw [h.chars n hlt] at hn
    exact absurd (Option.some.inj hn) (h.getD_ne hlt)

theorem Spells.unique {str' : List Byte} (h : Spells read str) (h' : Spells read str') :
    str = str' := by
  have hlen := h.length_eq h'.runs h'.nul
  refine List.ext_getElem hlen fun j hj hj' => ?_
  have he := (h.chars j hj).symm.trans (h'.chars j hj')
  rwa [List.getD_eq_getElem _ _ hj,List.getD_eq_getElem _ _ hj',Option.some.injEq] at he

/-! ## The copy -/

/-- How far a copy gets: `k` bytes that are not NUL, then a NUL or the last place, or a byte that
cannot be read. -/
theorem copyFrom_spec (read : ℕ → Option Byte) (room i : ℕ) (dst : ℕ → Byte) :
    ∃ k ≤ room, (∀ j < k, ∃ b, read (i+j) = some b ∧ b ≠ 0 ∧ (copyFrom read room i dst).2 (i+j) = b) ∧
      (∀ j < i, (copyFrom read room i dst).2 j = dst j) ∧
      ((k = room ∨ read (i+k) = some 0) ∧ (copyFrom read room i dst).1 = 0 ∧
          (copyFrom read room i dst).2 (i+k) = 0 ∨
        k < room ∧ read (i+k) = none ∧ (copyFrom read room i dst).1 = -1) := by
  induction room generalizing i dst with
  | zero =>
    refine ⟨0,le_rfl,fun j hj => absurd hj (Nat.not_lt_zero j),fun j hj => ?_,
      Or.inl ⟨Or.inl rfl,rfl,?_⟩⟩
    · exact Function.update_of_ne (by omega) _ _
    · simp [copyFrom]
  | succ room ih =>
    cases hread : read i with
    | none =>
      have hcopy : copyFrom read (room+1) i dst = (-1,dst) := by simp only [copyFrom,hread]
      rw [hcopy]
      exact ⟨0,Nat.zero_le _,fun j hj => absurd hj (Nat.not_lt_zero j),fun j _ => rfl,
        Or.inr ⟨Nat.succ_pos _,hread,rfl⟩⟩
    | some c =>
      by_cases hc : c = 0
      · have hcopy : copyFrom read (room+1) i dst = (0,Function.update dst i c) := by
          simp only [copyFrom,hread,if_pos hc]
        rw [hcopy]
        refine ⟨0,Nat.zero_le _,fun j hj => absurd hj (Nat.not_lt_zero j),fun j hj => ?_,
          Or.inl ⟨Or.inr ?_,rfl,?_⟩⟩
        · exact Function.update_of_ne (by omega) _ _
        · rw [Nat.add_zero,hread,hc]
        · simp [hc]
      · have hcopy : copyFrom read (room+1) i dst =
            copyFrom read room (i+1) (Function.update dst i c) := by
          simp only [copyFrom,hread,if_neg hc]
        obtain ⟨k,hk,hchars,hbelow,hend⟩ := ih (i+1) (Function.update dst i c)
        rw [hcopy]
        refine ⟨k+1,by omega,fun j hj => ?_,fun j hj => ?_,?_⟩
        · cases j with
          | zero => exact ⟨c,hread,hc,(hbelow i (by omega)).trans (Function.update_self ..)⟩
          | succ j =>
            have h := hchars j (by omega)
            rwa [show i+1+j = i+(j+1) by omega] at h
        · exact (hbelow j (by omega)).trans (Function.update_of_ne (by omega) _ _)
        · rw [show i+(k+1) = i+1+k by omega]
          simpa using hend

/-- A copy returns 0 with the buffer holding a string whose bytes were read: all of the user's,
or as many as there is room for. -/
theorem copyUserString_spec (read : ℕ → Option Byte) (dst : ℕ → Byte) {cap : ℕ} (hcap : cap ≠ 0) :
    ∃ k < cap, Runs read k ∧
      ((k+1 = cap ∨ read k = some 0) ∧ (copyUserString read dst cap).1 = 0 ∧
          (∃ str, str.length = k ∧ Spells (fun j => some ((copyUserString read dst cap).2 j)) str ∧
            ∀ j < k, read j = some (str.getD j 0)) ∨
        k+1 < cap ∧ read k = none ∧ (copyUserString read dst cap).1 = -1) := by
  obtain ⟨k,hk,hchars,-,hend⟩ := copyFrom_spec read (cap-1) 0 dst
  simp only [copyUserString,if_neg hcap]
  generalize copyFrom read (cap-1) 0 dst = r at hchars hend
  simp only [Nat.zero_add] at hchars hend
  refine ⟨k,by omega,fun j hj => ?_,?_⟩
  · obtain ⟨b,hb,hne,-⟩ := hchars j hj
    exact ⟨b,hb,hne⟩
  · rcases hend with ⟨hstop,hzero,hnul⟩ | ⟨hlt,hnone,herr⟩
    · have hget : ∀ j < k, ((List.range k).map r.2).getD j 0 = r.2 j := by
        intro j hj
        simp [List.getD_eq_getElem?_getD,hj]
      refine Or.inl ⟨hstop.imp (fun h => by omega) id,hzero,(List.range k).map r.2,by simp,
        ⟨fun j hj => ?_,by simp [hnul],fun b hb => ?_⟩,fun j hj => ?_⟩
      · rw [hget j (by simpa using hj)]
      · obtain ⟨j,hj,rfl⟩ := List.mem_map.mp hb
        obtain ⟨b,-,hne,he⟩ := hchars j (List.mem_range.mp hj)
        rwa [he]
      · obtain ⟨b,hb,-,he⟩ := hchars j hj
        rw [hget j hj,hb,he]
    · exact Or.inr ⟨by omega,hnone,herr⟩

/-- A copy that returns 0 is whole exactly if the string ends within the buffer, or the copy does
not return 0. -/
theorem wholeCopy_iff (read : ℕ → Option Byte) (dst : ℕ → Byte) (cap : ℕ) :
    WholeCopy read dst cap ↔ EndsWithin read cap := by
  by_cases hcap : cap = 0
  · refine iff_of_true (fun h => ?_) (Or.inl hcap)
    simp [copyUserString,hcap] at h
  obtain ⟨k,hk,hruns,⟨hstop,hzero,str,hlen,hbuf,hstr⟩ | ⟨hlt,hnone,herr⟩⟩ :=
    copyUserString_spec read dst hcap
  · constructor
    · intro h
      obtain ⟨str',hstr',hlt,-⟩ := h hzero
      exact Or.inr ⟨_,hlt,hstr'.runs,Or.inl hstr'.nul⟩
    · rintro (h | ⟨n,hn,hn',hend⟩)
      · exact absurd h hcap
      -- the copy went on to `k`, so the string ends there or later
      have hnk : n = k := by
        rcases Nat.lt_trichotomy n k with hlt | he | hlt
        · obtain ⟨b,hb,hne⟩ := hruns n hlt
          rcases hend with h0 | ⟨-,h0⟩
          · exact absurd (Option.some.inj (hb.symm.trans h0)) hne
          · exact absurd (hb.symm.trans h0) (by simp)
        · exact he
        · obtain ⟨b,hb,hne⟩ := hn' k hlt
          rcases hstop with h0 | h0
          · omega
          · exact absurd (Option.some.inj (hb.symm.trans h0)) hne
      subst hnk
      have hnul : read n = some 0 := by
        rcases hend with h0 | ⟨hlt,h0⟩
        · exact h0
        · rcases hstop with h1 | h1
          · omega
          · exact h1
      exact fun _ => ⟨str,⟨fun j hj => hstr j (by omega),by rw [hlen,hnul],hbuf.nonzero⟩,by omega,hbuf⟩
  · refine iff_of_true (fun h => ?_) (Or.inr ⟨k,hk,hruns,Or.inr ⟨hlt,hnone⟩⟩)
    rw [herr] at h
    cases h

/-- After a copy that returns 0, the string in the buffer is the user's exactly if that ends
within the buffer. -/
theorem spells_iff_endsWithin (read : ℕ → Option Byte) (dst : ℕ → Byte) {cap : ℕ}
    (hzero : (copyUserString read dst cap).1 = 0) :
    ∃ str, str.length < cap ∧ Spells (fun j => some ((copyUserString read dst cap).2 j)) str ∧
      (Spells read str ↔ EndsWithin read cap) := by
  have hcap : cap ≠ 0 := by
    rintro rfl
    cases hzero
  obtain ⟨k,hk,-,⟨-,-,str,hlen,hbuf,-⟩ | ⟨-,-,herr⟩⟩ := copyUserString_spec read dst hcap
  · refine ⟨str,by omega,hbuf,?_⟩
    rw [← wholeCopy_iff _ dst]
    constructor
    · exact fun hs _ => ⟨str,hs,by omega,hbuf⟩
    · intro hw
      obtain ⟨str',hs,-,hbuf'⟩ := hw hzero
      rwa [hbuf.unique hbuf']
  · rw [herr] at hzero
    cases hzero

/-! ## The calls -/

theorem text_eq {buf : ℕ → Byte} {cap : ℕ}
    (h : Spells (fun j => some (buf j)) str) (hlt : str.length < cap) : text buf cap = str := by
  have hmap : (List.range cap).map buf =
      str++0::(List.range' (str.length+1) (cap-str.length-1)).map buf := by
    have hsplit : List.range cap = List.range str.length++
        (str.length::List.range' (str.length+1) (cap-str.length-1)) := by
      rw [List.range_eq_range',List.range_eq_range',← List.range'_succ,
        show cap-str.length-1+1 = cap-str.length by omega]
      have happ := List.range'_append_1 (s:=0) (m:=str.length) (n:=cap-str.length)
      rw [Nat.zero_add] at happ
      rw [happ,Nat.add_sub_cancel' hlt.le]
    have hstr : (List.range str.length).map buf = str := by
      refine List.ext_getElem (by simp) fun j hj hj' => ?_
      have hc := h.chars j hj'
      rw [List.getD_eq_getElem _ _ hj',Option.some.injEq] at hc
      simpa using hc
    have hnul : buf str.length = 0 := by simpa using h.nul
    rw [hsplit,List.map_append,hstr,List.map_cons,hnul]
  rw [text,hmap,List.takeWhile_append_of_pos (fun b hb => by simpa using h.nonzero b hb)]
  simp

section
variable {caller : ℕ → Option Frame} {s : Space Frame} {path : ℕ}

theorem PathCall.use_path {c : PathCall} {u : PathUse} (h : c.use caller s dst path = some u) :
    localPath caller s dst path = some u.path := by
  cases c with
  | «open» flags slot obj =>
    simp only [PathCall.use,sysOpen,Option.bind_eq_some_iff] at h
    obtain ⟨p,hp,h⟩ := h
    rw [hp]
    split at h
    · cases h
    simp only [Option.bind_eq_some_iff] at h
    obtain ⟨mode,-,h⟩ := h
    split at h
    · cases h
    cases h
    rfl
  | unlink =>
    simp only [PathCall.use,sysUnlink,Option.map_eq_some_iff] at h
    obtain ⟨p,hp,rfl⟩ := h
    exact hp
  | opendir slot obj =>
    simp only [PathCall.use,sysOpendir,Option.bind_eq_some_iff] at h
    obtain ⟨p,hp,h⟩ := h
    rw [hp]
    split at h
    · cases h
    cases h
    rfl
  | exec argc argv =>
    simp only [PathCall.use,sysExec] at h
    split at h
    · cases h
    simp only [Option.map_eq_some_iff] at h
    obtain ⟨p,hp,rfl⟩ := h
    exact hp

theorem localPath_whole_iff {p : List Byte} (h : localPath caller s dst path = some p) :
    Spells (fun j => userByte caller s (path+j)) p ↔
      EndsWithin (fun j => userByte caller s (path+j)) userPathMax := by
  simp only [localPath] at h
  split at h
  · cases h
  split at h
  · cases h
  rename_i hzero
  cases h
  rw [not_not] at hzero
  obtain ⟨str,hlt,hbuf,hiff⟩ := spells_iff_endsWithin _ _ hzero
  rwa [text_eq hbuf hlt]

theorem PathCall.whole_iff (c : PathCall) :
    (∀ u, c.use caller s dst path = some u →
        Spells (fun j => userByte caller s (path+j)) u.path) ↔
      c.use caller s dst path = none ∨
        EndsWithin (fun j => userByte caller s (path+j)) userPathMax := by
  cases hu : c.use caller s dst path with
  | none => simp
  | some u => simpa using localPath_whole_iff (c.use_path hu)

/-! ## The arguments of `sys_exec` -/

/-- The strings that `sys_exec` lays out are those that `copy_user_string` leaves in its
buffer. -/
theorem copyFrom_child (caller : ℕ → Option Frame) (s : Space Frame) (p room i : ℕ) (dst : ℕ → Byte) :
    let r := copyFrom (fun j => userByte caller s (p+j)) room i dst
    Child.copyUserString caller s p room i = none ∧ r.1 = -1 ∨
      ∃ str, Child.copyUserString caller s p room i = some (str++[0]) ∧ r.1 = 0 ∧
        Spells (fun j => some (r.2 (i+j))) str := by
  induction room generalizing i dst with
  | zero => exact Or.inr ⟨[],rfl,rfl,⟨by simp,by simp [copyFrom],by simp⟩⟩
  | succ room ih =>
    intro r
    cases hread : userByte caller s (p+i) with
    | none => exact Or.inl ⟨by simp [Child.copyUserString,hread],by simp [r,copyFrom,hread]⟩
    | some c =>
      by_cases hc : c = 0
      · subst hc
        refine Or.inr ⟨[],by simp [Child.copyUserString,hread],by simp [r,copyFrom,hread],
          ⟨by simp,by simp [r,copyFrom,hread],by simp⟩⟩
      · have hr : r = copyFrom (fun j => userByte caller s (p+j)) room (i+1)
            (Function.update dst i c) := by simp only [r,copyFrom,hread,if_neg hc]
        have hchild : Child.copyUserString caller s p (room+1) i =
            (Child.copyUserString caller s p room (i+1)).map (c::·) := by
          simp only [Child.copyUserString,hread,Option.bind_some,if_neg hc]
        obtain ⟨k,-,-,hbelow,-⟩ := copyFrom_spec (fun j => userByte caller s (p+j)) room (i+1)
          (Function.update dst i c)
        rw [← hr] at hbelow
        rcases ih (i+1) (Function.update dst i c) with ⟨hnone,herr⟩ | ⟨str,hstr,hzero,hbuf⟩
        · exact Or.inl ⟨by rw [hchild,hnone,Option.map_none],by rw [hr,herr]⟩
        · rw [← hr] at hzero hbuf
          refine Or.inr ⟨c::str,by rw [hchild,hstr]; rfl,hzero,⟨fun j hj => ?_,?_,?_⟩⟩
          · cases j with
            | zero => simp [hbelow i (by omega)]
            | succ j =>
              have h := hbuf.chars j (by simpa using hj)
              rwa [show i+1+j = i+(j+1) by omega] at h
          · have h := hbuf.nul
            rwa [show i+1+str.length = i+(c::str).length by simp; omega] at h
          · exact List.forall_mem_cons.mpr ⟨hc,hbuf.nonzero⟩

theorem readArg_whole_iff (argv i : ℕ) :
    (∀ arg, readArg caller argv s i = some arg → ∃ p str,
        readPointer caller s (argv+8*i) = some p ∧ StringAt caller s p str ∧ arg = str++[0]) ↔
      ∀ p, readPointer caller s (argv+8*i) = some p →
        EndsWithin (fun j => userByte caller s (p+j)) execMaxArgLen := by
  cases hp : readPointer caller s (argv+8*i) with
  | none => simp [readArg,hp]
  | some p =>
    simp only [readArg,hp,Option.bind_some,Option.some.injEq,forall_eq',exists_and_left,
      exists_eq_left']
    rcases copyFrom_child caller s p (execMaxArgLen-1) 0 fun _ => 0 with
      ⟨hnone,herr⟩ | ⟨str,hstr,hzero,hbuf⟩
    · refine iff_of_true (fun arg h => ?_) ((wholeCopy_iff _ (fun _ => 0) _).mp fun h => ?_)
      · rw [hnone] at h
        cases h
      · cases herr.symm.trans h
    · obtain ⟨str',-,hbuf',hiff⟩ := spells_iff_endsWithin
        (fun j => userByte caller s (p+j)) (fun _ => 0) (show (copyUserString _ _ execMaxArgLen).1 = 0
          from hzero)
      simp only [Nat.zero_add] at hbuf
      rw [hstr,← hiff,hbuf'.unique hbuf]
      simp only [Option.some.injEq,forall_eq',List.append_cancel_right_eq,exists_eq_right',
        stringAt_iff]

end

/-- A string from user space is copied whole, or the copy is refused, exactly if it ends within
the buffer or cannot be read; and the calls act on the whole of their path, and pass on the whole
of their arguments, exactly in that case. -/
theorem user_strings_whole_iff (caller : ℕ → Option Frame) (s : Space Frame) (dst : ℕ → Byte) :
    (∀ src cap, WholeCopy (fun j => userByte caller s (src+j)) dst cap ↔
      EndsWithin (fun j => userByte caller s (src+j)) cap) ∧
    (∀ (c : PathCall) path, (∀ u, c.use caller s dst path = some u →
        Spells (fun j => userByte caller s (path+j)) u.path) ↔
      c.use caller s dst path = none ∨
        EndsWithin (fun j => userByte caller s (path+j)) userPathMax) ∧
    ∀ argv i, (∀ arg, readArg caller argv s i = some arg → ∃ p str,
        readPointer caller s (argv+8*i) = some p ∧ StringAt caller s p str ∧ arg = str++[0]) ↔
      ∀ p, readPointer caller s (argv+8*i) = some p →
        EndsWithin (fun j => userByte caller s (p+j)) execMaxArgLen :=
  ⟨fun _ _ => wholeCopy_iff _ _ _,fun c _ => c.whole_iff,readArg_whole_iff⟩

/-- A path of 300 letters, one more than there is room for, in the page at 4096. -/
def longPath : Space ℕ where
  map v := if v = 1 then some 0 else none
  inUse f := f = 0
  bytes _ o := if o < 300 then 97 else 0

/-- `sys_unlink` removes the file with the name of its first 299 letters. -/
theorem unlink_cuts :
    Spells (fun j => userByte longPath.map longPath (4096+j)) (List.replicate 300 97) ∧
      sysUnlink longPath.map longPath (fun _ => 0) 4096 = some (.fUnlink (List.replicate 299 97)) ∧
      ¬WholeCopy (fun j => userByte longPath.map longPath (4096+j)) (fun _ => 0) userPathMax := by
  have hspells : Spells (fun j => userByte longPath.map longPath (4096+j))
      (List.replicate 300 97) :=
    ⟨by decide +kernel,by decide +kernel,by decide +kernel⟩
  refine ⟨hspells,by decide +kernel,fun hw => ?_⟩
  obtain ⟨str,hstr,hlt,-⟩ := hw (by decide +kernel)
  rw [hstr.unique hspells,List.length_replicate] at hlt
  exact absurd hlt (by decide)

end Paths
end DonsOs
