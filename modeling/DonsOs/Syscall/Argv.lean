import DonsOs.Cpu.Switch
import DonsOs.Syscall.Residue

/-! The arguments of a new program.
`sys_exec` reads the pointers and strings of its caller and lays copies of them out on the
child's stack, through the child's tables.  The caller's memory is on frames that were in use
before the call, the stack of the child on frames that were not. -/
namespace DonsOs
namespace Child

open Memory (Image readField stackBottomAnchor)
open Exec (userStackTop)
open PagedBytes (Shows)
open Cpu (Regs initialFrame)

variable {Frame : Type} [DecidableEq Frame]

/-- The byte that the kernel reads at a user address of the caller. -/
def userByte (caller : ℕ → Option Frame) (s : Space Frame) (a : ℕ) : Option Byte :=
  (caller (pageOf (a%2^64))).map fun f => s.bytes f (a%4096)

def littleEndian : List Byte → ℕ
  | [] => 0
  | b::bs => b.toNat+256*littleEndian bs

/-- `safe_copy_from_user` of a pointer. -/
def readPointer (caller : ℕ → Option Frame) (s : Space Frame) (a : ℕ) : Option ℕ :=
  ((List.range 8).mapM fun i => userByte caller s (a+i)).map littleEndian

/-- `copy_user_string` from the `i`th character on, with room for `n` more and the NUL: what is
in the buffer up to the first NUL. -/
def copyUserString (caller : ℕ → Option Frame) (s : Space Frame) (src : ℕ) : ℕ → ℕ → Option (List Byte)
  | 0, _ => some [0]
  | n+1, i => (userByte caller s (src+i)).bind fun c =>
      if c = 0 then some [0] else (copyUserString caller s src n (i+1)).map (c::·)

def execMaxArgLen : ℕ := 256

/-- The `i`th string of `argv`, with its NUL. -/
def readArg (caller : ℕ → Option Frame) (argv : ℕ) (s : Space Frame) (i : ℕ) : Option (List Byte) :=
  (readPointer caller s (argv+8*i)).bind fun p => copyUserString caller s p (execMaxArgLen-1) 0

/-- The loop over `argv`: the addresses of the copies. -/
def argvLoop (caller : ℕ → Option Frame) (argv : ℕ) (s : Space Frame) (cursor : ℕ) :
    List ℕ → Option (List ℕ × Space Frame)
  | [] => some ([],s)
  | i::is => (readArg caller argv s i).bind fun arg =>
    if userStackTop < cursor+arg.length then none else
    (copyOut s cursor arg.length (fun j => arg.getD j 0) 0).bind fun s =>
      (argvLoop caller argv s (cursor+arg.length) is).map fun r => (cursor::r.1,r.2)

/-- `frame[9]`, `frame[10]` and `frame[15]` of the resume frame. -/
def patchFrame (frame : Regs) (rdi rsi entry : ℕ) : Regs :=
  Function.update (Function.update (Function.update frame .rdi rdi) .rsi rsi) .rip entry

/-- `sys_exec` after the image is loaded. -/
def setupArgv (caller : ℕ → Option Frame) (argv argc : ℕ) (frame : Regs) (entry : ℕ) (s : Space Frame) :
    Option (Regs × Space Frame) :=
  if 0 < argc then
    (argvLoop caller argv s (userStackTop-4096+(argc+1)*8) (List.range argc)).bind fun r =>
      (copyOut r.2 (userStackTop-4096) ((argc+1)*8) (arrayByte r.1) 0).map fun s =>
        (patchFrame frame argc (userStackTop-4096) entry,s)
  else some (patchFrame frame 0 0 entry,s)

/-- `sys_exec` from `process_create` on, if it returns a pid: the resume frame and the memory of
the child, whose kernel stack ends at `top`. -/
def sysExec (q : Program Frame) (caller : ℕ → Option Frame) (top argv argc : ℕ) (s : Space Frame) :
    Option (Regs × Space Frame) :=
  ((userStack q s).bind (elfLoadIntoProcess q)).bind
    (setupArgv caller argv argc (initialFrame top userStackTop Sched.userCodeBase 0 0)
      (readField q.image 24 8))

/-! ## What is there to be read -/

/-- The caller has the string `str` at `p`. -/
structure StringAt (caller : ℕ → Option Frame) (s : Space Frame) (p : ℕ) (str : List Byte) : Prop where
  chars : ∀ j < str.length, userByte caller s (p+j) = some (str.getD j 0)
  nul : userByte caller s (p+str.length) = some 0
  nonzero : ∀ b ∈ str, b ≠ 0

/-- The memory has the bytes `bs` at `a`. -/
def Holds (t : Space Frame) (a : ℕ) (bs : List Byte) : Prop :=
  ∀ j < bs.length, ∃ f, t.map (pageOf (a+j)) = some f ∧ t.bytes f ((a+j)%4096) = bs.getD j 0

/-- A quadword. -/
def wordBytes (x : ℕ) : List Byte := (List.range 8).map fun k => BitVec.ofNat 8 (x/256^k)

/-- The array at `base` points to copies of the strings at `addr`; array and strings lie one
after the other below `limit`. -/
structure ArgvLaid (t : Space Frame) (base limit argc : ℕ) (strs : ℕ → List Byte) (addr : ℕ → ℕ) :
    Prop where
  array : ∀ i < argc, Holds t (base+8*i) (wordBytes (addr i))
  strings : ∀ i < argc, Holds t (addr i) (strs i++[0])
  ends : Holds t (base+8*argc) (wordBytes 0)
  behind : ∀ i < argc, base+8*(argc+1) ≤ addr i
  within : ∀ i < argc, addr i+(strs i++[0]).length ≤ limit
  apart : ∀ i j, i < j → j < argc → addr i+(strs i++[0]).length ≤ addr j

section

set_option linter.unusedSectionVars false

variable {q : Program Frame} {caller : ℕ → Option Frame} {s₀ s t : Space Frame} {c : Content}
  {new : List ℕ} {argv : ℕ}

variable {i j : ℕ} {args : List (List Byte)}

theorem copyUserString_eq {p : ℕ} {str : List Byte} (h : StringAt caller s p str) {n : ℕ}
    (hi : i ≤ str.length) (hn : str.length-i ≤ n) :
    copyUserString caller s p n i = some (str.drop i++[0]) := by
  induction n generalizing i with
  | zero =>
    rw [List.drop_of_length_le (by omega)]
    rfl
  | succ n ih =>
    rw [copyUserString]
    by_cases he : i = str.length
    · rw [he,h.nul,List.drop_length]
      rfl
    · have hlt : i < str.length := by omega
      have hget : str.getD i 0 = str[i] := List.getD_eq_getElem _ _ hlt
      have hne : str[i] ≠ 0 := h.nonzero _ (List.getElem_mem hlt)
      rw [h.chars i hlt,hget,Option.bind_some,if_neg hne,ih (by omega) (by omega),
        List.drop_eq_getElem_cons hlt]
      rfl

theorem readArg_congr (h : ∀ v f, caller v = some f → t.bytes f = s.bytes f) (i : ℕ) :
    readArg caller argv t i = readArg caller argv s i := by
  have hbyte : ∀ a, userByte caller t a = userByte caller s a := by
    intro a
    simp only [userByte]
    cases hf : caller (pageOf (a%2^64)) with
    | none => rfl
    | some f => simp [h _ f hf]
  have hstring : ∀ p n i, copyUserString caller t p n i = copyUserString caller s p n i := by
    intro p n
    induction n with
    | zero => exact fun _ => rfl
    | succ n ih =>
      intro i
      simp only [copyUserString,hbyte,ih]
  simp only [readArg,readPointer,hbyte,hstring]

/-! ## Copies through the child's tables -/

theorem copyOut_mapped {base count : ℕ} {src : ℕ → Byte} {copied : ℕ}
    (ht : copyOut s base count src copied = some t) (hj : copied ≤ j) (hlt : j < count) :
    (s.map (pageOf ((base+j)%2^64))).isSome := by
  induction hk : count-copied using Nat.strong_induction_on generalizing s copied with
  | _ k ih =>
    rw [copyOut,if_pos (by omega)] at ht
    have hpos := chunk_pos base (show copied < count by omega)
    obtain ⟨-,hpage⟩ := chunk_le base count copied
    cases hf : s.map (pageOf ((base+copied)%2^64)) with
    | none =>
      rw [hf] at ht
      cases ht
    | some f =>
      rw [hf] at ht
      by_cases hin : j < copied+chunk base count copied
      · have hsame : pageOf ((base+j)%2^64) = pageOf ((base+copied)%2^64) := by
          simp only [pageOf]
          omega
        rw [hsame,hf]
        rfl
      · simpa using ih _ (by omega) ht (by omega) rfl

theorem copyOut_frames {base count : ℕ} {src : ℕ → Byte} {copied : ℕ} (h : Shows s₀ s c new)
    (hnew : ∀ j, copied ≤ j → j < count → (s.map (pageOf ((base+j)%2^64))).isSome →
      pageOf ((base+j)%2^64) ∈ new)
    (ht : copyOut s base count src copied = some t) {f : Frame} (hf : s₀.inUse f = true) :
    t.bytes f = s.bytes f := by
  induction hk : count-copied using Nat.strong_induction_on generalizing s c copied with
  | _ k ih =>
    rw [copyOut] at ht
    split at ht
    · rename_i hlt
      have hpos := chunk_pos base hlt
      split at ht
      · cases ht
      · rename_i g hg
        have hfresh : s₀.inUse g = false :=
          (h.new_iff _ g hg).mpr (hnew copied le_rfl hlt (by rw [hg]; rfl))
        have hne : f ≠ g := by
          rintro rfl
          rw [hf] at hfresh
          cases hfresh
        have hstep := h.store hg ((base+copied)%4096) (chunk base count copied) fun j => src (copied+j)
        rw [ih _ (by omega) hstep (fun j hj hjl hm => hnew j (by omega) hjl hm) ht rfl]
        simp [PagedBytes.Space.store,PagedBytes.Space.fill,hne]
    · cases ht
      rfl

theorem reads_of_shown (h : Shows s₀ t c new) {a : ℕ} (hmap : (t.map (pageOf a)).isSome)
    (hnew : pageOf a ∈ new) {b : Byte} (hb : shown c a = some b) :
    ∃ f, t.map (pageOf a) = some f ∧ t.bytes f (a%4096) = b := by
  obtain ⟨f,hf⟩ := Option.isSome_iff_exists.mp hmap
  refine ⟨f,hf,?_⟩
  rw [shown] at hb
  rw [h.bytes _ f hf ((h.new_iff _ f hf).mpr hnew),hb]
  rfl

/-! ## Where the strings go -/

/-- How many bytes the strings take. -/
def argsBytes (args : List (List Byte)) : ℕ := (args.map List.length).sum

theorem argAddrs_length (cursor : ℕ) (args : List (List Byte)) :
    (argAddrs cursor args).length = args.length := by
  induction args generalizing cursor with
  | nil => rfl
  | cons arg args ih => simp [argAddrs,ih]

theorem argAddrs_bounds (cursor : ℕ) (hi : i < args.length) :
    cursor ≤ (argAddrs cursor args).getD i 0 ∧
      (argAddrs cursor args).getD i 0+(args.getD i []).length ≤ cursor+argsBytes args := by
  induction args generalizing cursor i with
  | nil => cases hi
  | cons arg args ih =>
    cases i with
    | zero => simp [argAddrs,argsBytes]
    | succ i =>
      have h := ih (cursor+arg.length) (by simpa using hi)
      simp only [argAddrs,argsBytes,List.getD_cons_succ,List.map_cons,List.sum_cons] at h ⊢
      omega

theorem argAddrs_apart (cursor : ℕ) (hij : i < j) (hj : j < args.length) :
    (argAddrs cursor args).getD i 0+(args.getD i []).length ≤ (argAddrs cursor args).getD j 0 := by
  induction args generalizing cursor i j with
  | nil => cases hj
  | cons arg args ih =>
    cases j with
    | zero => cases hij
    | succ j =>
      have hj' : j < args.length := by simpa using hj
      cases i with
      | zero => simpa [argAddrs] using (argAddrs_bounds (cursor+arg.length) hj').1
      | succ i => simpa [argAddrs] using ih (cursor+arg.length) (by omega) hj'

theorem shown_argsContent_below {cursor : ℕ} {a : ℕ} (ha : a < cursor)
    (hle : cursor+argsBytes args ≤ 2^48) : shown (argsContent c cursor args) a = shown c a := by
  induction args generalizing c cursor with
  | nil => rfl
  | cons arg args ih =>
    simp only [argsBytes,List.map_cons,List.sum_cons] at hle ih
    rw [argsContent,ih (by omega) (by omega),shown_write _ _ (by omega) (by omega),if_neg (by omega)]

theorem shown_argsContent (cursor : ℕ) (hle : cursor+argsBytes args ≤ 2^48) (hi : i < args.length) (hj : j < (args.getD i []).length) :
    shown (argsContent c cursor args) ((argAddrs cursor args).getD i 0+j) =
      some ((args.getD i []).getD j 0) := by
  induction args generalizing c cursor i with
  | nil => cases hi
  | cons arg args ih =>
    simp only [argsBytes,List.map_cons,List.sum_cons] at hle ih
    cases i with
    | zero =>
      simp only [List.getD_cons_zero] at hj
      simp only [argsContent,argAddrs,List.getD_cons_zero]
      rw [shown_argsContent_below (by omega) (by simp only [argsBytes]; omega),
        shown_write _ _ (by omega) (by omega),if_pos (by omega),Nat.add_sub_cancel_left]
    | succ i =>
      simp only [argsContent,argAddrs,List.getD_cons_succ] at hj ⊢
      exact ih _ (by omega) (by simpa using hi) hj

theorem writeArgs_fits {cursor : ℕ} {r : List ℕ × Space Frame}
    (hr : writeArgs s cursor args = some r) (hc : cursor ≤ userStackTop) (h : Shows s₀ s c new) :
    cursor+argsBytes args ≤ userStackTop ∧
      ∀ a, cursor ≤ a → a < cursor+argsBytes args → (s.map (pageOf a)).isSome := by
  induction args generalizing s c cursor r with
  | nil =>
    refine ⟨by simpa [argsBytes] using hc,fun a ha hlt => ?_⟩
    simp only [argsBytes,List.map_nil,List.sum_nil] at hlt
    omega
  | cons arg args ih =>
    simp only [writeArgs] at hr
    split at hr
    · cases hr
    · rename_i hroom
      simp only [Option.bind_eq_some_iff,Option.map_eq_some_iff] at hr
      obtain ⟨u,hu,r',hr',-⟩ := hr
      obtain ⟨hshow,hmap⟩ := copyOut_shows h hu
      obtain ⟨hfit,hrest⟩ := ih hr' (by omega) hshow
      simp only [argsBytes,List.map_cons,List.sum_cons] at hfit hrest ⊢
      refine ⟨by omega,fun a ha hlt => ?_⟩
      by_cases hin : a < cursor+arg.length
      · have hpage := copyOut_mapped hu (Nat.zero_le (a-cursor)) (by omega)
        rw [userStackTop] at hroom
        rwa [show (cursor+(a-cursor))%2^64 = a by omega] at hpage
      · rw [← hmap]
        exact hrest a (by omega) (by omega)

/-! ## Reading and writing -/

/-- As long as the copies go to new pages, all strings are read as they were at the start. -/
theorem argvLoop_writes (h : Shows s₀ s c new) (hcaller : ∀ v f, caller v = some f → s₀.inUse f = true)
    (hregion : ∀ a, a < userStackTop → userStackTop-4096 ≤ a → (s.map (pageOf a)).isSome → pageOf a ∈ new)
    {cursor : ℕ} (hc : userStackTop-4096 ≤ cursor) {is : List ℕ} {args : ℕ → List Byte}
    (hargs : ∀ i ∈ is, readArg caller argv s i = some (args i)) {r : List ℕ × Space Frame}
    (hr : argvLoop caller argv s cursor is = some r) : writeArgs s cursor (is.map args) = some r := by
  induction is generalizing s c cursor r with
  | nil => exact hr
  | cons i is ih =>
    simp only [argvLoop,hargs i List.mem_cons_self,Option.bind_some] at hr
    simp only [List.map_cons,writeArgs]
    split at hr
    · cases hr
    · rename_i hroom
      rw [if_neg hroom]
      simp only [Option.bind_eq_some_iff,Option.map_eq_some_iff] at hr ⊢
      obtain ⟨u,hu,r',hr',rfl⟩ := hr
      obtain ⟨hshow,hmap⟩ := copyOut_shows h hu
      have hkeep : ∀ v f, caller v = some f → u.bytes f = s.bytes f := by
        intro v f hv
        refine copyOut_frames h (fun j _ hj hm => ?_) hu (hcaller v f hv)
        rw [userStackTop] at hroom hc
        rw [Nat.mod_eq_of_lt (by omega)] at hm ⊢
        exact hregion _ (by rw [userStackTop]; omega) (by rw [userStackTop]; omega) hm
      refine ⟨u,hu,r',ih hshow (by rwa [hmap]) (by omega) (fun j hj => ?_) hr',rfl⟩
      rw [readArg_congr hkeep,hargs j (List.mem_cons_of_mem i hj)]

/-- The region of `argv` is on the last two pages of the stack, which the child gets unless there
are no tables for them. -/
theorem region_new (h : Shows s₀ s c q.newPages) (htables : ∀ v, (s₀.map v).isSome → q.maps v = true)
    {a : ℕ} (ha : a < userStackTop) (hlow : userStackTop-4096 ≤ a) (hm : (s.map (pageOf a)).isSome) :
    pageOf a ∈ q.newPages := by
  by_contra hno
  rw [h.elsewhere _ hno] at hm
  rw [userStackTop] at ha hlow
  refine hno (List.mem_append_left _ (List.mem_filter.mpr ⟨?_,htables _ hm⟩))
  refine List.mem_map.mpr ⟨(a-stackBottomAnchor)/4096,?_,?_⟩
  · rw [List.mem_range,stackBottomAnchor]
    omega
  · simp only [pageOf,stackBottomAnchor]
    omega

theorem shown_array (hne : args ≠ [])
    (hfit : userStackTop-4096+arrayBytes args ≤ userStackTop) (hj : j < arrayBytes args) :
    shown (argvContent c args) (userStackTop-4096+j) =
      some (arrayByte (argAddrs (userStackTop-4096+arrayBytes args) args) j) := by
  rw [userStackTop] at hfit ⊢
  rw [argvContent,if_neg hne,userStackTop,shown_write _ _ (by omega) (by omega),if_pos (by omega),
    Nat.add_sub_cancel_left]

theorem shown_strings (hne : args ≠ [])
    (hfit : userStackTop-4096+arrayBytes args+argsBytes args ≤ userStackTop)
    (hi : i < args.length) (hj : j < (args.getD i []).length) :
    shown (argvContent c args)
        ((argAddrs (userStackTop-4096+arrayBytes args) args).getD i 0+j) =
      some ((args.getD i []).getD j 0) := by
  obtain ⟨hlow,hhigh⟩ := argAddrs_bounds (userStackTop-4096+arrayBytes args) hi
  have hstring := shown_argsContent (c:=c) (userStackTop-4096+arrayBytes args)
    (by rw [userStackTop] at hfit ⊢; omega) hi hj
  rw [argvContent,if_neg hne,shown_write _ _ (by rw [userStackTop] at hfit ⊢; omega)
    (by rw [userStackTop] at *; omega),if_neg (by omega),hstring]

theorem arrayByte_word (addrs : List ℕ) {k : ℕ} (hk : k < 8) :
    arrayByte addrs (8*i+k) = (wordBytes (addrs.getD i 0)).getD k 0 := by
  have hget : (wordBytes (addrs.getD i 0)).getD k 0 = BitVec.ofNat 8 (addrs.getD i 0/256^k) := by
    rw [wordBytes,List.getD_eq_getElem _ _ (show k < _ by simpa using hk),List.getElem_map,
      List.getElem_range]
  rw [hget,arrayByte,show (8*i+k)/8 = i by omega,show (8*i+k)%8 = k by omega]

theorem laid_of_layArgv (h : Shows s₀ s c q.newPages)
    (htables : ∀ v, (s₀.map v).isSome → q.maps v = true) {argc : ℕ} {strs : ℕ → List Byte}
    (hargc : 1 ≤ argc ∧ argc ≤ 16) (ht : layArgv ((List.range argc).map fun i => strs i++[0]) s = some t) :
    ∃ addr, ArgvLaid t (userStackTop-4096) userStackTop argc strs addr := by
  generalize hargs : (List.range argc).map (fun i => strs i++[0]) = args at ht
  have hlen : args.length = argc := by simp [← hargs]
  have hget : ∀ i < argc, args.getD i [] = strs i++[0] := by
    intro i hi
    rw [← hargs,List.getD_eq_getElem _ _ (by simpa using hi)]
    simp
  have hne : args ≠ [] := List.ne_nil_of_length_pos (by omega)
  have hbytes : arrayBytes args = 8*(argc+1) := by rw [arrayBytes,hlen,Nat.mul_comm]
  obtain ⟨hend,hmap'⟩ := layArgv_shows h ht
  rw [layArgv,if_neg hne] at ht
  obtain ⟨r,hwrite,hcopy⟩ := Option.bind_eq_some_iff.mp ht
  obtain ⟨hfit,hmapped⟩ := writeArgs_fits hwrite (by rw [hbytes,userStackTop]; omega) h
  obtain ⟨-,-,hmap⟩ := writeArgs_shows h hwrite
  have htop : userStackTop ≤ 2^48 := by decide
  -- whatever is shown in the region can be read there
  have hreads : ∀ {a : ℕ} {b : Byte}, a < userStackTop → userStackTop-4096 ≤ a →
      (s.map (pageOf a)).isSome → shown (argvContent c args) a = some b →
      ∃ f, t.map (pageOf a) = some f ∧ t.bytes f (a%4096) = b := fun ha hl hm hb =>
    reads_of_shown hend (by rw [hmap']; exact hm) (region_new h htables ha hl hm) hb
  have hword : ∀ i ≤ argc, Holds t (userStackTop-4096+8*i)
      (wordBytes ((argAddrs (userStackTop-4096+arrayBytes args) args).getD i 0)) := by
    intro i hi k hk
    have hk8 : k < 8 := by simpa [wordBytes] using hk
    have hj : 8*i+k < arrayBytes args := by omega
    have hm := copyOut_mapped hcopy (Nat.zero_le (8*i+k)) hj
    rw [hmap,Nat.mod_eq_of_lt (by omega),← Nat.add_assoc] at hm
    refine hreads (by omega) (by omega) hm ?_
    rw [Nat.add_assoc,shown_array hne (by omega) hj,arrayByte_word _ hk8]
  refine ⟨fun i => (argAddrs (userStackTop-4096+arrayBytes args) args).getD i 0,
    fun i hi => hword i (by omega),fun i hi j hj => ?_,?_,fun i hi => ?_,fun i hi => ?_,
    fun i j hij hj => ?_⟩
  · obtain ⟨hlow,hhigh⟩ := argAddrs_bounds (userStackTop-4096+arrayBytes args)
      (show i < args.length by omega)
    rw [← hget i hi] at hj ⊢
    exact hreads (by omega) (by omega) (hmapped _ (by omega) (by omega))
      (shown_strings hne hfit (by omega) hj)
  · have hlast : (argAddrs (userStackTop-4096+arrayBytes args) args).getD argc 0 = 0 :=
      List.getD_eq_default _ _ (by rw [argAddrs_length,hlen])
    simpa only [hlast] using hword argc le_rfl
  · rw [← hbytes]
    exact (argAddrs_bounds _ (show i < args.length by omega)).1
  · rw [← hget i hi]
    exact (argAddrs_bounds _ (show i < args.length by omega)).2.trans hfit
  · rw [← hget i (by omega)]
    exact argAddrs_apart _ hij (by omega)

/-- The child finds its arguments: `rdi` counts them, `rsi` points to an array of pointers to
copies of the caller's strings, and nothing overlaps. -/
theorem argv_round_trip (q : Program Frame) (caller : ℕ → Option Frame) (s u t : Space Frame)
    (top argv argc : ℕ) (strs : ℕ → List Byte) (frame : Regs)
    (hs : ∀ v f, s.map v = some f → s.inUse f = true)
    (hcaller : ∀ v f, caller v = some f → s.inUse f = true)
    (htables : ∀ v, (s.map v).isSome → q.maps v = true) (hargc : 1 ≤ argc ∧ argc ≤ 16)
    (hu : (userStack q s).bind (elfLoadIntoProcess q) = some u)
    (hstrs : ∀ i < argc, ∃ p, readPointer caller u (argv+8*i) = some p ∧
      StringAt caller u p (strs i) ∧ (strs i).length < 256)
    (ht : sysExec q caller top argv argc s = some (frame,t)) :
    frame .rdi = argc ∧ frame .rsi = userStackTop-4096 ∧
      ∃ addr, ArgvLaid t (frame .rsi) userStackTop argc strs addr := by
  have hload : Shows s u (q.segments.foldl q.segmentContent
      (q.stackPages.foldl (fun c v => c.constant v 0) fun _ _ => none)) q.newPages := by
    obtain ⟨w,hw,hu⟩ := Option.bind_eq_some_iff.mp hu
    exact elfLoadIntoProcess_shows (userStack_shows (Shows.refl hs fun _ _ => none) hw) hu
  have hread : ∀ i ∈ List.range argc, readArg caller argv u i = some (strs i++[0]) := by
    intro i hi
    obtain ⟨p,hp,hstr,hlen⟩ := hstrs i (List.mem_range.mp hi)
    rw [readArg,hp,Option.bind_some,copyUserString_eq hstr (Nat.zero_le _) (by
      rw [execMaxArgLen]; omega),List.drop_zero]
  rw [sysExec,hu,Option.bind_some,setupArgv,if_pos (by omega)] at ht
  obtain ⟨r,hr,ht⟩ := Option.bind_eq_some_iff.mp ht
  obtain ⟨t',hcopy,ht⟩ := Option.map_eq_some_iff.mp ht
  obtain ⟨rfl,rfl⟩ := Prod.mk.inj ht
  have hwrite := argvLoop_writes hload hcaller (fun a ha hl hm => region_new hload htables ha hl hm)
    (by omega) hread hr
  have hlay : layArgv ((List.range argc).map fun i => strs i++[0]) u = some t' := by
    rw [layArgv,if_neg (by simp; omega),arrayBytes,List.length_map,List.length_range,hwrite]
    exact hcopy
  have hrsi : patchFrame (initialFrame top userStackTop Sched.userCodeBase 0 0) argc
      (userStackTop-4096) (readField q.image 24 8) .rsi = userStackTop-4096 := by simp [patchFrame]
  rw [hrsi]
  exact ⟨by simp [patchFrame],rfl,laid_of_layArgv hload htables hargc hlay⟩

end

/-- A caller with one page, at `0x1000`: a pointer to `0x1010`, and the string `hi` there. -/
def greeter : ℕ → Option ℕ := fun v => if v = 1 then some 100 else none
def greeterSpace : Space ℕ where
  map _ := none
  inUse f := f = 100
  bytes _ o := if o = 0 ∨ o = 1 then 0x10 else if o = 0x10 then 0x68 else if o = 0x11 then 0x69 else 0

theorem argv_round_trip_hi : ∃ frame t,
    sysExec (bssProgram 1) greeter 0 0x1000 1 greeterSpace = some (frame,t) ∧
    frame .rdi = 1 ∧ frame .rsi = userStackTop-4096 ∧
      ∃ addr, ArgvLaid t (frame .rsi) userStackTop 1 (fun _ => [0x68,0x69]) addr := by
  have hrun : ((userStack (bssProgram 1) greeterSpace).bind (elfLoadIntoProcess (bssProgram 1))).map
      (fun u => decide (readPointer greeter u 0x1000 = some 0x1010 ∧
        userByte greeter u 0x1010 = some 0x68 ∧ userByte greeter u 0x1011 = some 0x69 ∧
        userByte greeter u 0x1012 = some 0)) = some true := by decide +kernel
  have hexec : (sysExec (bssProgram 1) greeter 0 0x1000 1 greeterSpace).isSome = true := by decide +kernel
  obtain ⟨u,hu,hd⟩ := Option.map_eq_some_iff.mp hrun
  obtain ⟨hp,h0,h1,h2⟩ := of_decide_eq_true hd
  obtain ⟨⟨frame,t⟩,ht⟩ := Option.isSome_iff_exists.mp hexec
  refine ⟨frame,t,ht,argv_round_trip (bssProgram 1) greeter greeterSpace u t 0 0x1000 1
    (fun _ => [0x68,0x69]) frame (fun _ _ h => by cases h) (fun v f hf => ?_) (fun _ h => by cases h)
    ⟨le_rfl,by decide⟩ hu (fun i hi => ⟨0x1010,?_,⟨fun j hj => ?_,h2,by decide⟩,by decide⟩) ht⟩
  · simp only [greeter] at hf
    split at hf <;> cases hf
    rfl
  · obtain rfl : i = 0 := by omega
    exact hp
  · rcases j with _ | _ | j
    · exact h0
    · exact h1
    · simp at hj

end Child
end DonsOs
