import DonsOs.Lib.PagedBytes
import DonsOs.Memory.Process
import DonsOs.Syscall.Exec

/-! What a new program finds in its memory.
The low half of an address space is a map from pages to frames (`Memory.Space`): mapping a page
changes the map at one page, and the copies go to the frame that the map has for it.  Frames come
from the allocator with whatever they held before.  `Program.content` says, from the image and
the arguments alone, which bytes the pages of the child have, and which bytes nobody writes. -/
namespace DonsOs
namespace Child

open Memory (Image Phdr readField elfValidate phdrs ptLoad pagesFrom stackBottomAnchor)
open Exec (userStackTop)
open PagedBytes (Shows Alike Blind)

abbrev Byte := BitVec 8

/-- The child's pages by number, the frames that are allocated, and what the frames hold. -/
abbrev Space (Frame : Type) := PagedBytes.Space ℕ Frame Byte
abbrev Content := PagedBytes.Content ℕ Byte

/-- The page of an address, by the bits that the tables translate. -/
def pageOf (a : ℕ) : ℕ := a/4096%2^36

/-- The file as read into the buffer and the strings of `argv` with their NULs, with what the
allocator answers: a frame for each page, and whether `vmm_map_page_in_cr3` gets the tables it
needs for a page. -/
structure Program (Frame : Type) where
  image : Image
  args : List (List Byte)
  stackFrame : ℕ → Option Frame
  segmentFrame : ℕ → ℕ → Option Frame
  maps : ℕ → Bool

variable {Frame : Type} [DecidableEq Frame]

/-- A page with the frame that the allocator chooses, which is not in use. -/
def newPage (s : Space Frame) (maps : ℕ → Bool) (v : ℕ) : Option Frame → Option (Frame × Space Frame)
  | none => none
  | some f => if s.inUse f then none else some (f,s.take v f (maps v))

/-- How much of a copy to `base+copied` fits on the page. -/
def chunk (base count copied : ℕ) : ℕ := min (count-copied) (4096-(base+copied)%4096)

theorem chunk_pos (base : ℕ) {count copied : ℕ} (h : copied < count) : 0 < chunk base count copied := by
  have := Nat.mod_lt (base+copied) (show 0 < 4096 by omega)
  rw [chunk]
  omega

theorem chunk_le (base count copied : ℕ) :
    chunk base count copied ≤ count-copied ∧ (base+copied)%4096+chunk base count copied ≤ 4096 := by
  have := Nat.mod_lt (base+copied) (show 0 < 4096 by omega)
  rw [chunk]
  omega

/-- The loop of `elf_load_into_process` and of `safe_copy_to_user_cr3`, page by page; it fails
at a page that is not mapped. -/
def copyOut (s : Space Frame) (base count : ℕ) (src : ℕ → Byte) (copied : ℕ) : Option (Space Frame) :=
  if copied < count then
    match s.map (pageOf ((base+copied)%2^64)) with
    | none => none
    | some f =>
      copyOut (s.store f ((base+copied)%4096) (chunk base count copied) fun j => src (copied+j))
        base count src (copied+chunk base count copied)
  else some s
termination_by count-copied
decreasing_by
  have := chunk_pos base ‹copied < count›
  omega

/-- A page of the user stack in `process_create`. -/
def stackPage (q : Program Frame) (s : Space Frame) (i : ℕ) : Option (Space Frame) :=
  (newPage s q.maps (pageOf (stackBottomAnchor+i*4096)) (q.stackFrame i)).map fun r =>
    r.2.fill r.1 fun _ => 0

def userStack (q : Program Frame) (s : Space Frame) : Option (Space Frame) :=
  (List.range 16).foldlM (stackPage q) s

/-- The `j`th page of segment `i`. -/
def segmentPage (q : Program Frame) (i : ℕ) (ph : Phdr) (s : Space Frame) (j : ℕ) :
    Option (Space Frame) :=
  (newPage s q.maps (pageOf (ph.startPage+j*4096)) (q.segmentFrame i j)).map Prod.snd

def segmentPages (q : Program Frame) (i : ℕ) (ph : Phdr) (s : Space Frame) : Option (Space Frame) :=
  (List.range (pagesFrom ph.startPage ph.endPage).length).foldlM (segmentPage q i ph) s

def loadSegment (q : Program Frame) (i : ℕ) (ph : Phdr) (s : Space Frame) : Option (Space Frame) :=
  (segmentPages q i ph s).bind fun s =>
    (copyOut s ph.pVaddr ph.pFilesz (fun j => q.image ((ph.pOffset+j)%2^64)) 0).bind fun s =>
      copyOut s ((ph.pVaddr+ph.pFilesz)%2^64) (ph.pMemsz-ph.pFilesz) (fun _ => 0) 0

def loadSegments (q : Program Frame) : ℕ → List Phdr → Space Frame → Option (Space Frame)
  | _, [], s => some s
  | i, ph::phs, s =>
    if ph.pType ≠ ptLoad then loadSegments q (i+1) phs s
    else (loadSegment q i ph s).bind (loadSegments q (i+1) phs)

/-- `elf_load_into_process`, which has failed if it returns 0. -/
def elfLoadIntoProcess (q : Program Frame) (s : Space Frame) : Option (Space Frame) :=
  if elfValidate q.image = false then none else
  if readField q.image 24 8 = 0 then none else
  loadSegments q 0 (phdrs q.image) s

/-- The strings of `argv`, from `cursor` on, with their addresses. -/
def writeArgs (s : Space Frame) (cursor : ℕ) : List (List Byte) → Option (List ℕ × Space Frame)
  | [] => some ([],s)
  | arg::args =>
    if userStackTop < cursor+arg.length then none else
    (copyOut s cursor arg.length (fun j => arg.getD j 0) 0).bind fun s =>
      (writeArgs s (cursor+arg.length) args).map fun r => (cursor::r.1,r.2)

/-- A byte of the array of addresses, which ends with a zero. -/
def arrayByte (addrs : List ℕ) (j : ℕ) : Byte := BitVec.ofNat 8 (addrs.getD (j/8) 0/256^(j%8))

def arrayBytes (args : List (List Byte)) : ℕ := (args.length+1)*8

/-- `sys_exec` lays out `argv` at the bottom of the last 4096 bytes of the stack. -/
def layArgv (args : List (List Byte)) (s : Space Frame) : Option (Space Frame) :=
  if args = [] then some s else
  (writeArgs s (userStackTop-4096+arrayBytes args) args).bind fun r =>
    copyOut r.2 (userStackTop-4096) (arrayBytes args) (arrayByte r.1) 0

/-- What `process_create`, `elf_load_into_process` and `sys_exec` do to the memory of the child,
if they succeed. -/
def exec (q : Program Frame) (s : Space Frame) : Option (Space Frame) :=
  (userStack q s).bind fun s => (elfLoadIntoProcess q s).bind (layArgv q.args)

/-! ## What the inputs say -/

/-- The byte `b` at the address `a`. -/
def put (c : Content) (a : ℕ) (b : Byte) : Content :=
  Function.update c (pageOf (a%2^64)) (Function.update (c (pageOf (a%2^64))) (a%4096) (some b))

theorem put_at (c : Content) (a : ℕ) (b : Byte) (v o : ℕ) :
    put c a b v o = if v = pageOf (a%2^64) ∧ o = a%4096 then some b else c v o := by
  rw [put]
  by_cases hv : v = pageOf (a%2^64)
  · subst hv
    by_cases ho : o = a%4096
    · simp [ho]
    · rw [Function.update_self,Function.update_of_ne ho,if_neg fun h => ho h.2]
  · rw [Function.update_of_ne hv,if_neg fun h => hv h.1]

/-- `n` bytes of `src`, from the `i`th on, in order. -/
def write (c : Content) (base : ℕ) (src : ℕ → Byte) : ℕ → ℕ → Content
  | _, 0 => c
  | i, n+1 => write (put c (base+i) (src i)) base src (i+1) n

namespace Program

variable (q : Program Frame)

/-- The pages that are mapped, of those that start at the `n` addresses from `first` on. -/
def mappedFrom (first n : ℕ) : List ℕ :=
  ((List.range n).map fun i => pageOf (first+i*4096)).filter q.maps

def stackPages : List ℕ := q.mappedFrom stackBottomAnchor 16
def segmentPages (ph : Phdr) : List ℕ :=
  q.mappedFrom ph.startPage (pagesFrom ph.startPage ph.endPage).length

def segmentContent (c : Content) (ph : Phdr) : Content :=
  write (write ((q.segmentPages ph).foldl PagedBytes.Content.fresh c) ph.pVaddr
      (fun j => q.image ((ph.pOffset+j)%2^64)) 0 ph.pFilesz)
    ((ph.pVaddr+ph.pFilesz)%2^64) (fun _ => 0) 0 (ph.pMemsz-ph.pFilesz)

/-- The headers of the segments that are loaded. -/
def segments : List Phdr := (phdrs q.image).filter fun ph => ph.pType = ptLoad

end Program

def argsContent (c : Content) (cursor : ℕ) : List (List Byte) → Content
  | [] => c
  | arg::args =>
    argsContent (write c cursor (fun j => arg.getD j 0) 0 arg.length) (cursor+arg.length) args

def argAddrs (cursor : ℕ) : List (List Byte) → List ℕ
  | [] => []
  | arg::args => cursor::argAddrs (cursor+arg.length) args

def argvContent (c : Content) (args : List (List Byte)) : Content :=
  if args = [] then c else
  write (argsContent c (userStackTop-4096+arrayBytes args) args) (userStackTop-4096)
    (arrayByte (argAddrs (userStackTop-4096+arrayBytes args) args)) 0 (arrayBytes args)

namespace Program

variable (q : Program Frame)

/-- The memory of the child: a cleared stack, the segments in order, and `argv`. -/
def content : Content :=
  argvContent (q.segments.foldl q.segmentContent
    (q.stackPages.foldl (fun c v => c.constant v 0) fun _ _ => none)) q.args

/-- The pages that the child gets. -/
def newPages : List ℕ := q.stackPages++q.segments.flatMap q.segmentPages

end Program

/-- The byte at a user address. -/
def shown (c : Content) (a : ℕ) : Option Byte := c (pageOf a) (a%4096)

theorem shown_put (c : Content) {a a' : ℕ} (b : Byte) (ha : a < 2^48) (ha' : a' < 2^48) :
    shown (put c a b) a' = if a' = a then some b else shown c a' := by
  rw [shown,put_at]
  by_cases he : a' = a
  · rw [if_pos he,if_pos ⟨by rw [he,Nat.mod_eq_of_lt (by omega)],by rw [he]⟩]
  · rw [if_neg he,if_neg]
    · rfl
    · rintro ⟨hp,ho⟩
      simp only [pageOf] at hp
      omega

theorem shown_write (c : Content) {base : ℕ} (src : ℕ → Byte) {i n a : ℕ} (hn : base+i+n ≤ 2^48)
    (ha : a < 2^48) :
    shown (write c base src i n) a =
      if base+i ≤ a ∧ a < base+i+n then some (src (a-base)) else shown c a := by
  induction n generalizing c i with
  | zero => rw [write,if_neg (by omega)]
  | succ n ih =>
    rw [write,ih _ (by omega),shown_put c _ (by omega) ha]
    by_cases he : a = base+i
    · rw [if_neg (by omega),if_pos he,if_pos (by omega),he,Nat.add_sub_cancel_left]
    · rw [if_neg he]
      by_cases hin : base+(i+1) ≤ a ∧ a < base+(i+1)+n
      · rw [if_pos hin,if_pos (by omega)]
      · rw [if_neg hin,if_neg (by omega)]

theorem foldl_fresh (c : Content) (vs : List ℕ) (v : ℕ) :
    vs.foldl PagedBytes.Content.fresh c v = if v ∈ vs then fun _ => none else c v := by
  induction vs generalizing c with
  | nil => simp
  | cons w vs ih =>
    rw [List.foldl_cons,ih]
    by_cases hw : v = w
    · simp [hw,PagedBytes.Content.fresh]
    · simp [hw,PagedBytes.Content.fresh]

/-! ## The loader leaves the content -/

section

set_option linter.unusedSectionVars false

variable {q : Program Frame} {s₀ s t : Space Frame} {c : Content} {new : List ℕ}

theorem newPage_some {maps : ℕ → Bool} {v : ℕ} {o : Option Frame} {r : Frame × Space Frame}
    (h : newPage s maps v o = some r) :
    o = some r.1 ∧ s.inUse r.1 = false ∧ r.2 = s.take v r.1 (maps v) := by
  cases o with
  | none => cases h
  | some f =>
    simp only [newPage] at h
    split at h
    · cases h
    · cases h
      exact ⟨rfl,by simpa using ‹¬s.inUse f = true›,rfl⟩

theorem write_add (c : Content) (base : ℕ) (src : ℕ → Byte) (i m n : ℕ) :
    write c base src i (m+n) = write (write c base src i m) base src (i+m) n := by
  induction m generalizing c i with
  | zero => simp [write]
  | succ m ih =>
    rw [show m+1+n = (m+n)+1 by omega,write,write,ih,show i+1+m = i+(m+1) by omega]

theorem write_chunk (c : Content) (base : ℕ) (src : ℕ → Byte) (i n : ℕ)
    (hn : (base+i)%4096+n ≤ 4096) :
    write c base src i n =
      c.store (pageOf ((base+i)%2^64)) ((base+i)%4096) n fun j => src (i+j) := by
  induction n generalizing c i with
  | zero =>
    have hno : ∀ o, ¬((base+i)%4096 ≤ o ∧ o < (base+i)%4096+0) := fun o => by omega
    simp only [write,PagedBytes.Content.store,if_neg (hno _)]
    exact (Function.update_eq_self _ c).symm
  | succ n ih =>
    rw [write]
    by_cases hz : n = 0
    · subst hz
      simp only [write,put,PagedBytes.Content.store]
      congr 1
      funext o
      by_cases ho : o = (base+i)%4096
      · simp [ho]
      · rw [Function.update_of_ne ho,if_neg (by omega)]
    · have hpage : pageOf ((base+(i+1))%2^64) = pageOf ((base+i)%2^64) := by
        simp only [pageOf]
        omega
      have hoff : (base+(i+1))%4096 = (base+i)%4096+1 := by omega
      rw [ih _ (i+1) (by omega),hpage,hoff]
      simp only [put,PagedBytes.Content.store,Function.update_self,Function.update_idem]
      congr 1
      funext o
      by_cases ho : o = (base+i)%4096
      · simp [ho]
      · rw [Function.update_of_ne ho]
        by_cases hin : (base+i)%4096+1 ≤ o ∧ o < (base+i)%4096+1+n
        · rw [if_pos hin,if_pos (by omega),show i+1+(o-((base+i)%4096+1)) = i+(o-(base+i)%4096) by omega]
        · rw [if_neg hin,if_neg (by omega)]

theorem copyOut_shows {base count : ℕ} {src : ℕ → Byte} {copied : ℕ} (h : Shows s₀ s c new)
    (ht : copyOut s base count src copied = some t) :
    Shows s₀ t (write c base src copied (count-copied)) new ∧ t.map = s.map := by
  induction hk : count-copied using Nat.strong_induction_on generalizing s c copied with
  | _ k ih =>
    rw [copyOut] at ht
    split at ht
    · rename_i hlt
      have hpos := chunk_pos base hlt
      obtain ⟨hle,hpage⟩ := chunk_le base count copied
      split at ht
      · cases ht
      · rename_i f hf
        have hstep := h.store hf ((base+copied)%4096) (chunk base count copied) fun j => src (copied+j)
        rw [← write_chunk c base src copied _ hpage] at hstep
        obtain ⟨hshow,hmap⟩ := ih _ (by omega) hstep ht rfl
        refine ⟨?_,hmap⟩
        have hsplit : k = chunk base count copied+(count-(copied+chunk base count copied)) := by omega
        rw [hsplit,write_add]
        exact hshow
    · cases ht
      have hz : k = 0 := by omega
      subst hz
      exact ⟨h,rfl⟩

theorem stackPage_shows {i : ℕ} (h : Shows s₀ s c new) (ht : stackPage q s i = some t) :
    Shows s₀ t (if q.maps (pageOf (stackBottomAnchor+i*4096)) then
        c.constant (pageOf (stackBottomAnchor+i*4096)) 0 else c)
      (new++if q.maps (pageOf (stackBottomAnchor+i*4096)) then [pageOf (stackBottomAnchor+i*4096)] else []) := by
  obtain ⟨r,hr,rfl⟩ := Option.map_eq_some_iff.mp ht
  obtain ⟨-,hf,hr2⟩ := newPage_some hr
  rw [hr2]
  exact h.take_constant hf _ 0

theorem userStack_shows (h : Shows s₀ s c new) (ht : userStack q s = some t) :
    Shows s₀ t (q.stackPages.foldl (fun c v => c.constant v 0) c) (new++q.stackPages) :=
  h.loop stackPage_shows ht

theorem segmentPages_shows {i : ℕ} {ph : Phdr} (h : Shows s₀ s c new)
    (ht : segmentPages q i ph s = some t) :
    Shows s₀ t ((q.segmentPages ph).foldl PagedBytes.Content.fresh c) (new++q.segmentPages ph) := by
  refine h.loop (fun hs hstep => ?_) ht
  obtain ⟨r,hr,rfl⟩ := Option.map_eq_some_iff.mp hstep
  obtain ⟨-,hf,hr2⟩ := newPage_some hr
  rw [hr2]
  exact hs.take hf _

theorem loadSegment_shows {i : ℕ} {ph : Phdr} (h : Shows s₀ s c new)
    (ht : loadSegment q i ph s = some t) :
    Shows s₀ t (q.segmentContent c ph) (new++q.segmentPages ph) := by
  simp only [loadSegment,Option.bind_eq_some_iff] at ht
  obtain ⟨u,hu,w,hw,ht⟩ := ht
  have hpages := segmentPages_shows h hu
  have hfile := (copyOut_shows hpages hw).1
  exact (copyOut_shows hfile ht).1

theorem loadSegments_shows {i : ℕ} {phs : List Phdr} (h : Shows s₀ s c new)
    (ht : loadSegments q i phs s = some t) :
    Shows s₀ t ((phs.filter fun ph => ph.pType = ptLoad).foldl q.segmentContent c)
      (new++(phs.filter fun ph => ph.pType = ptLoad).flatMap q.segmentPages) := by
  induction phs generalizing s c new i with
  | nil =>
    cases ht
    simpa using h
  | cons ph phs ih =>
    simp only [loadSegments] at ht
    split at ht
    · rename_i hp
      simpa [hp] using ih h ht
    · rename_i hp
      obtain ⟨u,hu,ht⟩ := Option.bind_eq_some_iff.mp ht
      simpa [not_not.mp hp] using ih (loadSegment_shows h hu) ht

theorem elfLoadIntoProcess_shows (h : Shows s₀ s c new) (ht : elfLoadIntoProcess q s = some t) :
    Shows s₀ t (q.segments.foldl q.segmentContent c) (new++q.segments.flatMap q.segmentPages) := by
  simp only [elfLoadIntoProcess] at ht
  split at ht
  · cases ht
  · split at ht
    · cases ht
    · exact loadSegments_shows h ht

theorem writeArgs_shows {cursor : ℕ} {args : List (List Byte)} {r : List ℕ × Space Frame}
    (h : Shows s₀ s c new) (ht : writeArgs s cursor args = some r) :
    r.1 = argAddrs cursor args ∧ Shows s₀ r.2 (argsContent c cursor args) new ∧ r.2.map = s.map := by
  induction args generalizing s c cursor r with
  | nil =>
    cases ht
    exact ⟨rfl,h,rfl⟩
  | cons arg args ih =>
    simp only [writeArgs] at ht
    split at ht
    · cases ht
    · simp only [Option.bind_eq_some_iff,Option.map_eq_some_iff] at ht
      obtain ⟨u,hu,r',hr',rfl⟩ := ht
      obtain ⟨hshow,hmap⟩ := copyOut_shows h hu
      obtain ⟨haddr,hshow',hmap'⟩ := ih hshow hr'
      exact ⟨by rw [haddr,argAddrs],hshow',hmap'.trans hmap⟩

theorem layArgv_shows {args : List (List Byte)} (h : Shows s₀ s c new)
    (ht : layArgv args s = some t) : Shows s₀ t (argvContent c args) new ∧ t.map = s.map := by
  simp only [layArgv] at ht
  split at ht
  · rename_i hnil
    cases ht
    exact ⟨by rwa [argvContent,if_pos hnil],rfl⟩
  · rename_i hcons
    obtain ⟨r,hr,ht⟩ := Option.bind_eq_some_iff.mp ht
    obtain ⟨haddr,hargs,hmap⟩ := writeArgs_shows h hr
    obtain ⟨hshow,hmap'⟩ := copyOut_shows hargs ht
    rw [argvContent,if_neg hcons,← haddr]
    exact ⟨hshow,hmap'.trans hmap⟩

theorem exec_shows (hs : ∀ v f, s.map v = some f → s.inUse f = true) (ht : exec q s = some t) :
    Shows s t q.content q.newPages := by
  simp only [exec,Option.bind_eq_some_iff] at ht
  obtain ⟨u,hu,w,hw,ht⟩ := ht
  have hstack := userStack_shows (Shows.refl hs fun _ _ => none) hu
  have hload := elfLoadIntoProcess_shows hstack hw
  exact (layArgv_shows hload ht).1

end

end Child
end DonsOs
