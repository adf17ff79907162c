import DonsOs.Lib.Pool
import DonsOs.Memory.Process
import DonsOs.Sched.Books
import DonsOs.Syscall.Files

/-! What `sys_exec` holds on to.
The call takes a file, a heap buffer, a PCB with its kernel stack, user frames and a list of
them, in that order, and has an error exit after each.  What the allocators, FatFs and the
copies to and from user memory return is part of the request, at every point of the call; an
allocator may return anything that is not live, or nothing.  What is done to the process table
is what `Sched.Table` has. -/
namespace DonsOs
namespace Exec

open Sched Files
open Memory (Image Phdr readField elfValidate phdrs ptLoad pagesFrom)

/-- What is returned where a user page is allocated: a frame from `pmm_alloc_page`, and a block
from `kmalloc` should `elf_page_list` need one. -/
structure PageOutcome (Addr Frame : Type) where
  frame : Option Frame
  listAt : Option Addr

/-- One string of `user_argv`: whether its pointer and its text can be read, its length with the
NUL, and whether it can be written to the child. -/
structure Argument where
  pointer : Bool
  string : Bool
  length : ℕ
  written : Bool

/-- A call of `sys_exec`, with what the outside answers.  `path` and `argv` say whether the
pointer is not `NULL`; `ehdr` is the header as read first and `image` the whole file as read
into the buffer; `loaded i` says whether the bytes of segment `i` find their pages mapped. -/
structure Request (Addr Frame : Type) where
  path : Bool
  argc : ℤ
  argv : Bool
  pathCopied : Bool
  fOpen : Bool
  headerRead : Outcome
  ehdr : Image
  seekPhdrs : Bool
  phdrsRead : Outcome
  fileSize : ℕ
  bufAt : Option Addr
  rewind : Bool
  body : ℕ → Outcome
  image : Image
  stackPage : ℕ → PageOutcome Addr Frame
  segmentPage : ℕ → ℕ → PageOutcome Addr Frame
  loaded : ℕ → Bool
  argument : ℕ → Argument
  arrayWritten : Bool

/-- `openFiles` counts the files that are open; `pages p` are the first `elf_num_pages` entries
of `elf_page_list`. -/
structure Machine (Addr Frame : Type) where
  table : Table
  heap : Pool Addr
  frames : Pool Frame
  pageList : Slot → Option Addr
  pages : Slot → List Frame
  openFiles : ℕ

def execMaxArgc : ℤ := 16
def execMaxPhdrs : ℕ := 16
def userStackTop : ℕ := 0x80000FFFE0

namespace Request

variable {Addr Frame : Type} (q : Request Addr Frame)

/-- The checks of `sys_exec` before it opens the file. -/
def argsOk : Bool :=
  q.path ∧ 0 ≤ q.argc ∧ q.argc ≤ execMaxArgc ∧ (0 < q.argc → q.argv) ∧ q.pathCopied

/-- The checks on the open file up to its size: each of them closes the file and fails. -/
def fileOk : Bool :=
  (q.headerRead.ok ∧ q.headerRead.bytes = 64) ∧
  (elfValidate q.ehdr ∧ readField q.ehdr 16 2 = 2 ∧ readField q.ehdr 18 2 = 62) ∧
  (readField q.ehdr 54 2 = 56 ∧ readField q.ehdr 56 2 ≠ 0 ∧
    readField q.ehdr 56 2 ≤ execMaxPhdrs) ∧
  readField q.ehdr 32 8 ≤ 0xFFFFFFFF ∧ q.seekPhdrs ∧
  (q.phdrsRead.ok ∧ q.phdrsRead.bytes = readField q.ehdr 56 2*56) ∧
  q.fileSize ≠ 0 ∧ q.fileSize ≤ 4*1024*1024

/-- The loop that reads the file in pieces of 4096 bytes, from `total` on: how much it has read
in the end, or nothing on an error. -/
def readBody (total : ℕ) : Option ℕ :=
  if total < q.fileSize then
    if (q.body total).ok = false then none
    else if (q.body total).bytes = 0 then some total
    else readBody (total+(q.body total).bytes)
  else some total
termination_by q.fileSize-total

/-- The loop over `user_argv` and the copy of the array, once `cursor` is reached. -/
def argvFrom (cursor : ℕ) : List ℕ → Bool
  | [] => q.arrayWritten
  | i::is =>
    if (q.argument i).pointer = false ∨ (q.argument i).string = false then false
    else if userStackTop < cursor+(q.argument i).length then false
    else if (q.argument i).written = false then false
    else argvFrom (cursor+(q.argument i).length) is

/-- Whether `argv` can be laid out on the child's stack. -/
def argvOk : Bool :=
  if 0 < q.argc then
    q.argvFrom (userStackTop-4096+(q.argc.toNat+1)*8) (List.range q.argc.toNat)
  else true

/-- The pages of the user stack and of segment `i`, in the order they are allocated. -/
def stackPages : List (PageOutcome Addr Frame) := (List.range 16).map q.stackPage
def segmentPages (i : ℕ) (ph : Phdr) : List (PageOutcome Addr Frame) :=
  (List.range (pagesFrom ph.startPage ph.endPage).length).map (q.segmentPage i)

end Request

variable {Addr Frame : Type} [DecidableEq Addr] [DecidableEq Frame]

namespace Machine

def kmalloc (m : Machine Addr Frame) (a : Addr) : Option (Machine Addr Frame) :=
  (m.heap.alloc a).map fun heap => { m with heap := heap }
def kfree (m : Machine Addr Frame) (a : Addr) : Machine Addr Frame :=
  { m with heap := m.heap.free a }
def fOpen (m : Machine Addr Frame) : Machine Addr Frame := { m with openFiles := m.openFiles+1 }
def fClose (m : Machine Addr Frame) : Machine Addr Frame := { m with openFiles := m.openFiles-1 }

def setList (m : Machine Addr Frame) (p : Slot) (a : Option Addr) (pages : List Frame) :
    Machine Addr Frame :=
  { m with pageList := Function.update m.pageList p a, pages := Function.update m.pages p pages }

/-- `elf_add_page_to_pcb`, the list having room for 64 pages at a time. -/
def elfAddPageToPcb (m : Machine Addr Frame) (p : Slot) (f : Frame) (listAt : Option Addr) :
    Option (Machine Addr Frame) :=
  match m.pageList p with
  | none =>
    match listAt with
    | none => some m
    | some a => (m.kmalloc a).map fun m => m.setList p (some a) [f]
  | some old =>
    if f ∈ m.pages p then some m
    else if (m.pages p).length%64 = 0 ∧ 0 < (m.pages p).length then
      match listAt with
      | none => some m
      | some a => (m.kmalloc a).map fun m => (m.kfree old).setList p (some a) (m.pages p++[f])
    else some (m.setList p (some old) (m.pages p++[f]))

/-- A page of the stack or of a segment; false if there is no frame. -/
def takePage (m : Machine Addr Frame) (p : Slot) (o : PageOutcome Addr Frame) :
    Option (Bool × Machine Addr Frame) :=
  match o.frame with
  | none => some (false,m)
  | some f => (m.frames.alloc f).bind fun frames =>
      (elfAddPageToPcb { m with frames := frames } p f o.listAt).map fun m => (true,m)

def takePages (m : Machine Addr Frame) (p : Slot) : List (PageOutcome Addr Frame) →
    Option (Bool × Machine Addr Frame)
  | [] => some (true,m)
  | o::os => (m.takePage p o).bind fun r => if r.1 then r.2.takePages p os else some r

/-- `process_create` for a user program. -/
def processCreate (m : Machine Addr Frame) (q : Request Addr Frame) :
    Option (Option Slot × Machine Addr Frame) :=
  match getFreePcb m.table.kernel with
  | none => some (none,m)
  | some p => ((m.setList p none []).takePages p q.stackPages).map fun r =>
      let made := m.table.processCreate userCodeBase r.1
      (made.1,{ r.2 with table := made.2 })

/-- The loop of `elf_load_into_process`, from program header `i` on. -/
def loadSegments (m : Machine Addr Frame) (p : Slot) (q : Request Addr Frame) :
    ℕ → List Phdr → Option (Bool × Machine Addr Frame)
  | _, [] => some (true,m)
  | i, ph::phs =>
    if ph.pType ≠ ptLoad then loadSegments m p q (i+1) phs else
    (m.takePages p (q.segmentPages i ph)).bind fun r =>
      if r.1 = false then some r
      else if q.loaded i = false then some (false,r.2)
      else loadSegments r.2 p q (i+1) phs

/-- `elf_load_into_process`, with the entry point it returns or 0. -/
def elfLoadIntoProcess (m : Machine Addr Frame) (p : Slot) (q : Request Addr Frame) :
    Option (ℕ × Machine Addr Frame) :=
  if elfValidate q.image = false then some (0,m) else
  (m.loadSegments p q 0 (phdrs q.image)).map fun r =>
    (if r.1 then readField q.image 24 8 else 0,r.2)

def processCleanupElfPages (m : Machine Addr Frame) (p : Slot) : Machine Addr Frame :=
  match m.pageList p with
  | none => m
  | some list =>
    ({ m with frames := (m.pages p).foldl Pool.free m.frames }.kfree list).setList p none []

def processDestroy (m : Machine Addr Frame) (p : Slot) : Machine Addr Frame :=
  if m.table.kernel.state p = .unused then m else
  { m.processCleanupElfPages p with table := m.table.processDestroy p }

/-- `sys_exec` from the open file to its last `f_close`, with the buffer that holds the file. -/
def readImage (m : Machine Addr Frame) (q : Request Addr Frame) :
    Option (Option Addr × Machine Addr Frame) :=
  if q.fileOk = false then some (none,m.fClose) else
  match q.bufAt with
  | none => some (none,m.fClose)
  | some buf => (m.kmalloc buf).map fun m =>
    if q.rewind = false then (none,(m.kfree buf).fClose) else
    match q.readBody 0 with
    | none => (none,(m.kfree buf).fClose)
    | some total => if total ≠ q.fileSize then (none,m.fClose.kfree buf) else (some buf,m.fClose)

/-- The child is given its entry point and parent and put on the queue. -/
def launch (m : Machine Addr Frame) (self child : Slot) (entry : ℕ) : Machine Addr Frame :=
  let k := m.table.kernel.modify child fun c =>
    { c with entryPoint := entry, parentPid := m.table.kernel.pid self }
  { m with table := { m.table with kernel := readyQueueAdd { k with kbd := 0 } child } }

/-- `sys_exec` once the file is in the buffer. -/
def spawn (m : Machine Addr Frame) (self : Slot) (q : Request Addr Frame) (buf : Addr) :
    Option (ℤ × Machine Addr Frame) :=
  (m.processCreate q).bind fun r =>
    match r.1 with
    | none => some (-1,r.2.kfree buf)
    | some child =>
      let m := { r.2 with
        table := { r.2.table with kernel := readyQueueRemove r.2.table.kernel child } }
      (m.elfLoadIntoProcess child q).map fun l =>
        let m := l.2.kfree buf
        if l.1 = 0 then (-1,m.processDestroy child)
        else if q.argvOk = false then (-1,m.processDestroy child)
        else ((m.table.kernel.pid child : ℤ),m.launch self child l.1)

def sysExec (m : Machine Addr Frame) (q : Request Addr Frame) : Option (ℤ × Machine Addr Frame) :=
  match m.table.kernel.procCurrent with
  | none => some (-1,m)
  | some self =>
    if q.argsOk = false then some (-1,m) else
    if q.fOpen = false then some (-1,m) else
    (m.fOpen.readImage q).bind fun r =>
      match r.1 with
      | none => some (-1,r.2)
      | some buf => r.2.spawn self q buf

end Machine

/-! ## The pages of the child -/

/-- How many pages are on the list, and which frames could not be put on it, after the pages
`os`: a list of a multiple of 64 pages has to be allocated anew. -/
def tally (c : ℕ × List Frame) : List (PageOutcome Addr Frame) → ℕ × List Frame
  | [] => c
  | o::os =>
    match o.frame with
    | none => c
    | some f =>
      if c.1%64 = 0 ∧ o.listAt.isNone then tally (c.1,f::c.2) os else tally (c.1+1,c.2) os

def granted (os : List (PageOutcome Addr Frame)) : Bool := os.all fun o => o.frame.isSome

/-- The same after the segments from program header `i` on. -/
def Request.loadTally (q : Request Addr Frame) (c : ℕ × List Frame) : ℕ → List Phdr → ℕ × List Frame
  | _, [] => c
  | i, ph::phs =>
    if ph.pType ≠ ptLoad then q.loadTally c (i+1) phs
    else if granted (q.segmentPages i ph) ∧ q.loaded i then
      q.loadTally (tally c (q.segmentPages i ph)) (i+1) phs
    else tally c (q.segmentPages i ph)

/-- The frames that the request leaves off the child's list for want of a block. -/
def Request.leftOff (q : Request Addr Frame) : List Frame :=
  if elfValidate q.image then
    (q.loadTally (tally (0,[]) q.stackPages) 0 (phdrs q.image)).2
  else (tally (0,[]) q.stackPages).2

/-- The child `p` of `m` holds what was allocated since `b`, but for the blocks `bufs` and the
frames `c.2`. -/
structure Carries (b m : Machine Addr Frame) (p : Slot) (bufs : List Addr) (c : ℕ × List Frame) :
    Prop where
  heap : Pool.Beyond b.heap.live m.heap ((m.pageList p).toList++bufs)
  frames : Pool.Beyond b.frames.live m.frames (m.pages p++c.2)
  count : (m.pages p).length = c.1
  listed : m.pageList p = none ↔ m.pages p = []

section

set_option linter.unusedSectionVars false

variable {b m m' : Machine Addr Frame} {p : Slot} {bufs : List Addr} {c : ℕ × List Frame}
  {f : Frame} {a : Addr} {q : Request Addr Frame}

theorem kmalloc_some (h : m.kmalloc a = some m') :
    m.heap.alloc a = some m'.heap ∧ m' = { m with heap := m'.heap } := by
  simp only [Machine.kmalloc,Option.map_eq_some_iff] at h
  obtain ⟨heap,hh,rfl⟩ := h
  exact ⟨hh,rfl⟩

section
variable (h : Carries b m p bufs c) {frames : Pool Frame} (hf : m.frames.alloc f = some frames)
include h hf

theorem Carries.listPage {heap : Pool Addr} (hh : Pool.Beyond b.heap.live heap (a::bufs)) :
    Carries b (({ m with frames := frames, heap := heap }).setList p (some a) (m.pages p++[f])) p
      bufs (c.1+1,c.2) := by
  refine ⟨?_,?_,?_,?_⟩
  · simpa [Machine.setList] using hh
  · have hperm : (f::(m.pages p++c.2)).Perm (m.pages p++[f]++c.2) := by
      rw [List.append_assoc]
      exact List.perm_middle.symm
    simpa [Machine.setList] using (h.frames.alloc hf).perm hperm
  · simp [Machine.setList,h.count]
  · simp [Machine.setList]

theorem Carries.losePage : Carries b { m with frames := frames } p bufs (c.1,f::c.2) :=
  ⟨h.heap,(h.frames.alloc hf).perm List.perm_middle.symm,h.count,h.listed⟩

theorem Carries.addPage {listAt : Option Addr}
    (hr : Machine.elfAddPageToPcb { m with frames := frames } p f listAt = some m') :
    m'.table = m.table ∧ m'.openFiles = m.openFiles ∧
      Carries b m' p bufs
        (if c.1%64 = 0 ∧ listAt.isNone then (c.1,f::c.2) else (c.1+1,c.2)) := by
  have hfresh : f ∉ m.pages p := fun hm => (h.frames.fresh hf).2 (List.mem_append_left _ hm)
  have hheap := h.heap
  simp only [Machine.elfAddPageToPcb] at hr
  cases hl : m.pageList p with
  | none =>
    have hnil := h.listed.mp hl
    have hcount : c.1 = 0 := by rw [← h.count,hnil,List.length_nil]
    rw [hl] at hr hheap
    cases listAt with
    | none =>
      cases hr
      simpa [hcount] using h.losePage hf
    | some a =>
      obtain ⟨m₁,hm₁,rfl⟩ := Option.map_eq_some_iff.mp hr
      obtain ⟨ha,hm₁⟩ := kmalloc_some hm₁
      have hpage := h.listPage hf (hheap.alloc ha)
      rw [hnil,List.nil_append] at hpage
      rw [hm₁]
      exact ⟨rfl,rfl,by simpa using hpage⟩
  | some old =>
    rw [hl] at hr hheap
    simp only [hfresh,if_false] at hr
    have hpos : 0 < c.1 := by
      rw [← h.count]
      refine List.length_pos_iff.mpr fun hnil => ?_
      rw [h.listed.mpr hnil] at hl
      cases hl
    rw [h.count] at hr
    by_cases hfull : c.1%64 = 0
    · rw [if_pos ⟨hfull,hpos⟩] at hr
      cases listAt with
      | none =>
        cases hr
        simpa [hfull] using h.losePage hf
      | some a =>
        obtain ⟨m₁,hm₁,rfl⟩ := Option.map_eq_some_iff.mp hr
        obtain ⟨ha,hm₁⟩ := kmalloc_some hm₁
        -- the new list is allocated before the old one is freed
        have hnew := ((hheap.alloc ha).perm (List.Perm.swap old a bufs)).free
        have hpage := h.listPage hf hnew
        rw [hm₁]
        exact ⟨rfl,rfl,by simpa [Machine.kfree] using hpage⟩
    · rw [if_neg fun hc => hfull hc.1] at hr
      cases hr
      have hpage := h.listPage hf hheap
      exact ⟨rfl,rfl,by simpa [hfull] using hpage⟩

end

theorem Carries.takePages {os : List (PageOutcome Addr Frame)} (h : Carries b m p bufs c)
    {ok : Bool} (hr : m.takePages p os = some (ok,m')) :
    m'.table = m.table ∧ m'.openFiles = m.openFiles ∧ ok = granted os ∧
      Carries b m' p bufs (tally c os) := by
  induction os generalizing m c with
  | nil =>
    cases hr
    exact ⟨rfl,rfl,rfl,h⟩
  | cons o os ih =>
    obtain ⟨r,hpage,hr⟩ := Option.bind_eq_some_iff.mp hr
    simp only [Machine.takePage] at hpage
    cases hf : o.frame with
    | none =>
      rw [hf] at hpage
      cases hpage
      cases hr
      exact ⟨rfl,rfl,by simp [granted,hf],by simpa [tally,hf] using h⟩
    | some f =>
      rw [hf] at hpage
      obtain ⟨frames,hframes,hpage⟩ := Option.bind_eq_some_iff.mp hpage
      obtain ⟨m₁,hadd,rfl⟩ := Option.map_eq_some_iff.mp hpage
      obtain ⟨ht,ho,hc⟩ := h.addPage hframes hadd
      obtain ⟨ht',ho',hok,hc'⟩ := ih hc hr
      refine ⟨ht'.trans ht,ho'.trans ho,by rw [hok]; simp [granted,hf],?_⟩
      simp only [tally,hf]
      split
      · rename_i hcond
        rwa [if_pos hcond] at hc'
      · rename_i hcond
        rwa [if_neg hcond] at hc'

theorem Carries.loadSegments {phs : List Phdr} {i : ℕ} (h : Carries b m p bufs c) {ok : Bool}
    (hr : m.loadSegments p q i phs = some (ok,m')) :
    m'.table = m.table ∧ m'.openFiles = m.openFiles ∧
      Carries b m' p bufs (q.loadTally c i phs) := by
  induction phs generalizing m c i with
  | nil =>
    cases hr
    exact ⟨rfl,rfl,h⟩
  | cons ph phs ih =>
    simp only [Machine.loadSegments] at hr
    simp only [Request.loadTally]
    split at hr
    · rename_i htype
      rw [if_pos htype]
      exact ih h hr
    · rename_i htype
      rw [if_neg htype]
      obtain ⟨⟨okp,m₁⟩,hpages,hr⟩ := Option.bind_eq_some_iff.mp hr
      obtain ⟨ht,ho,hok,hc⟩ := h.takePages hpages
      split at hr
      · rename_i hno
        cases hr
        have hg : granted (q.segmentPages i ph) = false := hok ▸ hno
        rw [if_neg (by simp [hg])]
        exact ⟨ht,ho,hc⟩
      · rename_i hyes
        split at hr
        · rename_i hno
          cases hr
          rw [if_neg (by simp [hno])]
          exact ⟨ht,ho,hc⟩
        · rename_i hloaded
          have hg : granted (q.segmentPages i ph) = true := by
            rw [← hok]
            simpa using hyes
          obtain ⟨ht',ho',hc'⟩ := ih hc hr
          rw [if_pos ⟨hg,by simpa using hloaded⟩]
          exact ⟨ht'.trans ht,ho'.trans ho,hc'⟩

theorem Carries.load (h : Carries b m p bufs (tally (0,[]) q.stackPages)) {entry : ℕ}
    (hr : m.elfLoadIntoProcess p q = some (entry,m')) :
    m'.table = m.table ∧ m'.openFiles = m.openFiles ∧
      ∃ n,Carries b m' p bufs (n,q.leftOff) := by
  simp only [Machine.elfLoadIntoProcess] at hr
  simp only [Request.leftOff]
  split at hr
  · rename_i hno
    cases hr
    rw [hno,if_neg (by simp)]
    exact ⟨rfl,rfl,_,h⟩
  · rename_i hyes
    obtain ⟨⟨ok,m₁⟩,hload,he⟩ := Option.map_eq_some_iff.mp hr
    cases he
    obtain ⟨ht,ho,hc⟩ := h.loadSegments hload
    rw [if_pos (by simpa using hyes)]
    exact ⟨ht,ho,_,hc⟩

theorem Carries.cleanup (h : Carries b m p bufs c) :
    Pool.Beyond b.heap.live (m.processCleanupElfPages p).heap bufs ∧
      Pool.Beyond b.frames.live (m.processCleanupElfPages p).frames c.2 := by
  have hheap := h.heap
  have hframes := h.frames
  cases hl : m.pageList p with
  | none =>
    have he : m.processCleanupElfPages p = m := by simp only [Machine.processCleanupElfPages,hl]
    rw [hl] at hheap
    rw [h.listed.mp hl] at hframes
    rw [he]
    exact ⟨hheap,hframes⟩
  | some list =>
    rw [hl] at hheap
    simp only [Machine.processCleanupElfPages,hl]
    exact ⟨hheap.free,hframes.freeAll⟩

theorem cleanup_openFiles : (m.processCleanupElfPages p).openFiles = m.openFiles := by
  simp only [Machine.processCleanupElfPages]
  split <;> rfl

end

/-! ## The process table -/

section

variable {S : ProcState → Prop} {t : Table} {xs : List Slot} {p : Slot}

/-- A child that is created, dequeued and destroyed leaves the process table as it was. -/
theorem exec_undone (w : Waiting S) (hq : Queued S t.kernel xs) (hf : getFreePcb t.kernel = some p)
    {i : StackSlot} {t' : Table} (ht : t' =
      ({ ((t.started p userCodeBase).give i p).stacked p i with
        kernel := readyQueueRemove (((t.started p userCodeBase).give i p).stacked p i).kernel p } :
        Table).processDestroy p) :
    t'.kernel.used = t.kernel.used ∧ t'.processCount = t.processCount ∧
      t'.kernel.queue = t.kernel.queue := by
  have hu := getFreePcb_spec hf
  have hp : p ∉ xs := hq.not_mem (by rw [hu]; exact w.notUnused)
  have hloading : readyQueueRemove (((t.started p userCodeBase).give i p).stacked p i).kernel p =
      loading t.kernel p := by
    simp only [Table.stacked,Table.give,Table.started_kernel hq hp,wipe_created hq hp,loading]
  rw [hloading] at ht
  have hk : t'.kernel = Sched.processDestroy (loading t.kernel p) p := by
    rw [ht,Table.processDestroy_kernel]
  refine ⟨?_,?_,?_⟩
  · ext r
    rw [mem_used,mem_used,hk]
    by_cases hr : r = p
    · subst hr
      simp [Sched.processDestroy,hu]
      split <;> simp
    · simp [Sched.processDestroy]
      split <;> simp [hr]
  · rw [ht]
    simp [Table.processDestroy,Table.countDown,Table.stacked,Table.give,Table.started,
      Table.processInitializePcb,Table.countUp]
  · rw [hk,((hq.loading w hp).destroy hp).queue,hq.queue]

end

/-! ## The call -/

/-- What a failed `sys_exec` should leave: the PCBs in use, their number, the ready queue, the
live heap blocks, the user frames and the open files. -/
structure Unchanged (m m' : Machine Addr Frame) : Prop where
  used : m'.table.kernel.used = m.table.kernel.used
  processCount : m'.table.processCount = m.table.processCount
  queue : m'.table.kernel.queue = m.table.kernel.queue
  heap : m'.heap.live = m.heap.live
  frames : m'.frames.live = m.frames.live
  openFiles : m'.openFiles = m.openFiles

/-- Whether the file can be read into a buffer and passes the checks on the way. -/
def Request.readable (q : Request Addr Frame) : Bool :=
  q.fileOk ∧ q.bufAt ≠ none ∧ q.rewind ∧ q.readBody 0 = some q.fileSize

/-- Whether the call gets to take a PCB for the child. -/
def Request.takesPcb (q : Request Addr Frame) (k : Kernel) : Bool :=
  k.procCurrent ≠ none ∧ q.argsOk ∧ q.fOpen ∧ q.readable ∧ getFreePcb k ≠ none

section

set_option linter.unusedSectionVars false

variable {b m m' : Machine Addr Frame} {q : Request Addr Frame} {buf : Addr}

theorem Unchanged.of_table (ht : m'.table = m.table) (hh : m'.heap.live = m.heap.live)
    (hf : m'.frames.live = m.frames.live) (ho : m'.openFiles = m.openFiles) : Unchanged m m' :=
  ⟨by rw [ht],by rw [ht],by rw [ht],hh,hf,ho⟩

/-- The file is closed in any case, and the buffer is kept only with the whole file in it. -/
theorem readImage_cases {r : Option Addr} (hr : m.fOpen.readImage q = some (r,m')) :
    (r = none ∧ q.readable = false ∧ Unchanged m m') ∨
      ∃ buf heap, r = some buf ∧ q.readable = true ∧ m.heap.alloc buf = some heap ∧
        m' = { m with heap := heap } := by
  have hclosed : Unchanged m m.fOpen.fClose := Unchanged.of_table rfl rfl rfl rfl
  simp only [Machine.readImage] at hr
  split at hr
  · rename_i hno
    cases hr
    exact Or.inl ⟨rfl,by simp [Request.readable,hno],hclosed⟩
  · rename_i hok
    split at hr
    · rename_i hno
      cases hr
      exact Or.inl ⟨rfl,by simp [Request.readable,hno],hclosed⟩
    · rename_i buf hbuf
      obtain ⟨m₁,hm₁,he⟩ := Option.map_eq_some_iff.mp hr
      obtain ⟨ha,hm₁⟩ := kmalloc_some hm₁
      have hback : (m₁.heap.free buf).live = m.heap.live := Pool.live_borrow ha
      rw [hm₁] at he
      split at he
      · rename_i hno
        cases he
        exact Or.inl ⟨rfl,by simp [Request.readable,hno],Unchanged.of_table rfl hback rfl rfl⟩
      · rename_i hrewind
        split at he
        · rename_i hno
          cases he
          exact Or.inl ⟨rfl,by simp [Request.readable,hno],Unchanged.of_table rfl hback rfl rfl⟩
        · rename_i total htotal
          split at he
          · rename_i hno
            cases he
            exact Or.inl ⟨rfl,by simp [Request.readable,htotal,hno],
              Unchanged.of_table rfl hback rfl rfl⟩
          · rename_i hall
            cases he
            refine Or.inr ⟨buf,_,rfl,?_,ha,rfl⟩
            simp only [not_not,Bool.not_eq_false] at hok hrewind hall
            simp [Request.readable,hok,hbuf,hrewind,htotal,hall]

variable {S : ProcState → Prop} {xs : List Slot} {self : Slot}

/-- `process_create` with a free PCB: without a page for the user stack it fails and keeps all it
has; a kernel stack is always there. -/
theorem processCreate_cases (hb : Table.Books m.table) {p : Slot}
    (hf : getFreePcb m.table.kernel = some p) (hheap : Pool.Beyond b.heap.live m.heap [buf])
    (hframes : m.frames = b.frames) {r : Option Slot} (hr : m.processCreate q = some (r,m')) :
    m'.openFiles = m.openFiles ∧ Carries b m' p [buf] (tally (0,[]) q.stackPages) ∧
      (granted q.stackPages = false ∧ r = none ∧ m'.table = m.table.started p userCodeBase ∨
        granted q.stackPages = true ∧ r = some p ∧ ∃ i, m'.table =
          ((m.table.started p userCodeBase).give i p).stacked p i) := by
  simp only [Machine.processCreate,hf] at hr
  obtain ⟨⟨ok,m₁⟩,hpages,he⟩ := Option.map_eq_some_iff.mp hr
  have hstart : Carries b (m.setList p none []) p [buf] (0,[]) := by
    refine ⟨?_,?_,?_,?_⟩
    · simpa [Machine.setList] using hheap
    · have hrefl := Pool.Beyond.refl b.frames
      rw [← hframes] at hrefl ⊢
      simpa [Machine.setList] using hrefl
    · simp [Machine.setList]
    · simp [Machine.setList]
  obtain ⟨-,ho,hok,hc⟩ := hstart.takePages hpages
  cases he
  refine ⟨ho,⟨hc.heap,hc.frames,hc.count,hc.listed⟩,?_⟩
  have halloc : m.table.alloc userCodeBase ok = .noUserStack ↔ ok = false := by
    have hbase : userCodeBase ≠ 0 ∧ userCodeBase < kernelBase := by decide
    cases ok with
    | false => simp [Table.alloc,hbase]
    | true =>
      rw [Table.alloc,if_neg (by simp)]
      split <;> simp
  rcases m.table.create_cases userCodeBase ok with ⟨hnone,-⟩ | ⟨p',hf',hcases⟩
  · rw [hf] at hnone
    cases hnone
  · obtain rfl : p = p' := Option.some.inj (hf.symm.trans hf')
    rcases hcases with ⟨ha,hmade⟩ | ⟨-,hno,-⟩ | ⟨ha,i,-,hmade⟩
    · exact Or.inl ⟨hok ▸ halloc.mp ha,by rw [hmade],by rw [hmade]⟩
    · obtain ⟨i,hi⟩ := hb.slot_left (getFreePcb_spec hf)
      exact absurd hi (hno i)
    · have hyes : ok = true := by
        by_contra hno
        rw [halloc.mpr (by simpa using hno)] at ha
        cases ha
      exact Or.inr ⟨hok ▸ hyes,by rw [hmade],i,by rw [hmade]⟩

/-- What is left of a child that is destroyed after its pages have been loaded. -/
theorem Carries.destroyed {p : Slot} {n : ℕ} {lost : List Frame}
    (h : Carries b m p [buf] (n,lost)) (hstate : m.table.kernel.state p ≠ .unused) :
    ((m.kfree buf).processDestroy p).table = m.table.processDestroy p ∧
    ((m.kfree buf).processDestroy p).heap.live = b.heap.live ∧
    Pool.Beyond b.frames.live ((m.kfree buf).processDestroy p).frames lost ∧
    ((m.kfree buf).processDestroy p).openFiles = m.openFiles := by
  have hheap := h.heap.perm (List.perm_append_singleton buf _)
  have hfreed : Carries b (m.kfree buf) p [] (n,lost) :=
    ⟨by simpa [Machine.kfree] using hheap.free,h.frames,h.count,h.listed⟩
  have hclean := hfreed.cleanup
  have hne : (m.kfree buf).table.kernel.state p ≠ .unused := hstate
  simp only [Machine.processDestroy,if_neg hne]
  exact ⟨rfl,hclean.1.live_eq,hclean.2,cleanup_openFiles⟩

/-- With a PCB taken, the call can undo itself if the user stack was had and no page is missing
from the child's list. -/
theorem spawn_fails (w : Waiting S) (hq : Queued S m.table.kernel xs) (hb : Table.Books m.table)
    {p : Slot} (hf : getFreePcb m.table.kernel = some p) {heap : Pool Addr}
    (ha : m.heap.alloc buf = some heap)
    (hr : Machine.spawn { m with heap := heap } self q buf = some (-1,m')) :
    Unchanged m m' ↔ granted q.stackPages = true ∧ q.leftOff = [] := by
  have hu := getFreePcb_spec hf
  have hp : p ∉ xs := hq.not_mem (by rw [hu]; exact w.notUnused)
  simp only [Machine.spawn] at hr
  obtain ⟨⟨r,m₁⟩,hmade,hr⟩ := Option.bind_eq_some_iff.mp hr
  obtain ⟨ho,hc,hcases⟩ := processCreate_cases (b:=m) (m:={ m with heap := heap }) hb hf
    ((Pool.Beyond.refl m.heap).alloc ha) rfl hmade
  rcases hcases with ⟨hno,rfl,ht⟩ | ⟨hyes,rfl,i,ht⟩
  · -- the PCB stays READY
    cases hr
    refine ⟨fun h => ?_,fun h => absurd (hno.symm.trans h.1) (by simp)⟩
    have hmem : p ∈ (m₁.kfree buf).table.kernel.used := by
      rw [mem_used]
      change m₁.table.kernel.state p ≠ .unused
      rw [ht,Table.started_kernel hq hp]
      simp
    rw [h.used,mem_used] at hmem
    exact absurd hu hmem
  · obtain ⟨⟨entry,m₂⟩,hload,he⟩ := Option.map_eq_some_iff.mp hr
    have hc' : Carries m { m₁ with table := { m₁.table with
        kernel := readyQueueRemove m₁.table.kernel p } } p [buf] (tally (0,[]) q.stackPages) :=
      ⟨hc.heap,hc.frames,hc.count,hc.listed⟩
    obtain ⟨ht₂,ho₂,n,hc₂⟩ := hc'.load hload
    -- both error exits destroy the child
    have hend : m' = (m₂.kfree buf).processDestroy p := by
      split at he
      · exact (Prod.mk.inj he).2.symm
      · split at he
        · exact (Prod.mk.inj he).2.symm
        · have hpid := (Prod.mk.inj he).1
          omega
    have hloading : readyQueueRemove m₁.table.kernel p = loading m.table.kernel p := by
      rw [ht]
      simp only [Table.stacked,Table.give,Table.started_kernel hq hp,wipe_created hq hp,loading]
    have hstate : m₂.table.kernel.state p ≠ .unused := by
      rw [ht₂]
      change (readyQueueRemove m₁.table.kernel p).state p ≠ .unused
      rw [hloading]
      simp
    obtain ⟨htab,hheap,hframes,hfiles⟩ := hc₂.destroyed hstate
    rw [hend]
    have hundone : m₂.table.processDestroy p =
        ({ ((m.table.started p userCodeBase).give i p).stacked p i with
          kernel := readyQueueRemove (((m.table.started p userCodeBase).give i p).stacked p i).kernel p } :
          Table).processDestroy p := by
      rw [ht₂,ht]
    obtain ⟨hused,hcount,hqueue⟩ := exec_undone w hq hf hundone
    rw [← htab] at hused hcount hqueue
    constructor
    · intro h
      refine ⟨hyes,?_⟩
      by_contra hne
      obtain ⟨f,hf⟩ := List.exists_mem_of_ne_nil _ hne
      exact hframes.live_ne hf h.frames
    · intro h
      rw [h.2] at hframes
      exact ⟨hused,hcount,hqueue,hheap,hframes.live_eq,hfiles.trans (ho₂.trans ho)⟩

end

/-- A `sys_exec` that fails undoes all it has done, unless it has taken a PCB and then finds no
page for the user stack or no block for the list of the child's pages. -/
theorem exec_all_or_nothing {S : ProcState → Prop} (w : Waiting S) {m m' : Machine Addr Frame}
    {xs : List Slot} (hq : Queued S m.table.kernel xs) (hb : Table.Books m.table)
    (q : Request Addr Frame) (hr : m.sysExec q = some (-1,m')) :
    Unchanged m m' ↔
      (q.takesPcb m.table.kernel = true → granted q.stackPages = true ∧ q.leftOff = []) := by
  have hrefl : Unchanged m m := ⟨rfl,rfl,rfl,rfl,rfl,rfl⟩
  simp only [Machine.sysExec] at hr
  split at hr
  · rename_i hno
    cases hr
    exact iff_of_true hrefl fun ht => by simp [Request.takesPcb,hno] at ht
  · rename_i self hself
    split at hr
    · rename_i hno
      cases hr
      exact iff_of_true hrefl fun ht => by simp [Request.takesPcb,hno] at ht
    · rename_i hargs
      split at hr
      · rename_i hno
        cases hr
        exact iff_of_true hrefl fun ht => by simp [Request.takesPcb,hno] at ht
      · rename_i hopen
        obtain ⟨⟨r,m₁⟩,hread,hr⟩ := Option.bind_eq_some_iff.mp hr
        rcases readImage_cases hread with ⟨rfl,hno,hun⟩ | ⟨buf,heap,rfl,hyes,ha,rfl⟩
        · cases hr
          exact iff_of_true hun fun ht => by simp [Request.takesPcb,hno] at ht
        · cases hf : getFreePcb m.table.kernel with
          | none =>
            simp only [Machine.spawn,Machine.processCreate,hf,Option.bind_some] at hr
            cases hr
            refine iff_of_true ?_ fun ht => by simp [Request.takesPcb,hf] at ht
            exact Unchanged.of_table rfl (Pool.live_borrow ha) rfl rfl
          | some p =>
            have ht : q.takesPcb m.table.kernel = true := by
              simp only [Bool.not_eq_false] at hargs hopen
              simp [Request.takesPcb,hself,hargs,hopen,hyes,hf]
            rw [spawn_fails w hq hb hf ha hr]
            exact ⟨fun h _ => h,fun h => h ht⟩

/-! ## Two failures -/

/-- An executable with one segment of one byte, at `0x400000`. -/
def smallElf : Image
  | 0 => 0x7F | 1 => 0x45 | 2 => 0x4C | 3 => 0x46 | 4 => 2 | 5 => 1
  | 16 => 2 | 18 => 62 | 26 => 0x40 | 32 => 64 | 54 => 56 | 56 => 1
  | 64 => 1 | 82 => 0x40 | 104 => 1
  | _ => 0

/-- `exec` of that file where nothing fails, but that `stackPage` and `segmentPage` say which user
pages can be had. -/
def smallExec (stackPage : ℕ → PageOutcome ℕ ℕ) (segmentPage : ℕ → ℕ → PageOutcome ℕ ℕ) :
    Request ℕ ℕ where
  path := true
  argc := 0
  argv := false
  pathCopied := true
  fOpen := true
  headerRead := ⟨true,64,true⟩
  ehdr := smallElf
  seekPhdrs := true
  phdrsRead := ⟨true,56,true⟩
  fileSize := 120
  bufAt := some 0
  rewind := true
  body := fun _ => ⟨true,120,true⟩
  image := smallElf
  stackPage := stackPage
  segmentPage := segmentPage
  loaded := fun _ => true
  argument := fun _ => ⟨true,true,1,true⟩
  arrayWritten := true

/-- Only idle exists, nothing is allocated and no file is open. -/
def bootMachine : Machine ℕ ℕ :=
  ⟨Table.init 0 none,⟨fun _ => false,fun _ => 0,fun _ => 0,false⟩,
    ⟨fun _ => false,fun _ => 0,fun _ => 0,false⟩,fun _ => none,fun _ => [],0⟩

/-- When the second page of the user stack cannot be had, the call fails and leaves a READY
PCB, counted, with the first page and its list. -/
theorem stack_page_failure_leaves_child :
    ∃ m', bootMachine.sysExec (smallExec (fun i => ⟨if i = 0 then some 7 else none,some 1⟩)
        fun _ _ => ⟨none,none⟩) = some (-1,m') ∧
      m'.table.kernel.used ≠ bootMachine.table.kernel.used ∧
      m'.table.processCount ≠ bootMachine.table.processCount ∧
      m'.heap.live 1 = true ∧ m'.frames.live 7 = true := by
  have hrun : (bootMachine.sysExec (smallExec (fun i => ⟨if i = 0 then some 7 else none,some 1⟩)
      fun _ _ => ⟨none,none⟩)).map (fun r => decide (r.1 = -1 ∧
        r.2.table.kernel.used ≠ bootMachine.table.kernel.used ∧
        r.2.table.processCount ≠ bootMachine.table.processCount ∧
        r.2.heap.live 1 = true ∧ r.2.frames.live 7 = true)) = some true := by decide +kernel
  obtain ⟨⟨r,m'⟩,hr,hd⟩ := Option.map_eq_some_iff.mp hrun
  obtain ⟨rfl,hd⟩ := of_decide_eq_true hd
  exact ⟨m',hr,hd⟩

/-- When the page of the segment cannot be had, everything is undone. -/
theorem exec_all_or_nothing_no_segment :
    ∃ m', bootMachine.sysExec (smallExec (fun i => ⟨some i,some 1⟩)
        fun _ _ => ⟨none,none⟩) = some (-1,m') ∧ Unchanged bootMachine m' := by
  have hrun : (bootMachine.sysExec (smallExec (fun i => ⟨some i,some 1⟩)
      fun _ _ => ⟨none,none⟩)).map (fun r => decide (r.1 = -1)) = some true := by decide +kernel
  obtain ⟨⟨r,m'⟩,hr,hd⟩ := Option.map_eq_some_iff.mp hrun
  obtain rfl := of_decide_eq_true hd
  have htidy := Table.init_tidy 0 none
  refine ⟨m',hr,(exec_all_or_nothing waiting_isReady (m:=bootMachine) htidy.sane.queued htidy.books
    _ hr).mpr fun _ => ?_⟩
  decide +kernel

end Exec
end DonsOs
