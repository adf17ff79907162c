import DonsOs.Lib.Pool
import DonsOs.Syscall.Files

/-! The file tables of the processes.
`file_table` holds pointers to heap blocks of type `file_slot_t`, and such a slot points to a
heap block with the `FIL` or `DIR` that FatFs opened.  What `kmalloc`, FatFs and the copies to
and from user memory return is part of the request; `kmalloc` may return any block that is not
live, or none. -/
namespace DonsOs
namespace Descriptors

open Run Files

/-- `slot->kind`; `empty` is the 0 of a slot that is not filled yet, and "any kind" as an
argument of `get_file_slot`. -/
inductive FileKind where
  | empty | file | dir
deriving DecidableEq

structure FileSlot (Addr : Type) where
  kind : FileKind
  obj : Option Addr

/-- What FatFs has made of the block of an object. -/
inductive Opened where
  | closed
  | file (mode : BitVec 8)
  | dir
deriving DecidableEq

def Opened.kind : Opened → FileKind
  | .closed => .empty
  | .file _ => .file
  | .dir => .dir

structure Tables (P Addr : Type) where
  fileTable : P → Fin 8 → Option Addr
  slots : Addr → FileSlot Addr
  objs : Addr → Opened
  heap : Pool Addr
  /-- A FatFs call was given an object that is not open as what the call takes. -/
  misuse : Bool
  /-- The status of the processes that have called `sys_exit`. -/
  exited : P → Option ℤ

variable {P Addr : Type} [DecidableEq P] [DecidableEq Addr]

namespace Tables

def setEntry (s : Tables P Addr) (p : P) (fd : Fin 8) (a : Option Addr) : Tables P Addr :=
  { s with fileTable := Function.update s.fileTable p (Function.update (s.fileTable p) fd a) }

def setSlot (s : Tables P Addr) (a : Addr) (slot : FileSlot Addr) : Tables P Addr :=
  { s with slots := Function.update s.slots a slot }

def setObj (s : Tables P Addr) (o : Addr) (what : Opened) : Tables P Addr :=
  { s with objs := Function.update s.objs o what }

def kmalloc (s : Tables P Addr) (a : Addr) : Option (Tables P Addr) :=
  (s.heap.alloc a).map fun heap => { s with heap := heap }

/-- `kfree`, which ignores `NULL`. -/
def kfree (s : Tables P Addr) : Option Addr → Tables P Addr
  | none => s
  | some a => { s with heap := s.heap.free a }

/-- A FatFs call on the object at `obj`, which has to be open as `kind`. -/
def fUse (s : Tables P Addr) (kind : FileKind) (obj : Option Addr) : Tables P Addr :=
  if obj.map (fun o => (s.objs o).kind) = some kind then s else { s with misuse := true }

/-- `f_close` and `f_closedir`. -/
def fClose (s : Tables P Addr) (kind : FileKind) (obj : Option Addr) : Tables P Addr :=
  let s := s.fUse kind obj
  match obj with
  | none => s
  | some o => s.setObj o .closed

/-! ## The file table helpers -/

/-- The body of the loop of `close_all_files`. -/
def closeEntry (s : Tables P Addr) (p : P) (i : Fin 8) : Tables P Addr :=
  match s.fileTable p i with
  | none => s
  | some a =>
    let slot := s.slots a
    let s := if slot.kind = .empty then s else s.fClose slot.kind slot.obj
    ((s.kfree slot.obj).kfree (some a)).setEntry p i none

def closeAllFiles (s : Tables P Addr) (p : P) : Tables P Addr :=
  [3,4,5,6,7].foldl (fun s i => s.closeEntry p i) s

/-- The first free entry from 3 on. -/
def freeEntry (table : Fin 8 → Option Addr) : Option (Fin 8) :=
  [3,4,5,6,7].find? fun i => (table i).isNone

/-- `alloc_file_slot`, with the block that `kmalloc` returns for the slot; it gives the
descriptor and the slot, or fails. -/
def allocFileSlot (s : Tables P Addr) (p : P) (slotAt : Option Addr) :
    Option (Tables P Addr × Option (Fin 8 × Addr)) :=
  match freeEntry (s.fileTable p),slotAt with
  | none,_ => some (s,none)
  | some _,none => some (s,none)
  | some fd,some a => (s.kmalloc a).map fun s =>
      ((s.setSlot a ⟨.empty,none⟩).setEntry p fd (some a),some (fd,a))

def getFileSlot (s : Tables P Addr) (p : P) (fd : ℤ) (kind : FileKind) : Option (Fin 8 × Addr) :=
  if h : fd < 3 ∨ 8 ≤ fd then none else
  match s.fileTable p ⟨fd.toNat,by omega⟩ with
  | none => none
  | some a =>
    if kind ≠ .empty ∧ (s.slots a).kind ≠ kind then none else some (⟨fd.toNat,by omega⟩,a)

/-! ## The system calls -/

/-- The part that `sys_open` and `sys_opendir` share once the slot is published: a block for
the object, the FatFs call that opens it (`ok` is whether it returns `FR_OK`), and the slot is
filled, or all is undone. -/
def attach (s : Tables P Addr) (p : P) (fd : Fin 8) (a : Addr) (what : Opened)
    (objAt : Option Addr) (ok : Bool) : Option (Tables P Addr × ℤ) :=
  match objAt with
  | none => some ((s.kfree (some a)).setEntry p fd none,-1)
  | some o => (s.kmalloc o).map fun s =>
      if ok then ((s.setObj o what).setSlot a ⟨what.kind,some o⟩,(fd.val : ℤ))
      else (((s.kfree (some o)).kfree (some a)).setEntry p fd none,-1)

/-- The FatFs mode that `sys_open` computes from `flags`; none in the `default` case. -/
def openMode (flags : BitVec 32) : Option (BitVec 8) :=
  let access : Option (BitVec 8) :=
    if flags &&& 3 = 0 then some 0x01
    else if flags &&& 3 = 1 then some 0x02
    else if flags &&& 3 = 2 then some 0x03
    else none
  access.map fun mode =>
    let mode :=
      if flags &&& 0x400 ≠ 0 then mode ||| 0x08
      else if flags &&& 0x200 ≠ 0 then
        if flags &&& 0x800 ≠ 0 then mode ||| 0x04 else mode ||| 0x10
      else mode
    if flags &&& 8 ≠ 0 then mode ||| 0x30 else mode

/-- `sys_open`; `pathOk` is whether `path` is not `NULL` and can be copied in. -/
def sysOpen (s : Tables P Addr) (p : P) (pathOk : Bool) (flags : BitVec 32)
    (slotAt objAt : Option Addr) (ok : Bool) : Option (Tables P Addr × ℤ) :=
  if pathOk = false then some (s,-1) else
  (s.allocFileSlot p slotAt).bind fun r =>
    match r.2 with
    | none => some (r.1,-1)
    | some (fd,a) =>
      match openMode flags with
      | none => some ((r.1.kfree (some a)).setEntry p fd none,-1)
      | some mode => r.1.attach p fd a (.file mode) objAt ok

def sysOpendir (s : Tables P Addr) (p : P) (pathOk : Bool) (slotAt objAt : Option Addr)
    (ok : Bool) : Option (Tables P Addr × ℤ) :=
  if pathOk = false then some (s,-1) else
  (s.allocFileSlot p slotAt).bind fun r =>
    match r.2 with
    | none => some (r.1,-1)
    | some (fd,a) => r.1.attach p fd a .dir objAt ok

/-- Close the object of the slot at `a`, free both and clear the entry. -/
def release (s : Tables P Addr) (p : P) (fd : Fin 8) (a : Addr) : Tables P Addr :=
  let slot := s.slots a
  (((s.fClose slot.kind slot.obj).kfree slot.obj).setEntry p fd none).kfree (some a)

def sysClose (s : Tables P Addr) (p : P) (fd : ℤ) : Tables P Addr × ℤ :=
  match s.getFileSlot p fd .empty with
  | none => (s,-1)
  | some (fd,a) => if (s.slots a).kind = .empty then (s,-1) else (s.release p fd a,0)

def sysClosedir (s : Tables P Addr) (p : P) (fd : ℤ) : Tables P Addr × ℤ :=
  match s.getFileSlot p fd .dir with
  | none => (s,-1)
  | some (fd,a) => (s.release p fd a,0)

/-- `sys_readdir`; `o.bytes` is 0 at the end of the directory. -/
def sysReaddir (s : Tables P Addr) (p : P) (fd : ℤ) (dirent : Bool) (o : Outcome) :
    Tables P Addr × ℤ :=
  match s.getFileSlot p fd .dir with
  | none => (s,-1)
  | some (_,a) =>
    if dirent = false then (s,-1) else
    let s := s.fUse .dir (s.slots a).obj
    if o.ok = false then (s,-1)
    else if o.bytes = 0 then (s,0)
    else if o.copied = false then (s,-1)
    else (s,1)

/-- The loop of `sys_write`; `outcome total` is what happens to the piece after the first
`total` bytes.  A pass that does not end the loop moves the whole piece. -/
def writeLoop (count : ℕ) (outcome : ℕ → Outcome) (total : ℕ) : ℤ :=
  if total < count then
    if (outcome total).copied = false ∨ (outcome total).ok = false then
      if 0 < total then (total : ℤ) else -1
    else if (outcome total).bytes < min 512 (count-total) then
      ((total+(outcome total).bytes : ℕ) : ℤ)
    else writeLoop count outcome (total+(outcome total).bytes)
  else total
termination_by count-total

def readLoop (count : ℕ) (outcome : ℕ → Outcome) (total : ℕ) : ℤ :=
  if total < count then
    if (outcome total).ok = false then -1
    else if (outcome total).bytes = 0 then (total : ℤ)
    else if (outcome total).copied = false then -1
    else if (outcome total).bytes < min 512 (count-total) then
      ((total+(outcome total).bytes : ℕ) : ℤ)
    else readLoop count outcome (total+(outcome total).bytes)
  else total
termination_by count-total

/-- The part of `sys_read` and `sys_write` for an open file: a buffer of 512 bytes from the
heap, the loop, and the buffer is freed at each of its ends. -/
def throughBounce (s : Tables P Addr) (a : Addr) (bounceAt : Option Addr) (result : ℤ) :
    Option (Tables P Addr × ℤ) :=
  match bounceAt with
  | none => some (s,-1)
  | some b => (s.kmalloc b).map fun s' =>
      ((s'.fUse .file (s.slots a).obj).kfree (some b),result)

/-- `sys_write`; `console` is what the loop for descriptors 1 and 2 returns. -/
def sysWrite (s : Tables P Addr) (p : P) (fd : ℤ) (buf : Bool) (count : ℕ) (console : ℤ)
    (bounceAt : Option Addr) (outcome : ℕ → Outcome) : Option (Tables P Addr × ℤ) :=
  if buf = false ∨ count = 0 then some (s,0) else
  if fd = 1 ∨ fd = 2 then some (s,console) else
  match s.getFileSlot p fd .file with
  | none => some (s,-1)
  | some (_,a) => s.throughBounce a bounceAt (writeLoop count outcome 0)

/-- `sys_read`; `console` is what the loop over the keyboard buffer returns. -/
def sysRead (s : Tables P Addr) (p : P) (fd : ℤ) (buf : Bool) (count : ℕ) (console : ℤ)
    (bounceAt : Option Addr) (outcome : ℕ → Outcome) : Option (Tables P Addr × ℤ) :=
  if buf = false ∨ count = 0 then some (s,0) else
  if fd = 0 then some (s,console) else
  match s.getFileSlot p fd .file with
  | none => some (s,0)
  | some (_,a) => s.throughBounce a bounceAt (readLoop count outcome 0)

def sysExit (s : Tables P Addr) (p : P) (status : ℤ) : Tables P Addr :=
  ({ s with exited := Function.update s.exited p (some status) }).closeAllFiles p

end Tables
/-- Nobody has opened or exited yet; `base` are the blocks that are live for other reasons, and
the heap may hold anything. -/
def init (base : Addr → Bool) (slots : Addr → FileSlot Addr) (objs : Addr → Opened) :
    Tables P Addr where
  fileTable := fun _ _ => none
  slots := slots
  objs := objs
  heap := ⟨base,fun _ => 0,fun _ => 0,false⟩
  misuse := false
  exited := fun _ => none

inductive Call (Addr : Type) where
  | sysOpen (pathOk : Bool) (flags : BitVec 32) (slotAt objAt : Option Addr) (ok : Bool)
  | sysOpendir (pathOk : Bool) (slotAt objAt : Option Addr) (ok : Bool)
  | sysClose (fd : ℤ)
  | sysClosedir (fd : ℤ)
  | sysReaddir (fd : ℤ) (dirent : Bool) (o : Outcome)
  | sysRead (fd : ℤ) (buf : Bool) (count : ℕ) (console : ℤ) (bounceAt : Option Addr)
      (outcome : ℕ → Outcome)
  | sysWrite (fd : ℤ) (buf : Bool) (count : ℕ) (console : ℤ) (bounceAt : Option Addr)
      (outcome : ℕ → Outcome)
  | sysExit (status : ℤ)

def Call.opens : Call Addr → Bool
  | .sysOpen .. => true
  | .sysOpendir .. => true
  | _ => false

/-- The blocks that `kmalloc` returns during the call, in order. -/
def Call.blocks : Call Addr → List Addr
  | .sysOpen _ _ slotAt objAt _ => slotAt.toList++objAt.toList
  | .sysOpendir _ slotAt objAt _ => slotAt.toList++objAt.toList
  | .sysRead _ _ _ _ bounceAt _ => bounceAt.toList
  | .sysWrite _ _ _ _ bounceAt _ => bounceAt.toList
  | _ => []

/-- One system call of `p`, with its result; `none` if `kmalloc` cannot choose the blocks
that the request says. -/
def Tables.syscall (s : Tables P Addr) (p : P) : Call Addr → Option (Tables P Addr × ℤ)
  | .sysOpen pathOk flags slotAt objAt ok => s.sysOpen p pathOk flags slotAt objAt ok
  | .sysOpendir pathOk slotAt objAt ok => s.sysOpendir p pathOk slotAt objAt ok
  | .sysClose fd => some (s.sysClose p fd)
  | .sysClosedir fd => some (s.sysClosedir p fd)
  | .sysReaddir fd dirent o => some (s.sysReaddir p fd dirent o)
  | .sysRead fd buf count console bounceAt outcome =>
      s.sysRead p fd buf count console bounceAt outcome
  | .sysWrite fd buf count console bounceAt outcome =>
      s.sysWrite p fd buf count console bounceAt outcome
  | .sysExit status => some (s.sysExit p status,0)

/-- A process that has exited makes no more calls. -/
def step (s : Tables P Addr) (e : P × Call Addr) : Option (Tables P Addr) :=
  if s.exited e.1 ≠ none then none else (s.syscall e.1 e.2).map Prod.fst

/-! ## Who holds which block -/

/-- The places from which the kernel reaches a block; `scratch` is the buffer of a transfer,
which holds a block only inside a system call. -/
inductive Holder (P : Type) where
  | slot (p : P) (fd : Fin 8)
  | object (p : P) (fd : Fin 8)
  | scratch
deriving DecidableEq

def Tables.held (s : Tables P Addr) : Holder P → Option Addr
  | .slot p fd => s.fileTable p fd
  | .object p fd => (s.fileTable p fd).bind fun a => (s.slots a).obj
  | .scratch => none

/-- Every entry of a file table points to a filled slot. -/
structure Filed (base : Addr → Bool) (s : Tables P Addr) : Prop where
  holding : s.heap.Holding base s.held
  range : ∀ p fd a, s.fileTable p fd = some a → 3 ≤ fd.val
  filled : ∀ p fd a, s.fileTable p fd = some a → (s.slots a).kind ≠ .empty ∧
    ∃ o, (s.slots a).obj = some o ∧ (s.objs o).kind = (s.slots a).kind
  proper : s.misuse = false

/-- The tables of `s'` are those of `s`, and what was allocated in between has been freed. -/
structure Undone (base : Addr → Bool) (s s' : Tables P Addr) : Prop where
  fileTable : s'.fileTable = s.fileTable
  slots : ∀ p fd a, s.fileTable p fd = some a → s'.slots a = s.slots a
  objs : s'.objs = s.objs
  misuse : s'.misuse = s.misuse
  exited : s'.exited = s.exited
  holding : s'.heap.Holding base s.held
  live : s'.heap.live = s.heap.live

/-- What a system call of `p` leaves: the other processes keep their tables, and `p` has no
descriptors if it has exited. -/
structure Served (base : Addr → Bool) (s s' : Tables P Addr) (p : P) : Prop where
  filed : Filed base s'
  others : ∀ q, q ≠ p → s'.exited q = s.exited q ∧ ∀ fd, s'.fileTable q fd = s.fileTable q fd
  self : s'.exited p ≠ none → ∀ fd, s'.fileTable p fd = none

section

set_option linter.unusedSectionVars false

variable {base : Addr → Bool} {s s' : Tables P Addr} {p : P} {fd : Fin 8} {a o : Addr}

theorem Filed.undone_refl (h : Filed base s) : Undone base s s where
  fileTable := rfl
  slots := fun _ _ _ _ => rfl
  objs := rfl
  misuse := rfl
  exited := rfl
  holding := h.holding
  live := rfl

theorem Undone.held (h : Undone base s s') : s'.held = s.held := by
  funext w
  cases w with
  | slot p fd => simp only [Tables.held,h.fileTable]
  | object p fd =>
    simp only [Tables.held,h.fileTable]
    cases he : s.fileTable p fd with
    | none => rfl
    | some a => simp only [Option.bind_some,h.slots p fd a he]
  | scratch => rfl

theorem Filed.undone (h : Filed base s) (hu : Undone base s s') : Filed base s' where
  holding := hu.held ▸ hu.holding
  range := hu.fileTable ▸ h.range
  filled := fun p fd a ha => by
    rw [hu.fileTable] at ha
    rw [hu.slots p fd a ha,hu.objs]
    exact h.filled p fd a ha
  proper := hu.misuse ▸ h.proper

theorem Undone.served (hu : Undone base s s') (h : Filed base s) (hp : s.exited p = none) :
    Served base s s' p where
  filed := h.undone hu
  others := fun q _ => ⟨by rw [hu.exited],fun fd => by rw [hu.fileTable]⟩
  self := fun hne => absurd (hu.exited ▸ hp) hne

theorem Filed.fUse (h : Filed base s) (ha : s.fileTable p fd = some a) :
    s.fUse (s.slots a).kind (s.slots a).obj = s := by
  obtain ⟨-,o,ho,hk⟩ := h.filled p fd a ha
  simp only [Tables.fUse,ho,Option.map_some,hk,if_true]

/-! ## Opening -/

/-- `alloc_file_slot` has published the empty slot `a` as descriptor `fd` of `p`. -/
structure Pending (s s' : Tables P Addr) (p : P) (fd : Fin 8) (a : Addr) : Prop where
  vacant : s.fileTable p fd = none
  range : 3 ≤ fd.val
  alloc : s.heap.alloc a = some s'.heap
  eq : s' = (({ s with heap := s'.heap }).setSlot a ⟨.empty,none⟩).setEntry p fd (some a)

theorem freeEntry_some {table : Fin 8 → Option Addr} (h : Tables.freeEntry table = some fd) :
    table fd = none ∧ 3 ≤ fd.val := by
  have hnone := List.find?_some h
  have hmem := List.mem_of_find?_eq_some h
  refine ⟨by simpa using hnone,?_⟩
  fin_cases hmem <;> decide

theorem kmalloc_some (h : s.kmalloc a = some s') :
    s.heap.alloc a = some s'.heap ∧ s' = { s with heap := s'.heap } := by
  simp only [Tables.kmalloc,Option.map_eq_some_iff] at h
  obtain ⟨heap,hh,rfl⟩ := h
  exact ⟨hh,rfl⟩

variable {slotAt objAt bounceAt : Option Addr} {t : Tables P Addr} {r : ℤ}

theorem allocFileSlot_cases {r : Tables P Addr × Option (Fin 8 × Addr)}
    (h : s.allocFileSlot p slotAt = some r) :
    r = (s,none) ∨ ∃ fd a,r.2 = some (fd,a) ∧ Pending s r.1 p fd a := by
  simp only [Tables.allocFileSlot] at h
  split at h
  · exact Or.inl (Option.some.inj h).symm
  · exact Or.inl (Option.some.inj h).symm
  · rename_i fd a hfd
    obtain ⟨hvacant,hrange⟩ := freeEntry_some hfd
    obtain ⟨s₁,hs₁,rfl⟩ := Option.map_eq_some_iff.mp h
    obtain ⟨halloc,he⟩ := kmalloc_some hs₁
    refine Or.inr ⟨fd,a,rfl,hvacant,hrange,halloc,?_⟩
    rw [he]
    rfl

theorem Filed.apart (h : Filed base s) {heap : Pool Addr} (ha : s.heap.alloc a = some heap) {q : P}
    {j : Fin 8} {b : Addr} (hb : s.fileTable q j = some b) : b ≠ a := by
  rintro rfl
  exact h.holding.fresh ha (.slot q j) hb

theorem entry_setEntry (s : Tables P Addr) (b : Option Addr) (q : P) (j : Fin 8) :
    (s.setEntry p fd b).fileTable q j = if q = p ∧ j = fd then b else s.fileTable q j := by
  by_cases hq : q = p
  · subst hq
    by_cases hj : j = fd
    · simp [Tables.setEntry,hj]
    · simp [Tables.setEntry,hj]
  · simp [Tables.setEntry,hq]

theorem setEntry_none (h : s.fileTable p fd = none) (b : Option Addr) :
    ((s.setEntry p fd b).setEntry p fd none).fileTable = s.fileTable := by
  simp only [Tables.setEntry,Function.update_self,Function.update_idem,← h,Function.update_eq_self]

namespace Pending

theorem fileTable (hp : Pending s s' p fd a) : s'.fileTable p fd = some a := by
  rw [hp.eq,entry_setEntry,if_pos ⟨rfl,rfl⟩]

theorem fileTable_of_ne (hp : Pending s s' p fd a) {q : P} {j : Fin 8} (h : ¬(q = p ∧ j = fd)) :
    s'.fileTable q j = s.fileTable q j := by
  rw [hp.eq,entry_setEntry,if_neg h]
  rfl

theorem slot (hp : Pending s s' p fd a) : s'.slots a = ⟨.empty,none⟩ := by
  rw [hp.eq]
  simp [Tables.setEntry,Tables.setSlot]

theorem slot_of_ne (hp : Pending s s' p fd a) {b : Addr} (h : b ≠ a) :
    s'.slots b = s.slots b := by
  rw [hp.eq]
  simp [Tables.setEntry,Tables.setSlot,h]

theorem held (h : Filed base s) (hp : Pending s s' p fd a) :
    s'.held = Function.update s.held (.slot p fd) (some a) := by
  funext w
  cases w with
  | scratch => rfl
  | slot q j =>
    by_cases hq : q = p ∧ j = fd
    · obtain ⟨rfl,rfl⟩ := hq
      simp [Tables.held,hp.fileTable]
    · have hne : Holder.slot q j ≠ .slot p fd := by simpa using hq
      rw [Function.update_of_ne hne]
      exact hp.fileTable_of_ne hq
  | object q j =>
    rw [Function.update_of_ne (by simp)]
    by_cases hq : q = p ∧ j = fd
    · obtain ⟨rfl,rfl⟩ := hq
      simp [Tables.held,hp.fileTable,hp.slot,hp.vacant]
    · simp only [Tables.held,hp.fileTable_of_ne hq]
      cases he : s.fileTable q j with
      | none => rfl
      | some b => simp only [Option.bind_some,hp.slot_of_ne (h.apart hp.alloc he)]

theorem holding (h : Filed base s) (hp : Pending s s' p fd a) :
    s'.heap.Holding base s'.held := by
  rw [hp.held h]
  exact h.holding.alloc hp.alloc hp.vacant

/-- The error exits free the slot and clear its entry, once `m` has no other new block. -/
theorem undo (h : Filed base s) (hp : Pending s s' p fd a) {m : Pool Addr}
    (hm : m.Holding base s'.held) (hl : m.live = s'.heap.live) :
    Undone base s (({ s' with heap := m.free a }).setEntry p fd none) := by
  have hheld : Function.update s'.held (.slot p fd) none = s.held := by
    have hv : s.held (.slot p fd) = none := hp.vacant
    rw [hp.held h,Function.update_idem,← hv,Function.update_eq_self]
  refine ⟨?_,fun q j b hb => ?_,?_,?_,?_,?_,?_⟩
  · rw [hp.eq]
    exact setEntry_none (s:=({ s with heap := s'.heap }).setSlot a ⟨.empty,none⟩) hp.vacant _
  · exact hp.slot_of_ne (h.apart hp.alloc hb)
  · rw [hp.eq]
    rfl
  · rw [hp.eq]
    rfl
  · rw [hp.eq]
    rfl
  · rw [← hheld]
    exact hm.free (show s'.held (.slot p fd) = some a from hp.fileTable)
  · change (m.free a).live = s.heap.live
    rw [Pool.live_free,hl,← Pool.live_free,Pool.live_borrow hp.alloc]

variable {m : Pool Addr} {what : Opened}

theorem held_attached (h : Filed base s) (hp : Pending s s' p fd a) :
    ((({ s' with heap := m }).setObj o what).setSlot a ⟨what.kind,some o⟩).held =
      Function.update s'.held (.object p fd) (some o) := by
  funext w
  cases w with
  | scratch => rfl
  | slot q j => rfl
  | object q j =>
    by_cases hq : q = p ∧ j = fd
    · obtain ⟨rfl,rfl⟩ := hq
      simp [Tables.held,Tables.setSlot,Tables.setObj,hp.fileTable]
    · have hne : Holder.object q j ≠ .object p fd := by simpa using hq
      rw [Function.update_of_ne hne]
      simp only [Tables.held,Tables.setSlot,Tables.setObj]
      cases he : s'.fileTable q j with
      | none => rfl
      | some b =>
        rw [hp.fileTable_of_ne hq] at he
        simp [h.apart hp.alloc he]

theorem attached (h : Filed base s) (hp : Pending s s' p fd a) (hm : s'.heap.alloc o = some m)
    (hwhat : what.kind ≠ .empty) :
    Filed base ((({ s' with heap := m }).setObj o what).setSlot a ⟨what.kind,some o⟩) := by
  have hnone : s'.held (.object p fd) = none := by
    simp only [Tables.held,hp.fileTable,Option.bind_some,hp.slot]
  refine ⟨?_,fun q j b hb => ?_,fun q j b hb => ?_,?_⟩
  · rw [hp.held_attached h]
    exact (hp.holding h).alloc hm hnone
  · change s'.fileTable q j = some b at hb
    by_cases hq : q = p ∧ j = fd
    · exact hq.2 ▸ hp.range
    · exact h.range q j b (hp.fileTable_of_ne hq ▸ hb)
  · change s'.fileTable q j = some b at hb
    by_cases hq : q = p ∧ j = fd
    · obtain ⟨rfl,rfl⟩ := hq
      obtain rfl : a = b := Option.some.inj (hp.fileTable.symm.trans hb)
      exact ⟨by simpa [Tables.setSlot] using hwhat,o,by simp [Tables.setSlot,Tables.setObj]⟩
    · rw [hp.fileTable_of_ne hq] at hb
      have hba := h.apart hp.alloc hb
      obtain ⟨hk,o',ho',hko⟩ := h.filled q j b hb
      -- the new object is not the one of another descriptor
      have hoo : o' ≠ o := by
        rintro rfl
        refine (hp.holding h).fresh hm (.object q j) ?_
        simp only [Tables.held,hp.fileTable_of_ne hq,hb,Option.bind_some,hp.slot_of_ne hba,ho']
      have hobjs : s'.objs = s.objs := by
        rw [hp.eq]
        rfl
      simp only [Tables.setSlot,Tables.setObj,Function.update_of_ne hba,hp.slot_of_ne hba,hobjs]
      exact ⟨hk,o',ho',by rw [Function.update_of_ne hoo,hko]⟩
  · rw [hp.eq]
    exact h.proper

end Pending

/-- `sys_open` and `sys_opendir` from the published slot on: the descriptor is filled, or it is
as if nothing had happened. -/
theorem attach_cases {what : Opened} {ok : Bool}
    (h : Filed base s) (halive : s.exited p = none) (hp : Pending s s' p fd a)
    (hwhat : what.kind ≠ .empty) (hr : s'.attach p fd a what objAt ok = some (t,r)) :
    (Served base s t p ∧ r ≠ -1) ∨ (Undone base s t ∧ r = -1) := by
  have hexited : s'.exited = s.exited := by
    rw [hp.eq]
    rfl
  cases objAt with
  | none =>
    cases hr
    exact Or.inr ⟨hp.undo h (hp.holding h) rfl,rfl⟩
  | some o =>
    obtain ⟨s₂,hs₂,he⟩ := Option.map_eq_some_iff.mp hr
    obtain ⟨hm,hs₂⟩ := kmalloc_some hs₂
    cases ok with
    | true =>
      cases he
      rw [hs₂]
      refine Or.inl ⟨⟨hp.attached h hm hwhat,fun q hq => ⟨congrFun hexited q,fun j => ?_⟩,
        fun hne => absurd ((congrFun hexited p).trans halive) hne⟩,by omega⟩
      exact hp.fileTable_of_ne fun hc => hq hc.1
    | false =>
      cases he
      refine Or.inr ⟨?_,rfl⟩
      have hnone : s'.held (.object p fd) = none := by
        simp only [Tables.held,hp.fileTable,Option.bind_some,hp.slot]
      have hback := hp.undo h ((hp.holding h).borrow hm hnone) (Pool.live_borrow hm)
      rw [hs₂]
      exact hback

theorem open_cases (h : Filed base s) (halive : s.exited p = none) {c : Call Addr}
    (hc : c.opens = true) (hr : s.syscall p c = some (t,r)) :
    (Served base s t p ∧ r ≠ -1) ∨ (Undone base s t ∧ r = -1) := by
  have hsame : (Served base s s p ∧ (-1 : ℤ) ≠ -1) ∨ (Undone base s s ∧ (-1 : ℤ) = -1) :=
    Or.inr ⟨h.undone_refl,rfl⟩
  cases c with
  | sysOpen pathOk flags slotAt objAt ok =>
    simp only [Tables.syscall,Tables.sysOpen] at hr
    split at hr
    · cases hr
      exact hsame
    · obtain ⟨u,hu,hr⟩ := Option.bind_eq_some_iff.mp hr
      rcases allocFileSlot_cases hu with rfl | ⟨fd,a,hfd,hp⟩
      · cases hr
        exact hsame
      · simp only [hfd] at hr
        split at hr
        · cases hr
          exact Or.inr ⟨hp.undo h (hp.holding h) rfl,rfl⟩
        · exact attach_cases h halive hp (by simp [Opened.kind]) hr
  | sysOpendir pathOk slotAt objAt ok =>
    simp only [Tables.syscall,Tables.sysOpendir] at hr
    split at hr
    · cases hr
      exact hsame
    · obtain ⟨u,hu,hr⟩ := Option.bind_eq_some_iff.mp hr
      rcases allocFileSlot_cases hu with rfl | ⟨fd,a,hfd,hp⟩
      · cases hr
        exact hsame
      · simp only [hfd] at hr
        exact attach_cases h halive hp (by simp [Opened.kind]) hr
  | _ => cases hc

/-! ## Closing -/

theorem getFileSlot_some {fd : ℤ} {kind : FileKind} {i : Fin 8}
    (h : s.getFileSlot p fd kind = some (i,a)) :
    s.fileTable p i = some a ∧ (kind ≠ .empty → (s.slots a).kind = kind) := by
  simp only [Tables.getFileSlot] at h
  split at h
  · cases h
  · split at h
    · cases h
    · split at h
      · cases h
      · rename_i hfd b hb hk
        cases h
        refine ⟨hb,fun hne => ?_⟩
        by_contra hkind
        exact hk ⟨hne,hkind⟩

section

variable (h : Filed base s) (ha : s.fileTable p fd = some a)
include h ha

theorem Filed.release_eq (ho : (s.slots a).obj = some o) : s.release p fd a =
      (({ s with heap := (s.heap.free o).free a }).setObj o .closed).setEntry p fd none := by
  have hu := h.fUse ha
  rw [ho] at hu
  simp only [Tables.release,Tables.fClose,ho,hu]
  rfl

/-- `close_all_files` does to an open descriptor what `sys_close` does, in another order. -/
theorem Filed.closeEntry_eq : s.closeEntry p fd = s.release p fd a := by
  obtain ⟨hk,o,ho,-⟩ := h.filled p fd a ha
  have hu := h.fUse ha
  rw [ho] at hu
  simp only [Tables.closeEntry,Tables.release,Tables.fClose,ha,ho,hk,hu,if_false]
  rfl

theorem Filed.entry_release (q : P) (j : Fin 8) : (s.release p fd a).fileTable q j =
      if q = p ∧ j = fd then none else s.fileTable q j := by
  obtain ⟨-,o,ho,-⟩ := h.filled p fd a ha
  rw [h.release_eq ha ho,entry_setEntry]
  rfl

theorem Filed.held_release (ho : (s.slots a).obj = some o) : (s.release p fd a).held =
      Function.update (Function.update s.held (.object p fd) none) (.slot p fd) none := by
  have hslots : (s.release p fd a).slots = s.slots := by
    rw [h.release_eq ha ho]
    rfl
  funext w
  cases w with
  | scratch => rfl
  | slot q j =>
    simp only [Tables.held,h.entry_release ha]
    by_cases hq : q = p ∧ j = fd
    · obtain ⟨rfl,rfl⟩ := hq
      simp
    · simp [hq,Tables.held]
  | object q j =>
    simp only [Tables.held,h.entry_release ha,hslots]
    by_cases hq : q = p ∧ j = fd
    · obtain ⟨rfl,rfl⟩ := hq
      simp
    · simp [hq,Tables.held]

theorem Filed.release : Filed base (s.release p fd a) := by
  obtain ⟨-,o,ho,-⟩ := h.filled p fd a ha
  have hobj : s.held (.object p fd) = some o := by
    simp only [Tables.held,ha,Option.bind_some,ho]
  have hslot : Function.update s.held (.object p fd) none (.slot p fd) = some a := by
    rw [Function.update_of_ne (by simp)]
    exact ha
  have hother : ∀ q j b,(s.release p fd a).fileTable q j = some b →
      ¬(q = p ∧ j = fd) ∧ s.fileTable q j = some b := by
    intro q j b hb
    rw [h.entry_release ha] at hb
    split at hb
    · cases hb
    · rename_i hq
      exact ⟨hq,hb⟩
  refine ⟨?_,fun q j b hb => ?_,fun q j b hb => ?_,?_⟩
  · -- the object is given back first, then the slot
    rw [h.held_release ha ho,h.release_eq ha ho]
    exact (h.holding.free hobj).free hslot
  · exact h.range q j b (hother q j b hb).2
  · obtain ⟨hq,hb⟩ := hother q j b hb
    obtain ⟨hk,o',ho',hko⟩ := h.filled q j b hb
    have hobj' : s.held (.object q j) = some o' := by
      simp only [Tables.held,hb,Option.bind_some,ho']
    have hoo : o' ≠ o := by
      rintro rfl
      have he := h.holding.unique _ _ _ hobj hobj'
      simp only [Holder.object.injEq] at he
      exact hq ⟨he.1.symm,he.2.symm⟩
    rw [h.release_eq ha ho]
    refine ⟨hk,o',ho',?_⟩
    simpa [Tables.setEntry,Tables.setObj,hoo] using hko
  · rw [h.release_eq ha ho]
    exact h.proper

theorem Filed.exited_release : (s.release p fd a).exited = s.exited := by
  obtain ⟨-,o,ho,-⟩ := h.filled p fd a ha
  rw [h.release_eq ha ho]
  rfl

end

theorem Filed.closeEntry (h : Filed base s) (p : P) (fd : Fin 8) :
    Filed base (s.closeEntry p fd) ∧ (s.closeEntry p fd).exited = s.exited ∧
      ∀ q j,(s.closeEntry p fd).fileTable q j =
        if q = p ∧ j = fd then none else s.fileTable q j := by
  cases ha : s.fileTable p fd with
  | none =>
    have he : s.closeEntry p fd = s := by simp only [Tables.closeEntry,ha]
    rw [he]
    refine ⟨h,rfl,fun q j => ?_⟩
    split
    · rename_i hq
      rw [hq.1,hq.2,ha]
    · rfl
  | some a =>
    rw [h.closeEntry_eq ha]
    exact ⟨h.release ha,h.exited_release ha,h.entry_release ha⟩

theorem Filed.closeEntries (h : Filed base s) (p : P) (fds : List (Fin 8)) :
    Filed base (fds.foldl (fun s i => s.closeEntry p i) s) ∧
      (fds.foldl (fun s i => s.closeEntry p i) s).exited = s.exited ∧
      ∀ q j,(fds.foldl (fun s i => s.closeEntry p i) s).fileTable q j =
        if q = p ∧ j ∈ fds then none else s.fileTable q j := by
  induction fds generalizing s with
  | nil => exact ⟨h,rfl,fun q j => by simp⟩
  | cons i fds ih =>
    obtain ⟨hf,he,ht⟩ := h.closeEntry p i
    obtain ⟨hf',he',ht'⟩ := ih hf
    refine ⟨hf',he'.trans he,fun q j => ?_⟩
    rw [List.foldl_cons,ht',ht]
    by_cases hq : q = p
    · by_cases hj : j ∈ fds
      · simp [hq,hj]
      · simp [hq,hj]
    · simp [hq]

theorem Filed.sysExit (h : Filed base s) (p : P) (status : ℤ) :
    Filed base (s.sysExit p status) ∧
      (s.sysExit p status).exited = Function.update s.exited p (some status) ∧
      ∀ q j,(s.sysExit p status).fileTable q j = if q = p then none else s.fileTable q j := by
  have hset : Filed base { s with exited := Function.update s.exited p (some status) } :=
    ⟨h.holding,h.range,h.filled,h.proper⟩
  obtain ⟨hf,he,ht⟩ := hset.closeEntries p [3,4,5,6,7]
  refine ⟨hf,he,fun q j => (ht q j).trans ?_⟩
  by_cases hq : q = p
  · subst hq
    by_cases hj : j ∈ ([3,4,5,6,7] : List (Fin 8))
    · rw [if_pos ⟨rfl,hj⟩,if_pos rfl]
    · -- the loop starts at 3, and below that there is nothing to close
      rw [if_neg (fun hc => hj hc.2),if_pos rfl]
      cases hent : s.fileTable q j with
      | none => rfl
      | some b =>
        have hrange := h.range q j b hent
        exact absurd (by fin_cases j <;> simp_all) hj
  · rw [if_neg (fun hc => hq hc.1),if_neg hq]

theorem Filed.served_release (h : Filed base s) (halive : s.exited p = none)
    (ha : s.fileTable p fd = some a) : Served base s (s.release p fd a) p where
  filed := h.release ha
  others := fun q hq => ⟨by rw [h.exited_release ha],fun j => by
    rw [h.entry_release ha,if_neg fun hc => hq hc.1]⟩
  self := fun hne => absurd (h.exited_release ha ▸ halive) hne

theorem Filed.served_exit (h : Filed base s) (p : P) (status : ℤ) :
    Served base s (s.sysExit p status) p := by
  obtain ⟨hf,he,ht⟩ := h.sysExit p status
  refine ⟨hf,fun q hq => ⟨?_,fun j => ?_⟩,fun _ j => ?_⟩
  · rw [he,Function.update_of_ne hq]
  · rw [ht,if_neg hq]
  · rw [ht,if_pos rfl]

/-! ## Transfers -/

/-- `sys_read` and `sys_write` free the buffer however the loop ends. -/
theorem Filed.throughBounce (h : Filed base s) (ha : s.fileTable p fd = some a)
    (hk : (s.slots a).kind = .file) {result : ℤ}
    (hr : s.throughBounce a bounceAt result = some (t,r)) : Undone base s t := by
  cases bounceAt with
  | none =>
    cases hr
    exact h.undone_refl
  | some b =>
    obtain ⟨s',hs',he⟩ := Option.map_eq_some_iff.mp hr
    obtain ⟨halloc,hs'⟩ := kmalloc_some hs'
    have huse : s'.fUse .file (s.slots a).obj = s' := by
      obtain ⟨-,o,ho,hko⟩ := h.filled p fd a ha
      rw [hs']
      simp only [Tables.fUse,ho,Option.map_some,hko,hk,if_true]
    have hscratch : s.held .scratch = none := rfl
    rw [huse] at he
    cases he
    rw [hs']
    exact ⟨rfl,fun _ _ _ _ => rfl,rfl,rfl,rfl,h.holding.borrow halloc hscratch,
      Pool.live_borrow halloc⟩

theorem Filed.sysReaddir (h : Filed base s) (p : P) (fd : ℤ) (dirent : Bool) (o : Outcome) :
    (s.sysReaddir p fd dirent o).1 = s := by
  simp only [Tables.sysReaddir]
  split
  · rfl
  · rename_i hslot
    obtain ⟨ha,hk⟩ := getFileSlot_some hslot
    have huse := h.fUse ha
    rw [hk (by simp)] at huse
    rw [huse]
    repeat' split
    all_goals rfl

/-! ## Runs -/

theorem Filed.sysClose (h : Filed base s) (halive : s.exited p = none) (fd : ℤ) :
    Served base s (s.sysClose p fd).1 p := by
  simp only [Tables.sysClose]
  split
  · exact h.undone_refl.served h halive
  · rename_i hslot
    have ha := (getFileSlot_some hslot).1
    rw [if_neg (h.filled _ _ _ ha).1]
    exact h.served_release halive ha

theorem Filed.sysClosedir (h : Filed base s) (halive : s.exited p = none) (fd : ℤ) :
    Served base s (s.sysClosedir p fd).1 p := by
  simp only [Tables.sysClosedir]
  split
  · exact h.undone_refl.served h halive
  · rename_i hslot
    exact h.served_release halive (getFileSlot_some hslot).1

theorem Filed.syscall (h : Filed base s) (halive : s.exited p = none) {c : Call Addr}
    (hr : s.syscall p c = some (t,r)) : Served base s t p := by
  cases c with
  | sysOpen | sysOpendir =>
    rcases open_cases h halive rfl hr with ⟨hs,-⟩ | ⟨hu,-⟩
    · exact hs
    · exact hu.served h halive
  | sysClose fd =>
    have hserved := h.sysClose halive fd
    rwa [Option.some.inj hr] at hserved
  | sysClosedir fd =>
    have hserved := h.sysClosedir halive fd
    rwa [Option.some.inj hr] at hserved
  | sysReaddir fd dirent o =>
    have he := h.sysReaddir p fd dirent o
    rw [Option.some.inj hr] at he
    cases he
    exact h.undone_refl.served h halive
  | sysRead | sysWrite =>
    refine Undone.served ?_ h halive
    simp only [Tables.syscall,Tables.sysRead,Tables.sysWrite] at hr
    repeat' split at hr
    · cases hr
      exact h.undone_refl
    · cases hr
      exact h.undone_refl
    · cases hr
      exact h.undone_refl
    · rename_i hslot
      obtain ⟨ha,hk⟩ := getFileSlot_some hslot
      exact h.throughBounce ha (hk (by simp)) hr
  | sysExit status =>
    cases hr
    exact h.served_exit p status

/-- What holds between system calls. -/
structure Kept (base : Addr → Bool) (s : Tables P Addr) : Prop where
  filed : Filed base s
  gone : ∀ p, s.exited p ≠ none → ∀ fd, s.fileTable p fd = none

theorem Kept.step (h : Kept base s) {e : P × Call Addr} (hs : step s e = some s') :
    Kept base s' := by
  simp only [Descriptors.step] at hs
  split at hs
  · cases hs
  · rename_i halive
    obtain ⟨⟨t,r⟩,hr,rfl⟩ := Option.map_eq_some_iff.mp hs
    have hserved := h.filed.syscall (by simpa using halive) hr
    refine ⟨hserved.filed,fun q hq fd => ?_⟩
    by_cases hqp : q = e.1
    · subst hqp
      exact hserved.self hq fd
    · obtain ⟨he,ht⟩ := hserved.others q hqp
      rw [ht]
      exact h.gone q (he ▸ hq) fd

theorem init_kept (base : Addr → Bool) (slots : Addr → FileSlot Addr) (objs : Addr → Opened) :
    Kept base (init base slots objs : Tables P Addr) := by
  have hheld : ∀ w : Holder P,(init base slots objs : Tables P Addr).held w = none := by
    intro w
    cases w <;> rfl
  refine ⟨⟨⟨fun a => ?_,?_,?_,?_,?_,rfl⟩,?_,?_,rfl⟩,?_⟩
  · simp only [hheld]
    simp [init]
  · simp [hheld]
  · simp [hheld]
  · simp [hheld]
  · exact fun _ _ => rfl
  · simp [init]
  · simp [init]
  · simp [init]

/-! ## Every call returns -/

theorem kmalloc_of_free (h : s.heap.live a = false) :
    ∃ s',s.kmalloc a = some s' ∧ s'.heap.live = Function.update s.heap.live a true := by
  simp [Tables.kmalloc,Pool.alloc,h]

theorem attach_total (what : Opened) (ok : Bool)
    (h : ∀ o ∈ objAt.toList,s.heap.live o = false) : ∃ r,s.attach p fd a what objAt ok = some r := by
  cases objAt with
  | none => exact ⟨_,rfl⟩
  | some o =>
    obtain ⟨s',hs',-⟩ := kmalloc_of_free (h o (by simp))
    simp [Tables.attach,hs']

theorem allocFileSlot_total (h : ∀ b ∈ slotAt.toList++objAt.toList,s.heap.live b = false)
    (hnodup : (slotAt.toList++objAt.toList).Nodup) :
    ∃ r,s.allocFileSlot p slotAt = some r ∧ ∀ o ∈ objAt.toList,r.1.heap.live o = false := by
  have hobj : ∀ o ∈ objAt.toList,s.heap.live o = false := fun o ho =>
    h o (List.mem_append_right _ ho)
  cases hfd : Tables.freeEntry (s.fileTable p) with
  | none => exact ⟨(s,none),by simp only [Tables.allocFileSlot,hfd],hobj⟩
  | some fd =>
    cases slotAt with
    | none => exact ⟨(s,none),by simp only [Tables.allocFileSlot,hfd],hobj⟩
    | some b =>
      obtain ⟨s',hs',hl⟩ := kmalloc_of_free (h b (by simp))
      refine ⟨((s'.setSlot b ⟨.empty,none⟩).setEntry p fd (some b),some (fd,b)),
        by simp only [Tables.allocFileSlot,hfd,hs',Option.map_some],fun o ho => ?_⟩
      have hne : o ≠ b := fun e => (List.nodup_append.mp hnodup).2.2 b (by simp) o ho e.symm
      change s'.heap.live o = false
      rw [hl,Function.update_of_ne hne]
      exact hobj o ho

theorem throughBounce_total (result : ℤ) (h : ∀ b ∈ bounceAt.toList,s.heap.live b = false) :
    ∃ r,s.throughBounce a bounceAt result = some r := by
  cases bounceAt with
  | none => exact ⟨_,rfl⟩
  | some b =>
    obtain ⟨s',hs',-⟩ := kmalloc_of_free (h b (by simp))
    simp [Tables.throughBounce,hs']

theorem syscall_total (s : Tables P Addr) (p : P) (c : Call Addr)
    (h : ∀ b ∈ c.blocks,s.heap.live b = false) (hnodup : c.blocks.Nodup) :
    ∃ r,s.syscall p c = some r := by
  cases c with
  | sysOpen pathOk flags slotAt objAt ok =>
    simp only [Tables.syscall,Tables.sysOpen]
    split
    · exact ⟨_,rfl⟩
    · obtain ⟨r,hr,hobj⟩ := allocFileSlot_total (p:=p) h hnodup
      rw [hr,Option.bind_some]
      split
      · exact ⟨_,rfl⟩
      · split
        · exact ⟨_,rfl⟩
        · exact attach_total _ ok hobj
  | sysOpendir pathOk slotAt objAt ok =>
    simp only [Tables.syscall,Tables.sysOpendir]
    split
    · exact ⟨_,rfl⟩
    · obtain ⟨r,hr,hobj⟩ := allocFileSlot_total (p:=p) h hnodup
      rw [hr,Option.bind_some]
      split
      · exact ⟨_,rfl⟩
      · exact attach_total _ ok hobj
  | sysClose fd => exact ⟨_,rfl⟩
  | sysClosedir fd => exact ⟨_,rfl⟩
  | sysReaddir fd dirent o => exact ⟨_,rfl⟩
  | sysRead | sysWrite =>
    simp only [Tables.syscall,Tables.sysRead,Tables.sysWrite]
    repeat' split
    · exact ⟨_,rfl⟩
    · exact ⟨_,rfl⟩
    · exact ⟨_,rfl⟩
    · exact throughBounce_total _ h
  | sysExit status => exact ⟨_,rfl⟩

theorem Filed.open_fails (h : Filed base s) (halive : s.exited p = none) {c : Call Addr}
    (hc : c.opens = true) (hr : s.syscall p c = some (s',-1)) : Undone base s s' := by
  rcases open_cases h halive hc hr with ⟨-,hne⟩ | ⟨hu,-⟩
  · exact absurd rfl hne
  · exact hu

theorem Filed.open_object (h : Filed base s) (ha : s.fileTable p fd = some a) :
    ∃ o,(s.slots a).obj = some o ∧
      ((s.slots a).kind = .file ∧ (∃ mode,s.objs o = .file mode) ∨
        (s.slots a).kind = .dir ∧ s.objs o = .dir) := by
  obtain ⟨hk,o,ho,hko⟩ := h.filled p fd a ha
  refine ⟨o,ho,?_⟩
  cases hobj : s.objs o with
  | closed =>
    rw [hobj] at hko
    exact absurd hko.symm hk
  | file mode =>
    rw [hobj] at hko
    exact Or.inl ⟨hko.symm,mode,rfl⟩
  | dir =>
    rw [hobj] at hko
    exact Or.inr ⟨hko.symm,rfl⟩

end

/-- Between the system calls of any run, every entry of a file table is a descriptor from 3 to
7 with an open object of its kind; each block is held once, has been freed as often as it was
allocated unless it is held, and no block was ever freed that was not live; a process that has
exited holds nothing.  The next call returns, and an open that fails changes neither the tables
nor the live blocks. -/
theorem descriptor_tables_kept (base : Addr → Bool) (slots : Addr → FileSlot Addr)
    (objs : Addr → Opened) (es : List (P × Call Addr)) {s : Tables P Addr}
    (h : run step (init base slots objs) es = some s) :
    (∀ p fd a, s.fileTable p fd = some a → 3 ≤ fd.val ∧ ∃ o, (s.slots a).obj = some o ∧
      ((s.slots a).kind = .file ∧ (∃ mode, s.objs o = .file mode) ∨
        (s.slots a).kind = .dir ∧ s.objs o = .dir)) ∧
    (∀ a, s.heap.live a = true ↔ base a = true ∨ ∃ w, s.held w = some a) ∧
    (∀ v w a, s.held v = some a → s.held w = some a → v = w) ∧
    (∀ w a, s.held w = some a → s.heap.taken a = s.heap.freed a+1) ∧
    (∀ a, (∀ w, s.held w ≠ some a) → s.heap.taken a = s.heap.freed a) ∧
    s.heap.fault = false ∧ s.misuse = false ∧
    (∀ p, s.exited p ≠ none → ∀ fd, s.held (.slot p fd) = none ∧ s.held (.object p fd) = none) ∧
    (∀ p c, (∀ b ∈ c.blocks, s.heap.live b = false) → c.blocks.Nodup →
      ∃ r, s.syscall p c = some r) ∧
    (∀ p c t, s.exited p = none → c.opens = true → s.syscall p c = some (t,-1) →
      t.fileTable = s.fileTable ∧ t.heap.live = s.heap.live) := by
  have hkept : Kept base s :=
    run_keeps (Kept base) (fun _ _ _ hk hs => hk.step hs) (init_kept base slots objs) h
  obtain ⟨hfiled,hgone⟩ := hkept
  refine ⟨fun p fd a ha => ⟨hfiled.range p fd a ha,hfiled.open_object ha⟩,hfiled.holding.live,
    hfiled.holding.unique,hfiled.holding.once,hfiled.holding.settled,hfiled.holding.sound,
    hfiled.proper,fun p hp fd => ⟨hgone p hp fd,?_⟩,syscall_total s,fun p c t hp hc hr => ?_⟩
  · simp only [Tables.held,hgone p hp fd,Option.bind_none]
  · have hu := hfiled.open_fails hp hc hr
    exact ⟨hu.fileTable,hu.live⟩

/-- Process 0 opens a file and a directory, reads from the file, fails to open a second file and
exits. -/
def session : List (Fin 2 × Call (Fin 8)) :=
  [(0,.sysOpen true 0 (some 1) (some 2) true),
    (0,.sysOpendir true (some 3) (some 4) true),
    (0,.sysRead 3 true 5 0 (some 5) fun _ => ⟨true,5,true⟩),
    (0,.sysOpen true 3 (some 5) none true),
    (1,.sysOpen true 1 (some 5) (some 6) true),
    (0,.sysExit 7)]

theorem descriptor_tables_kept_session :
    ∃ s : Tables (Fin 2) (Fin 8), run step (init (fun a => a = 0) (fun _ => ⟨.empty,none⟩)
      fun _ => .closed) session = some s ∧ s.fileTable 1 3 = some 5 ∧
      s.held (.slot 0 3) = none ∧ s.held (.object 0 4) = none := by
  have hrun : (run step (init (fun a : Fin 8 => a = 0) (fun _ => ⟨.empty,none⟩)
      fun _ => .closed) session).map (fun s : Tables (Fin 2) (Fin 8) =>
        decide (s.fileTable 1 3 = some 5 ∧ s.exited 0 ≠ none)) = some true := by decide +kernel
  obtain ⟨s,hs,hd⟩ := Option.map_eq_some_iff.mp hrun
  obtain ⟨hopen,hexit⟩ := of_decide_eq_true hd
  obtain ⟨-,-,-,-,-,-,-,hgone,-⟩ := descriptor_tables_kept _ _ _ session hs
  exact ⟨s,hs,hopen,(hgone 0 hexit 3).1,(hgone 0 hexit 4).2⟩

end Descriptors
end DonsOs
