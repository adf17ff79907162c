import Mathlib.Tactic

/-! The kernel heap of `heap.c`, on a memory of 64-bit words.
Words are indexed by byte address; every header field is an aligned word.  All
`size_t` arithmetic that can wrap is reduced explicitly.  A `while` loop over the
block list takes fuel and answers `none` when the fuel runs out, so that a walk
which does not end is never mistaken for one that returns. -/
namespace DonsOs
namespace Heap

def u64 (n : ℕ) : ℕ := n % 18446744073709551616
def sub64 (a b : ℕ) : ℕ := (a+(18446744073709551616-b%18446744073709551616)) % 18446744073709551616

def heapMaxSize : ℕ := 24*1024*1024
def heapMagic : ℕ := 0xDEADBEEFCAFEBABE
def heapAlignment : ℕ := 16
def heapStartAddr : ℕ := 0xFFFF900000000000
def heapInitialSize : ℕ := 1024*1024
def pageSize : ℕ := 4096
/-- `sizeof(heap_header_t)`. -/
def headerSize : ℕ := 48

/-- Memory with a log of the addresses of all stores, newest first. -/
structure Ram where
  word : ℕ → ℕ
  log : List ℕ

def Ram.store (r : Ram) (a v : ℕ) : Ram := ⟨Function.update r.word a v,a::r.log⟩

/-- A fresh frame with contents `c` appears at virtual page `v`. -/
def Ram.mapPage (r : Ram) (v : ℕ) (c : ℕ → ℕ) : Ram :=
  { r with word := fun a => if v ≤ a ∧ a < v+4096 then c (a-v) else r.word a }

/-! Fields of `heap_header_t` at address `b`. -/
abbrev Ram.magic (r : Ram) (b : ℕ) : ℕ := r.word b
abbrev Ram.size (r : Ram) (b : ℕ) : ℕ := r.word (b+8)
abbrev Ram.used (r : Ram) (b : ℕ) : ℕ := r.word (b+16)
abbrev Ram.next (r : Ram) (b : ℕ) : ℕ := r.word (b+24)
abbrev Ram.prev (r : Ram) (b : ℕ) : ℕ := r.word (b+32)

/-- The statics of `heap.c` together with the memory they describe. -/
structure HeapState where
  ram : Ram
  start : ℕ
  brk : ℕ
  freeList : ℕ
  mapped : ℕ
  usedBytes : ℕ

/-- Frames handed out by the PMM for the pages of one extension: `none` when it is
out of memory, otherwise the contents the frame happens to hold. -/
abbrev Frames := ℕ → Option (ℕ → ℕ)

/-- The mapping loop of `heap_extend`, from page `i` on. -/
def mapPages (frames : Frames) (regionStart : ℕ) : ℕ → ℕ → Ram → Bool × Ram
  | 0, _, r => (true,r)
  | n+1, i, r =>
    match frames i with
    | none => (false,r)
    | some c => mapPages frames regionStart n (i+1) (r.mapPage (regionStart+i*4096) c)

/-- `heap_extend`: the start of the new region, or `0` with `heap_brk` unmoved.  A
failure midway leaves the pages already mapped where they are. -/
def heapExtend (frames : Frames) (bytes : ℕ) (h : HeapState) : ℕ × HeapState :=
  if bytes = 0 then (h.brk,h) else
  let pages := u64 (bytes+4095) / 4096
  let region := u64 (pages*4096)
  if heapMaxSize < u64 (h.mapped+region) then (0,h) else
  match mapPages frames h.brk pages 0 h.ram with
  | (false,r) => (0,{ h with ram := r })
  | (true,r) =>
    (h.brk,{ h with ram := r, brk := u64 (h.brk+region), mapped := u64 (h.mapped+region) })

/-- The six header stores shared by `heap_init`, `split_block` and `kmalloc`. -/
def writeHeader (r : Ram) (b size next prev : ℕ) : Ram :=
  (((((r.store b heapMagic).store (b+8) size).store (b+16) 0).store (b+24) next).store
    (b+32) prev).store (b+40) 0

/-- `heap_init`; on failure the free list stays `NULL`. -/
def heapInit (frames : Frames) (start size : ℕ) (r : Ram) : HeapState :=
  let h : HeapState := ⟨r,start,start,0,0,0⟩
  let pages := if size/4096 = 0 then 1 else size/4096
  let initial := u64 (pages*4096)
  let (region,h) := heapExtend frames initial h
  if region = 0 then h else
  { h with
    ram := writeHeader h.ram h.start (sub64 initial 48) 0 0
    freeList := h.start }

/-- Fuel for one walk over the block list: more cells than fit into the region. -/
def blockLimit (h : HeapState) : ℕ := (h.brk-h.start)/48+2

/-- `find_free_block`'s loop from `cur`; the answer `some 0` is `NULL`. -/
def findFrom (r : Ram) (size : ℕ) : ℕ → ℕ → Option ℕ
  | 0, _ => none
  | fuel+1, cur =>
    if cur = 0 then some 0
    else if r.used cur = 0 ∧ size ≤ r.size cur then some cur
    else findFrom r size fuel (r.next cur)

def findFreeBlock (h : HeapState) (size : ℕ) : Option ℕ :=
  findFrom h.ram size (blockLimit h) h.freeList

def splitBlock (r : Ram) (block size : ℕ) : Ram :=
  if r.size block ≤ u64 (size+48+16) then r else
  let remaining := sub64 (sub64 (r.size block) size) 48
  let newBlock := u64 (block+48+size)
  let r := writeHeader r newBlock remaining (r.next block) block
  let r := if r.next block ≠ 0 then r.store (r.next block+32) newBlock else r
  (r.store (block+24) newBlock).store (block+8) size

/-- `coalesce_blocks`' loop from `cur`: merge and look again, or move on. -/
def coalesceFrom : ℕ → ℕ → Ram → Option Ram
  | 0, _, _ => none
  | fuel+1, cur, r =>
    if cur = 0 then some r else
    let next := r.next cur
    if r.used cur = 0 ∧ next ≠ 0 ∧ r.used next = 0 ∧ u64 (cur+48+r.size cur) = next then
      let r := r.store (cur+8) (u64 (r.size cur+48+r.size next))
      let r := r.store (cur+24) (r.next next)
      let r := if r.next cur ≠ 0 then r.store (r.next cur+32) cur else r
      coalesceFrom fuel cur r
    else coalesceFrom fuel next r

def coalesceBlocks (h : HeapState) : Option HeapState :=
  (coalesceFrom (2*blockLimit h) h.freeList h.ram).map fun r => { h with ram := r }

/-- `while (cur->next) cur = cur->next`. -/
def tailFrom (r : Ram) : ℕ → ℕ → Option ℕ
  | 0, _ => none
  | fuel+1, cur => if r.next cur = 0 then some cur else tailFrom r fuel (r.next cur)

/-- `kmalloc`: one free block over the new region, linked at the tail. -/
def linkRegion (h : HeapState) (regionStart : ℕ) : Option HeapState :=
  let regionSize := sub64 h.brk regionStart
  let r := writeHeader h.ram regionStart (sub64 regionSize 48) 0 0
  if h.freeList = 0 then some { h with ram := r, freeList := regionStart } else
  (tailFrom r (blockLimit h) h.freeList).map fun cur =>
    { h with ram := (r.store (cur+24) regionStart).store (regionStart+32) cur }

def setUsed (h : HeapState) (block : ℕ) : HeapState := { h with ram := h.ram.store (block+16) 1 }
def split (h : HeapState) (block size : ℕ) : HeapState := { h with ram := splitBlock h.ram block size }
def account (h : HeapState) (block : ℕ) : HeapState :=
  { h with usedBytes := u64 (h.usedBytes+h.ram.size block) }

/-- The tail of `kmalloc` once a block has been found. -/
def takeBlock (h : HeapState) (block size : ℕ) : ℕ × HeapState :=
  (u64 (block+48),account (split (setUsed h block) block size) block)

/-- `(size + 15) & ~15`, with the addition wrapping. -/
def roundUp (n : ℕ) : ℕ := u64 (n+15)/16*16

/-- `kmalloc`; the answer pairs the returned pointer (`0` for `NULL`) with the heap. -/
def kmalloc (frames : Frames) (n : ℕ) (h : HeapState) : Option (ℕ × HeapState) :=
  if n = 0 then some (0,h) else
  let size := roundUp n
  (findFreeBlock h size).bind fun block =>
  if block ≠ 0 then some (takeBlock h block size) else
  let (regionStart,h) := heapExtend frames (u64 (size+48)) h
  if regionStart = 0 then some (0,h) else
  (linkRegion h regionStart).bind fun h =>
  (coalesceBlocks h).bind fun h =>
  (findFreeBlock h size).bind fun block =>
  if block = 0 then some (0,h) else some (takeBlock h block size)

/-- The checks and the first two stores of `kfree`. -/
def release (h : HeapState) (block : ℕ) : HeapState :=
  { h with ram := h.ram.store (block+16) 0, usedBytes := sub64 h.usedBytes (h.ram.size block) }

def kfree (ptr : ℕ) (h : HeapState) : Option HeapState :=
  if ptr = 0 then some h else
  let block := sub64 ptr 48
  if h.ram.magic block ≠ heapMagic then some h else
  if h.ram.used block = 0 then some h else
  coalesceBlocks (release h block)

def heapUsed (h : HeapState) : ℕ := h.usedBytes
def heapFree (h : HeapState) : ℕ := sub64 h.mapped h.usedBytes
def heapTotal (h : HeapState) : ℕ := h.mapped

/-- `heap_validate`'s loop: the address of the first bad block, or `0`. -/
def validateFrom (h : HeapState) : ℕ → ℕ → ℕ → Option ℕ
  | 0, _, _ => none
  | fuel+1, prev, cur =>
    if cur = 0 then some 0
    else if h.ram.magic cur ≠ heapMagic then some cur
    else if h.ram.used cur ≠ 0 ∧ h.ram.used cur ≠ 1 then some cur
    else if cur < h.start then some cur
    else if h.brk < u64 (cur+48) then some cur
    else if sub64 (sub64 h.brk cur) 48 < h.ram.size cur then some cur
    else if h.ram.prev cur ≠ prev then some cur
    else
      let e := u64 (cur+48+h.ram.size cur)
      if h.ram.next cur ≠ 0 then
        if h.ram.next cur ≠ e then some cur
        else if h.ram.prev (h.ram.next cur) ≠ cur then some cur
        else validateFrom h fuel cur (h.ram.next cur)
      else if e ≠ h.brk then some cur
      else validateFrom h fuel cur (h.ram.next cur)

def heapValidate (h : HeapState) : Option ℕ :=
  if h.start = 0 ∨ h.brk = 0 then some 0
  else if h.freeList = 0 then some h.start
  else if h.freeList ≠ h.start then some h.freeList
  else validateFrom h (blockLimit h) 0 h.freeList

end Heap
end DonsOs
