import DonsOs.Lib.Paging

/-! Frames and page tables: `pmm.c`, `vmm.c` and the tables of `stage2.asm`.
Frames are named by number.  The kernel reaches a frame through the HHDM, which maps the
first gigabyte linearly, so a table is read and written in its own frame.  The recursive
slot of the active tables resolves to their own root, so `get_pml4_virt` is the root
itself. -/
namespace DonsOs
namespace Memory

open Paging

def ptPresent : Word := 0x001#64
def ptWrite : Word := 0x002#64
def ptUser : Word := 0x004#64
def ptNx : Word := 0x8000000000000000#64
def pagePwt : Word := 0x008#64
def pagePcd : Word := 0x010#64
def pageUncached : Word := pagePcd ||| pagePwt

def hhdmStart : ℕ := 0xFFFF800000000000
def hhdmSize : ℕ := 0x40000000
def recursivePml4Index : ℕ := 510
def kernelBase : ℕ := 0xFFFFFFFF80000000
def userCodeBase : ℕ := 0x8000000000

/-- Rounding up to a page boundary, in 64 bits. -/
def roundUp (a : ℕ) : ℕ := (a+0xFFF)%2^64/4096*4096

/-! The frame allocator. -/

inductive PageType where
  | free | kernel | pageTable | userData | userPageTable | device | reserved
deriving DecidableEq

def maxPages : ℕ := 32768

theorem maxPages_pos : 0 < maxPages := by decide

/-- The two zones.  `pmm_compute_zones` sets both bounds of the HIGH zone to 0 when
nothing is left for it. -/
structure Zones where
  lowStart : ℕ
  lowEnd : ℕ
  highStart : ℕ
  highEnd : ℕ
  low_lt : lowEnd < maxPages
  high_lt : highEnd < maxPages
  apart : lowEnd < highStart ∨ highStart = 0 ∧ highEnd = 0

/-- The allocator, without the statistics that only its reports read.  `bitmap` is true for
a frame in use. -/
structure Pmm where
  zones : Zones
  bitmap : ℕ → Bool
  refCount : ℕ → ℕ
  nextLow : ℕ
  nextHigh : ℕ

/-- `pmm_compute_zones`, from the first and the last free frame. -/
def pmmComputeZones (first last : ℕ) (h : first ≤ last ∧ last < maxPages) : Zones :=
  let lowEnd := first+(last-first)/4
  if hz : lowEnd+1 ≤ last then
    ⟨first,lowEnd,lowEnd+1,last,by omega,h.2,Or.inl (Nat.lt_succ_self _)⟩
  else ⟨first,lowEnd,0,0,by omega,maxPages_pos,Or.inr ⟨rfl,rfl⟩⟩

def Pmm.take (p : Pmm) (page : ℕ) : Pmm :=
  { p with
    bitmap := Function.update p.bitmap page true
    refCount := Function.update p.refCount page 1 }

/-- `pmm_alloc_page`.  User frames come from the top of the HIGH zone downwards, all
others from the bottom of the LOW zone upwards, for the kernel from 2 MB on. -/
def pmmAllocPage (p : Pmm) (type : PageType) : Option (ℕ × Pmm) :=
  if type = .userData ∨ type = .userPageTable then
    let start := p.zones.highStart
    if start = 0 ∧ p.zones.highEnd = 0 then none else
    let scan := (List.range' start (p.nextHigh+1-start)).reverse
    (scan.find? fun page => !p.bitmap page).map fun page =>
      (page,{ p.take page with nextHigh := if start < page then page-1 else start })
  else
    let last := p.zones.lowEnd
    if p.zones.lowStart = 0 ∧ last = 0 then none else
    let skipped := fun page => (type = .kernel ∨ type = .pageTable ∨ type = .reserved) ∧
      page*4096 < 0x200000
    let scan := List.range' p.nextLow (last+1-p.nextLow)
    (scan.find? fun page => ¬skipped page ∧ p.bitmap page = false).map fun page =>
      (page,{ p.take page with nextLow := if page < last then page+1 else last })

def pmmAllocPageForElf (p : Pmm) : Option (ℕ × Pmm) := pmmAllocPage p .userData
def pmmAllocPageForTables (p : Pmm) : Option (ℕ × Pmm) := pmmAllocPage p .pageTable

/-- `pmm_free_page` for the frame `page`. -/
def pmmFreePage (p : Pmm) (page : ℕ) : Pmm :=
  if page = 0 ∨ maxPages ≤ page ∨ p.bitmap page = false then p else
  let p := { p with refCount := Function.update p.refCount page (p.refCount page-1) }
  if p.refCount page = 0 then
    { p with
      bitmap := Function.update p.bitmap page false
      nextLow := if p.zones.lowStart ≤ page ∧ page ≤ p.zones.lowEnd ∧ page < p.nextLow then page
        else p.nextLow
      nextHigh := if p.zones.highStart ≤ page ∧ page ≤ p.zones.highEnd ∧ p.nextHigh < page then page
        else p.nextHigh }
  else p

/-! Page tables. -/

/-- Memory, the allocator and the root of the active tables. -/
structure Vm where
  mem : Mem
  pmm : Pmm
  cr3 : ℕ

def Vm.store (s : Vm) (f i : ℕ) (w : Word) : Vm := { s with mem := Paging.store s.mem f i w }

/-- The entry of the last level, when it and those above it are present. -/
def vmmWalk (m : Mem) (cr3 virt : ℕ) : Option Word :=
  let e4 := m cr3 (pml4Idx virt)
  if !present e4 then none else
  let e3 := m (frameOf e4) (pdptIdx virt)
  if !present e3 then none else
  let e2 := m (frameOf e3) (pdIdx virt)
  if !present e2 then none else
  let e1 := m (frameOf e2) (ptIdx virt)
  if !present e1 then none else some e1

/-- `vmm_get_phys_from_cr3`: the physical address, or 0. -/
def vmmGetPhysFromCr3 (m : Mem) (cr3 virt : ℕ) : ℕ :=
  match vmmWalk m cr3 virt with
  | none => 0
  | some pte => frameOf pte*4096+virt%4096

def vmmGetPhys (s : Vm) (virt : ℕ) : ℕ := vmmGetPhysFromCr3 s.mem s.cr3 virt
def vmmIsMapped (s : Vm) (virt : ℕ) : Bool := (vmmWalk s.mem s.cr3 virt).isSome

/-- One level of the walk of `vmm_map_page`: a missing table is allocated and cleared, an
entry that is there is opened for writing and for user mode. -/
def nextTable (s : Vm) (table idx : ℕ) (dirFlags : Word) : Option (ℕ × Vm) :=
  if !present (s.mem table idx) then
    match pmmAllocPageForTables s.pmm with
    | none => none
    | some (f,pmm) =>
      some (f,{ s with pmm := pmm, mem := fill s.mem f fun _ => 0 }.store table idx
        (entry f dirFlags))
  else
    let s := s.store table idx (s.mem table idx ||| (ptWrite ||| ptUser))
    some (frameOf (s.mem table idx),s)

def dirFlags (flags : Word) : Word :=
  ptPresent ||| ptWrite ||| ptUser ||| flags &&& (pagePcd ||| pagePwt)

/-- The entry that is written for the page at `phys`. -/
def pteOf (phys : ℕ) (flags : Word) : Word :=
  entry (phys/4096) (ptPresent ||| flags &&& ptWrite ||| flags &&& ptUser |||
    flags &&& (pagePcd ||| pagePwt) ||| flags &&& ptNx)

/-- `vmm_map_page_in_cr3`.  It returns nothing; the flag records whether it got as far as
the page table. -/
def vmmMapPageInCr3 (s : Vm) (cr3 virt phys : ℕ) (flags : Word) : Bool × Vm :=
  match nextTable s cr3 (pml4Idx virt) (dirFlags flags) with
  | none => (false,s)
  | some (pdpt,s) =>
    match nextTable s pdpt (pdptIdx virt) (dirFlags flags) with
    | none => (false,s)
    | some (pd,s) =>
      match nextTable s pd (pdIdx virt) (dirFlags flags) with
      | none => (false,s)
      | some (pt,s) => (true,s.store pt (ptIdx virt) (pteOf phys flags))

def vmmUnmapPageInCr3 (s : Vm) (cr3 virt : ℕ) : Vm :=
  let e4 := s.mem cr3 (pml4Idx virt)
  if !present e4 then s else
  let e3 := s.mem (frameOf e4) (pdptIdx virt)
  if !present e3 then s else
  let e2 := s.mem (frameOf e3) (pdIdx virt)
  if !present e2 then s else s.store (frameOf e2) (ptIdx virt) 0

def vmmMapPage (s : Vm) (virt phys : ℕ) (flags : Word) : Bool × Vm :=
  vmmMapPageInCr3 s s.cr3 virt phys flags

def hhdmAddr (phys : ℕ) : ℕ := (hhdmStart+phys)%2^64

/-- `ensure_hhdm_mapped`. -/
def ensureHhdmMapped (s : Vm) (phys : ℕ) : Vm :=
  if vmmIsMapped s (hhdmAddr phys) then s
  else (vmmMapPage s (hhdmAddr phys) phys (ptPresent ||| ptWrite ||| pageUncached)).2

/-! `vmm_clone_page_table`, loop by loop.  When no frame is left the state is what the call
leaves behind: the tables allocated so far are not given back. -/

def clonePdEntry (src new : ℕ) (s : Vm) (k : ℕ) : Except Vm Vm :=
  let pde := s.mem src k
  if !present pde then .ok s else
  if huge pde then .ok (s.store new k pde) else
  match pmmAllocPageForTables s.pmm with
  | none => .error s
  | some (pt,pmm) =>
    .ok ({ s with pmm := pmm, mem := fill s.mem pt (s.mem (frameOf pde)) }.store new k
      (entry pt (pde &&& 0xFFF#64)))

def clonePdptEntry (src new : ℕ) (s : Vm) (j : ℕ) : Except Vm Vm :=
  let pdpte := s.mem src j
  if !present pdpte then .ok s else
  match pmmAllocPageForTables s.pmm with
  | none => .error s
  | some (pd,pmm) =>
    ((List.range 512).foldlM (clonePdEntry (frameOf pdpte) pd)
      { s with pmm := pmm, mem := fill s.mem pd fun _ => 0 }).map fun s =>
        s.store new j (entry pd (pdpte &&& 0xFFF#64))

def clonePml4Entry (src new : ℕ) (s : Vm) (i : ℕ) : Except Vm Vm :=
  if i = recursivePml4Index then .ok s else
  let pml4e := s.mem src i
  if !present pml4e then .ok s else
  if 256 ≤ i then .ok (s.store new i pml4e) else
  match pmmAllocPageForTables s.pmm with
  | none => .error s
  | some (pdpt,pmm) =>
    ((List.range 512).foldlM (clonePdptEntry (frameOf pml4e) pdpt)
      { s with pmm := pmm, mem := fill s.mem pdpt fun _ => 0 }).map fun s =>
        s.store new i (entry pdpt (pml4e &&& 0xFFF#64))

def vmmClonePageTable (s : Vm) (src : ℕ) : Except Vm (ℕ × Vm) :=
  match pmmAllocPageForTables s.pmm with
  | none => .error s
  | some (new,pmm) =>
    ((List.range 512).foldlM (clonePml4Entry src new)
      { s with pmm := pmm, mem := fill s.mem new fun _ => 0 }).map fun s =>
        (new,s.store new recursivePml4Index (entry new (ptPresent ||| ptWrite)))

/-! The tables of `stage2.asm`, in consecutive frames from `base` on. -/

def bootPml4 (base i : ℕ) : Word :=
  if i = 0 then entry (base+1) 3#64 else
  if i = 256 then entry (base+2) 3#64 else
  if i = 510 then entry base 3#64 else
  if i = 511 then entry (base+3) 3#64 else 0

def bootPdptIdentity (base i : ℕ) : Word := if i = 0 then entry (base+4) 3#64 else 0
def bootPdptHhdm (base i : ℕ) : Word := if i = 0 then entry (base+5) 3#64 else 0
def bootPdptHigher (base i : ℕ) : Word :=
  if i = 509 then entry base 3#64 else if i = 510 then entry (base+4) 3#64 else 0

/-- `pd` and `pd_hhdm`. -/
def bootPd (base i : ℕ) : Word :=
  if i = 0 then entry (base+6) 3#64 else if i < 512 then entry (512*i) 0x83#64 else 0

def bootPtLow (i : ℕ) : Word := if i < 512 then entry i 3#64 else 0

/-- Memory with the boot tables and nothing else. -/
def bootMem (base : ℕ) : Mem := fun f =>
  if f = base then bootPml4 base else
  if f = base+1 then bootPdptIdentity base else
  if f = base+2 then bootPdptHhdm base else
  if f = base+3 then bootPdptHigher base else
  if f = base+4 ∨ f = base+5 then bootPd base else
  if f = base+6 then bootPtLow else fun _ => 0

/-- An allocator as `pmm_init` leaves it on a machine whose free frames are 1024 to 29695:
the HIGH zone begins at 32 MB. -/
def bootPmm : Pmm where
  zones := pmmComputeZones 1024 29695 (by decide)
  bitmap f := f < 1024 || 29695 < f
  refCount _ := 0
  nextLow := 1024
  nextHigh := 29695

def bootVm (base : ℕ) : Vm := ⟨bootMem base,bootPmm,base⟩

end Memory
end DonsOs
