import DonsOs.Memory.UserCopy
import DonsOs.Heap.Model

/-! Processes and their address spaces: `process.c`, `elf.c`, `sys_brk`, and the mapping side
of `heap.c`.  A call that runs out of frames returns early and leaves behind what it has done
so far, as the code does; what the pages of the heap hold is left to the heap's own model. -/
namespace DonsOs
namespace Memory

open Paging
open Heap (u64 heapStartAddr heapInitialSize heapMaxSize)

/-! The kernel heap, as far as it is mapped. -/

/-- Memory with the statics `heap_brk` and `heap_mapped`. -/
structure Kmem where
  vm : Vm
  heapBrk : ℕ
  heapMapped : ℕ

def Kmem.setVm (k : Kmem) (vm : Vm) : Kmem := { k with vm := vm }

def heapFlags : Word := ptPresent ||| ptWrite

/-- One page of `heap_extend`. -/
def heapPage (regionStart : ℕ) (vm : Vm) (i : ℕ) : Except Vm Vm :=
  match pmmAllocPageForElf vm.pmm with
  | none => .error vm
  | some (f,pmm) =>
    .ok (vmmMapPage { vm with pmm := pmm } ((regionStart+i*4096)%2^64) (f*4096) heapFlags).2

/-- `heap_extend`, and whether it returns a region. -/
def heapExtend (k : Kmem) (bytes : ℕ) : Bool × Kmem :=
  if bytes = 0 then (true,k) else
  let pages := (bytes+4095)%2^64/4096
  let region := pages*4096%2^64
  if heapMaxSize < (k.heapMapped+region)%2^64 then (false,k) else
  match (List.range pages).foldlM (heapPage k.heapBrk) k.vm with
  | .error vm => (false,{ k with vm := vm })
  | .ok vm => (true,⟨vm,(k.heapBrk+region)%2^64,(k.heapMapped+region)%2^64⟩)

/-- The mapping part of `heap_init`. -/
def heapInit (vm : Vm) (start size : ℕ) : Kmem :=
  let pages := if size/4096 = 0 then 1 else size/4096
  (heapExtend ⟨vm,start,0⟩ (pages*4096%2^64)).2

/-- The loop of `vmm_init` over the first 2 MB. -/
def vmmInit (vm : Vm) : Vm :=
  (List.range 512).foldl
    (fun vm i => (vmmMapPage vm (i*4096) (i*4096) (ptPresent ||| ptWrite)).2) vm

/-! Pages of a process. -/

/-- Work on the pages of one process: its `elf_page_list`, and the frame handled last. -/
structure Loading where
  kmem : Kmem
  pages : List ℕ
  last : ℕ

def Loading.setVm (l : Loading) (vm : Vm) : Loading := { l with kmem := { l.kmem with vm := vm } }

/-- What `kmalloc` asks of `heap_extend` when it finds no free block of `n` bytes. -/
def kmallocBytes (n : ℕ) : ℕ := u64 (Heap.roundUp n+48)

/-- `elf_add_page_to_pcb`.  The list is allocated for 64 pages at a time; `grow n` says whether
`kmalloc` has to extend the heap for the list that follows one of `n` pages. -/
def elfAddPageToPcb (grow : ℕ → Bool) (l : Loading) (f : ℕ) : Loading :=
  if f ∈ l.pages then l else
  if l.pages.length%64 = 0 ∧ grow l.pages.length then
    let r := heapExtend l.kmem (kmallocBytes ((l.pages.length+64)*8))
    if r.1 then { l with kmem := r.2, pages := l.pages++[f] } else { l with kmem := r.2 }
  else { l with pages := l.pages++[f] }

def userFlags : Word := ptPresent ||| ptWrite ||| ptUser
def elfMapFlags : Word := 0x1F#64

def stackBottomAnchor : ℕ := 0x80000F0000
def userStackPages : ℕ := 16

/-- One page of the user stack in `process_create`. -/
def stackPage (cr3 : ℕ) (grow : ℕ → Bool) (l : Loading) (i : ℕ) : Except Loading Loading :=
  match pmmAllocPageForElf l.kmem.vm.pmm with
  | none => .error l
  | some (f,pmm) =>
    let vm := (vmmMapPageInCr3 { l.kmem.vm with pmm := pmm } cr3 (stackBottomAnchor+i*4096) (f*4096)
      userFlags).2
    .ok (elfAddPageToPcb grow { l.setVm { vm with mem := fill vm.mem f fun _ => 0 } with last := f } f)

/-- One page of a segment in `elf_load_into_process`. -/
def loadPage (cr3 : ℕ) (grow : ℕ → Bool) (l : Loading) (virt : ℕ) : Except Loading Loading :=
  match pmmAllocPage l.kmem.vm.pmm .userData with
  | none => .error l
  | some (f,pmm) =>
    let vm := (vmmMapPageInCr3 { l.kmem.vm with pmm := pmm } cr3 virt (f*4096) elfMapFlags).2
    .ok (elfAddPageToPcb grow { l.setVm (ensureHhdmMapped vm (f*4096)) with last := f } f)

/-- One page of `sys_brk`. -/
def brkPage (cr3 : ℕ) (grow : ℕ → Bool) (l : Loading) (virt : ℕ) : Except Loading Loading :=
  match pmmAllocPageForElf l.kmem.vm.pmm with
  | none => .error l
  | some (f,pmm) =>
    let vm := (vmmMapPageInCr3 { l.kmem.vm with pmm := pmm, mem := fill l.kmem.vm.mem f fun _ => 0 }
      cr3 virt (f*4096) userFlags).2
    .ok (elfAddPageToPcb grow { l.setVm vm with last := f } f)

/-- The pages from `first` up to `last`. -/
def pagesFrom (first last : ℕ) : List ℕ :=
  (List.range ((last-first+4095)/4096)).map fun i => first+i*4096

/-! ELF images. -/

/-- The buffer that holds an ELF file, by the bytes from its address on.  Bytes past the end are
whatever the kernel heap has there. -/
abbrev Image := ℕ → BitVec 8

/-- A little-endian field of `n` bytes. -/
def readField (img : Image) (off n : ℕ) : ℕ :=
  ((List.range n).map fun i => (img ((off+i)%2^64)).toNat*256^i).sum

structure Phdr where
  pType : ℕ
  pOffset : ℕ
  pVaddr : ℕ
  pFilesz : ℕ
  pMemsz : ℕ

def phdrAt (img : Image) (i : ℕ) : Phdr :=
  let start := readField img 32 8+56*i
  ⟨readField img start 4,readField img (start+8) 8,readField img (start+16) 8,
    readField img (start+32) 8,readField img (start+40) 8⟩

/-- The program headers, `e_phnum` from `e_phoff` on. -/
def phdrs (img : Image) : List Phdr := (List.range (readField img 56 2)).map (phdrAt img)

def ptLoad : ℕ := 1

def elfValidate (img : Image) : Bool :=
  img 0 = 0x7F#8 ∧ img 1 = 0x45#8 ∧ img 2 = 0x4C#8 ∧ img 3 = 0x46#8 ∧ img 4 = 2#8 ∧ img 5 = 1#8

def Phdr.startPage (ph : Phdr) : ℕ := ph.pVaddr/4096*4096
def Phdr.endPage (ph : Phdr) : ℕ := roundUp ((ph.pVaddr+ph.pMemsz)%2^64)

/-- The bytes `src` go to `count` addresses from `base` on. -/
def loadBytes (cr3 base count : ℕ) (src : ℕ → BitVec 8) (l : Loading) : CopyEnd × Loading :=
  let r := copyLoop id (storeChunk src) cr3 base count count 0 l.kmem.vm.mem []
  (r.1,l.setVm { l.kmem.vm with mem := r.2.1 })

/-- One segment: its pages, its bytes from the file, and zeros for the rest. -/
def loadSegment (cr3 : ℕ) (img : Image) (grow : ℕ → Bool) (ph : Phdr) (l : Loading) : CopyEnd × Loading :=
  match (pagesFrom ph.startPage ph.endPage).foldlM (loadPage cr3 grow) l with
  | .error l => (.failed,l)
  | .ok l =>
    match loadBytes cr3 ph.pVaddr ph.pFilesz (fun i => img ((ph.pOffset+i)%2^64)) l with
    | (.done,l) =>
      loadBytes cr3 ((ph.pVaddr+ph.pFilesz)%2^64) (ph.pMemsz-ph.pFilesz) (fun _ => 0) l
    | r => r

def loadSegments (cr3 : ℕ) (img : Image) (grow : ℕ → Bool) : List Phdr → Loading → CopyEnd × Loading
  | [], l => (.done,l)
  | ph::phs, l =>
    if ph.pType ≠ ptLoad then loadSegments cr3 img grow phs l else
    match loadSegment cr3 img grow ph l with
    | (.done,l) => loadSegments cr3 img grow phs l
    | r => r

def elfLoadIntoProcess (cr3 : ℕ) (img : Image) (grow : ℕ → Bool) (l : Loading) : CopyEnd × Loading :=
  if elfValidate img then loadSegments cr3 img grow (phdrs img) l else (.failed,l)

/-! Processes. -/

def maxProcesses : ℕ := 32

/-- The fields of a PCB that address spaces depend on.  `user` is `is_user` of
`process_create`. -/
structure Proc where
  pid : ℕ
  cr3 : ℕ
  elfPages : List ℕ
  brkVirt : ℕ
  user : Bool

/-- The PCBs in use, and `current_process`. -/
structure Sys where
  kmem : Kmem
  procs : List Proc
  nextPid : ℕ
  current : Option ℕ

def Sys.find (s : Sys) (pid : ℕ) : Option Proc := s.procs.find? fun p => p.pid = pid

def Sys.update (s : Sys) (pid : ℕ) (f : Proc → Proc) : Sys :=
  { s with procs := s.procs.map fun p => if p.pid = pid then f p else p }

/-- What a load has done so far, with the pages it has recorded for `pid`. -/
def Sys.loaded (s : Sys) (pid : ℕ) (l : Loading) : Sys :=
  { s with kmem := l.kmem }.update pid fun p => { p with elfPages := l.pages }

def isUser (entry : ℕ) : Bool := entry ≠ 0 ∧ entry < kernelBase

/-- The root that `vmm_clone_page_table` returns, 0 when it fails. -/
def clonedRoot : Except Vm (ℕ × Vm) → ℕ × Vm
  | .error vm => (0,vm)
  | .ok r => r

/-- `process_create`.  The result of the clone is not checked.  The new process has its kernel
stack at `kernelStackVirt`: there are as many stacks as PCBs, so one is always free. -/
def processCreate (s : Sys) (entry kernelStackVirt : ℕ) (grow : ℕ → Bool) : Option ℕ × Sys :=
  if maxProcesses ≤ s.procs.length then (none,s) else
  let root := clonedRoot (vmmClonePageTable s.kmem.vm s.kmem.vm.cr3)
  let created := fun (l : Loading) =>
    { s with
      kmem := l.kmem
      procs := s.procs++[⟨s.nextPid,root.1,l.pages,0,isUser entry⟩]
      nextPid := s.nextPid+1 }
  let l : Loading := ⟨{ s.kmem with vm := root.2 },[],0⟩
  match (if isUser entry then (List.range userStackPages).foldlM (stackPage root.1 grow) l
    else .ok l) with
  | .error l => (none,created l)
  | .ok l =>
    let vm := ensureHhdmMapped l.kmem.vm (vmmGetPhys l.kmem.vm kernelStackVirt)
    let vm := if l.last ≠ 0 then ensureHhdmMapped vm (l.last*4096) else vm
    (some s.nextPid,created (l.setVm vm))

/-- `process_init`; `idleEntry` is the address of `kernel_idle_loop`. -/
def processInit (s : Sys) (idleEntry kernelStackVirt : ℕ) : Sys :=
  match processCreate s idleEntry kernelStackVirt fun _ => false with
  | (none,s) => s
  | (some pid,s) => { s with current := some pid }

/-- `process_reclaim`, and `process_destroy` of a process. -/
def processReclaim (s : Sys) (p : Proc) : Sys :=
  { s with
    kmem := { s.kmem with
      vm := { s.kmem.vm with pmm := p.elfPages.foldl pmmFreePage s.kmem.vm.pmm } }
    procs := s.procs.filter fun q => q.pid ≠ p.pid
    current := if s.current = some p.pid then none else s.current }

def heapBase : ℕ := 0x8000200000

def Proc.oldBrk (p : Proc) : ℕ := if p.brkVirt = 0 then heapBase else p.brkVirt
def Proc.newBrk (p : Proc) (inc : ℤ) : ℕ := ((p.oldBrk+inc)%2^64).toNat

/-- The pages that `sys_brk` maps. -/
def Proc.brkPages (p : Proc) (inc : ℤ) : List ℕ :=
  pagesFrom (roundUp p.oldBrk) (roundUp (p.newBrk inc))

/-- `sys_brk` for the process `p`, with its result. -/
def sysBrk (s : Sys) (p : Proc) (inc : ℤ) (grow : ℕ → Bool) : ℤ × Sys :=
  let s := s.update p.pid fun q => { q with brkVirt := p.oldBrk }
  if inc = 0 then (p.oldBrk,s) else
  if inc < 0 ∧ p.newBrk inc < heapBase then (-1,s) else
  match (p.brkPages inc).foldlM (brkPage p.cr3 grow) ⟨s.kmem,p.elfPages,0⟩ with
  | .error l => (-1,s.loaded p.pid l)
  | .ok l => (p.newBrk inc,(s.loaded p.pid l).update p.pid fun q => { q with brkVirt := p.newBrk inc })

/-- `scheduler_switch_to`: the outgoing PCB saves the active root. -/
def Sys.dispatch (s : Sys) (p : Proc) : Sys :=
  if s.current = some p.pid then s else
  let s' := match s.current with
    | none => s
    | some pid => s.update pid fun q => { q with cr3 := s.kmem.vm.cr3 }
  { s' with
    kmem := { s.kmem with vm := { s.kmem.vm with cr3 := p.cr3 } }
    current := some p.pid }

/-! The system.  `sys_exec` is `create`, `load` and, when it fails, `reclaim`; `process_exit` is
`dispatch`, preceded by `reclaim` when nobody waits for the process. -/

inductive Event where
  | create (entry kernelStackVirt : ℕ) (grow : ℕ → Bool)
  | load (pid : ℕ) (img : Image) (grow : ℕ → Bool)
  | brk (inc : ℤ) (grow : ℕ → Bool)
  /-- Any other call of `kmalloc` that extends the heap. -/
  | extend (bytes : ℕ)
  | reclaim (pid : ℕ)
  | dispatch (pid : ℕ)
  /-- A store into kernel memory above 2 MB or into a frame of the HIGH zone. -/
  | write (f i : ℕ) (w : Word)

/-- Frames that hold data: the kernel's own, from 2 MB up to the first free one, and the HIGH
zone. -/
def Pmm.holdsData (p : Pmm) (f : ℕ) : Bool := 512 ≤ f ∧ f < p.zones.lowStart ∨ p.zones.highStart ≤ f

def Sys.user (s : Sys) (pid : ℕ) : Option Proc := (s.find pid).filter Proc.user

def Sys.step (s : Sys) : Event → Option Sys
  | .create entry kstack grow => some (processCreate s entry kstack grow).2
  | .load pid img grow => (s.user pid).map fun p =>
      s.loaded pid (elfLoadIntoProcess p.cr3 img grow ⟨s.kmem,p.elfPages,0⟩).2
  | .brk inc grow => (s.current.bind s.user).map fun p => (sysBrk s p inc grow).2
  | .extend bytes => some { s with kmem := (heapExtend s.kmem bytes).2 }
  | .reclaim pid => (s.find pid).map (processReclaim s)
  | .dispatch pid => (s.find pid).map s.dispatch
  | .write f i w =>
    if s.kmem.vm.pmm.holdsData f then some { s with kmem := { s.kmem with vm := s.kmem.vm.store f i w } }
    else none

/-- The machine after `pmm_init`, `vmm_init` and `heap_init`. -/
def heapReady (vm : Vm) : Sys := ⟨heapInit (vmmInit vm) heapStartAddr heapInitialSize,[],1,none⟩

end Memory
end DonsOs
