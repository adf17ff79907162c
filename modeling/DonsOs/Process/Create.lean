import DonsOs.Lib.Stack
import DonsOs.Memory.UserStack
import DonsOs.Sched.Table

/-! `process_create` as a whole.
The process table, memory and the kernel stacks change together: a PCB is taken, the active
address space is cloned, the user stack is mapped, a kernel stack is taken and the frame is pushed
from which the process will be resumed.  A result other than NULL is meant to say that all this
has worked; it says so unless one of three resources gives out, which the code does not check, or
the last frame of the stack is one that `ensure_hhdm_mapped` writes to. -/
namespace DonsOs
namespace Process

open Paging Memory

/-- `words` are the words of the kernel stacks, by address; the arrays are fields of the PCBs. -/
structure State where
  table : Sched.Table
  kmem : Kmem
  cr3 : Sched.Slot → ℕ
  elfPages : Sched.Slot → List ℕ
  userStackTop : Sched.Slot → ℕ
  rsp : Sched.Slot → ℕ
  words : ℕ → ℕ

def stackTopAnchor : ℕ := 0x8000100000

/-- The sixteen pages of a user stack. -/
def userStack (cr3 entry : ℕ) (grow : ℕ → Bool) (k : Kmem) : Except Loading Loading :=
  if isUser entry then (List.range userStackPages).foldlM (stackPage cr3 grow) ⟨k,[],0⟩
  else .ok ⟨k,[],0⟩

/-- The address of the kernel stack `slot`. -/
def kernelStackVirt (t : Sched.Table) (slot : Sched.StackSlot) : ℕ := t.stackPool+Sched.procStackSize*slot

/-- The two aliases that are made at the end. -/
def ensureAliases (l : Loading) (virt : ℕ) : Vm :=
  let vm := ensureHhdmMapped l.kmem.vm (vmmGetPhys l.kmem.vm virt)
  if l.last ≠ 0 then ensureHhdmMapped vm (l.last*4096) else vm

/-- The words of the initial frame, in the order in which they are pushed. -/
def frameWords (entry userTop kernelTop : ℕ) : List ℕ :=
  (if isUser entry then [0x2B,userTop,0x202,0x33,entry] else [0x20,kernelTop,0x202,0x18,entry])++
    List.replicate 15 0

/-- The root of the clone, and memory after it. -/
def State.root (s : State) : ℕ × Vm := clonedRoot (vmmClonePageTable s.kmem.vm s.kmem.vm.cr3)

/-- The PCB `p` after `process_initialize_pcb` and the clone, whose result is not checked. -/
def State.cloned (s : State) (p : Sched.Slot) (entry : ℕ) : State :=
  { s with
    table := s.table.started p entry
    kmem := s.kmem.setVm s.root.2
    cr3 := Function.update s.cr3 p s.root.1
    elfPages := Function.update s.elfPages p []
    userStackTop := Function.update s.userStackTop p 0
    rsp := Function.update s.rsp p 0 }

/-- What the loop over the stack pages has done. -/
def State.loaded (s : State) (p : Sched.Slot) (l : Loading) : State :=
  { s with kmem := l.kmem, elfPages := Function.update s.elfPages p l.pages }

def State.stacked (s : State) (p : Sched.Slot) (entry : ℕ) (l : Loading) : State :=
  { s.loaded p l with
    userStackTop := Function.update s.userStackTop p
      (if isUser entry then (stackTopAnchor-32)/16*16 else 0) }

/-- The kernel stack `slot` and the frame on it. -/
def State.framed (s : State) (p : Sched.Slot) (entry : ℕ) (l : Loading) (slot : Sched.StackSlot)
    (t : Sched.Table) : State :=
  let virt := kernelStackVirt t slot
  let top := virt+Sched.procStackSize
  { s with
    table := t.stacked p slot
    kmem := s.kmem.setVm (ensureAliases l virt)
    words := Stack.pushAll id s.words top (frameWords entry (s.userStackTop p) top)
    rsp := Function.update s.rsp p (top-8*20) }

def processCreate (s : State) (entry : ℕ) (grow : ℕ → Bool) : Option Sched.Slot × State :=
  match Sched.getFreePcb s.table.kernel with
  | none => (none,s)
  | some p =>
    match userStack s.root.1 entry grow (s.kmem.setVm s.root.2) with
    | .error l => (none,(s.cloned p entry).loaded p l)
    | .ok l =>
      match (s.table.started p entry).kernelStackSlotAlloc p with
      | (none,t) => (none,{ (s.cloned p entry).stacked p entry l with table := t.exhausted p })
      | (some slot,t) => (some p,((s.cloned p entry).stacked p entry l).framed p entry l slot t)

theorem processCreate_cases (s : State) (entry : ℕ) (grow : ℕ → Bool) :
    Sched.getFreePcb s.table.kernel = none ∧ processCreate s entry grow = (none,s) ∨
      ∃ p, Sched.getFreePcb s.table.kernel = some p ∧
        ((∃ l, userStack s.root.1 entry grow (s.kmem.setVm s.root.2) = .error l ∧
            processCreate s entry grow = (none,(s.cloned p entry).loaded p l)) ∨
          ∃ l, userStack s.root.1 entry grow (s.kmem.setVm s.root.2) = .ok l ∧
            ((∀ i, s.table.slotOwner i ≠ none) ∧ processCreate s entry grow =
                (none,{ (s.cloned p entry).stacked p entry l with
                  table := (s.table.started p entry).exhausted p }) ∨
              ∃ i, s.table.slotOwner i = none ∧ processCreate s entry grow =
                (some p,((s.cloned p entry).stacked p entry l).framed p entry l i
                  ((s.table.started p entry).give i p)))) := by
  cases hfree : Sched.getFreePcb s.table.kernel with
  | none => exact Or.inl ⟨rfl,by simp only [processCreate,hfree]⟩
  | some p =>
    refine Or.inr ⟨p,rfl,?_⟩
    cases hstack : userStack s.root.1 entry grow (s.kmem.setVm s.root.2) with
    | error l => exact Or.inl ⟨l,rfl,by simp only [processCreate,hfree,hstack]⟩
    | ok l =>
      refine Or.inr ⟨l,rfl,?_⟩
      rcases Sched.Table.slotAlloc_cases (s.table.started p entry) p with ⟨hno,he⟩ | ⟨i,hi,he⟩
      · exact Or.inl ⟨hno,by simp only [processCreate,hfree,hstack,he]⟩
      · exact Or.inr ⟨i,hi,by simp only [processCreate,hfree,hstack,he,Sched.Table.give]⟩

/-- What it does to the process table is what `Table` says, whether or not the user stack can be
made. -/
theorem processCreate_table (s : State) (entry : ℕ) (grow : ℕ → Bool) :
    ∃ made, s.table.processCreate entry made =
      ((processCreate s entry grow).1,(processCreate s entry grow).2.table) := by
  cases hfree : Sched.getFreePcb s.table.kernel with
  | none => exact ⟨true,by simp only [Sched.Table.processCreate,processCreate,hfree]⟩
  | some p =>
    cases hstack : userStack s.root.1 entry grow (s.kmem.setVm s.root.2) with
    | error l =>
      have hu : entry ≠ 0 ∧ entry < kernelBase := by
        by_contra hno
        have hkernel : ¬isUser entry = true := by simpa [isUser] using hno
        rw [userStack,if_neg hkernel] at hstack
        cases hstack
      refine ⟨false,?_⟩
      simp only [Sched.Table.processCreate,processCreate,hfree,hstack]
      rw [if_pos ⟨hu.1,hu.2,trivial⟩]
      rfl
    | ok l =>
      refine ⟨true,?_⟩
      simp only [Sched.Table.processCreate,processCreate,hfree,hstack,Bool.true_eq_false,and_false,if_false]
      cases (s.table.started p entry).kernelStackSlotAlloc p with
      | mk slot t => cases slot <;> rfl

/-! What a process needs to run. -/

/-- The process `p`, created between `s` and `s'`, can run: it has a fresh clone of the address space
with all of its stack, a kernel stack of its own, and a frame on it that starts the program. -/
structure Runnable (s s' : State) (p : Sched.Slot) (entry : ℕ) : Prop where
  root : s'.cr3 p ≠ 0
  fresh : ∃ vm, vmmClonePageTable s.kmem.vm s.kmem.vm.cr3 = .ok (s'.cr3 p,vm)
  stack : StackMapped s'.kmem.vm.mem (s'.cr3 p) (s'.elfPages p)
  slot : ∃ i, s'.table.kernelStackSlot p = some i ∧ s'.table.slotOwner i = some p
  top : s'.userStackTop p = stackTopAnchor-32
  frame : Stack.popAll id s'.words (s'.rsp p) 20 =
    List.replicate 15 0++[entry,0x33,0x202,s'.userStackTop p,0x2B]

/-- A kernel in working order: tables and frames are arranged as its own functions leave them, and
the kernel stacks lie in its own memory. -/
structure State.Sound (L : Layout) (σ : Shape) (s : State) : Prop where
  arranged : Arranged L s.kmem.vm σ
  heap : present (L.top heapSlot) = true
  bounded : s.kmem.Bounded
  kernelStacks : ∀ slot, s.kmem.vm.KernelStack (kernelStackVirt s.table slot)

/-- There are frames for the tables of the clone and of the stack, the heap has room for the page
list, and the frame of the uppermost stack page does not begin a 2 MB block. -/
structure State.Provided (s : State) (grow : ℕ → Bool) : Prop where
  tables : tablesNeeded s.kmem.vm.mem s.kmem.vm.cr3+missing s.kmem.vm.mem s.kmem.vm.cr3 stackPath ≤
    lowFree s.kmem.vm.pmm
  list : s.kmem.Listed grow
  top : ∀ f, (s.kmem.stackFrames grow)[15]? = some f → f%512 ≠ 0

variable {L : Layout} {σ : Shape} {s s' : State} {entry : ℕ} {grow : ℕ → Bool} {p : Sched.Slot}

theorem popAll_frame (words : ℕ → ℕ) {top : ℕ} {ws : List ℕ} (hlen : ws.length = 20) (htop : 8*20 ≤ top) :
    Stack.popAll id (Stack.pushAll id words top ws) (top-8*20) 20 = ws.reverse := by
  have hpop := Stack.popAll_pushAll Function.injective_id words (hlen.symm ▸ htop)
  rwa [hlen] at hpop

/-- The kernel stack and the frame are there whenever a process is created. -/
theorem runnable_iff (hu : isUser entry = true) (h : processCreate s entry grow = (some p,s')) :
    Runnable s s' p entry ↔ s'.cr3 p ≠ 0 ∧
      (∃ vm, vmmClonePageTable s.kmem.vm s.kmem.vm.cr3 = .ok (s'.cr3 p,vm)) ∧
      StackMapped s'.kmem.vm.mem (s'.cr3 p) (s'.elfPages p) := by
  rcases processCreate_cases s entry grow with
    ⟨-,he⟩ | ⟨q,-,⟨l,-,he⟩ | ⟨l,-,⟨-,he⟩ | ⟨i,-,he⟩⟩⟩
  · rw [he] at h
    cases h
  · rw [he] at h
    cases h
  · rw [he] at h
    cases h
  rw [he,Prod.mk.injEq,Option.some.injEq] at h
  obtain ⟨rfl,rfl⟩ := h
  refine ⟨fun hr => ⟨hr.root,hr.fresh,hr.stack⟩,fun hr => ⟨hr.1,hr.2.1,hr.2.2,⟨i,?_,?_⟩,?_,?_⟩⟩
  · simp [State.framed,Sched.Table.stacked]
  · simp [State.framed,Sched.Table.stacked,Sched.Table.give]
  · simp [State.framed,State.stacked,hu,stackTopAnchor]
  · simp only [State.framed,Function.update_self]
    rw [popAll_frame _ (by simp [frameWords,hu]) (by rw [Sched.procStackSize]; omega)]
    simp [frameWords,hu]

section
variable (h : s.Sound L σ) {new : ℕ} {vm : Vm}
  (hrun : vmmClonePageTable s.kmem.vm s.kmem.vm.cr3 = .ok (new,vm))
include h hrun

/-- Where the memory of a clone has the frames for its stack. -/
theorem stackFrames_clone (grow : ℕ → Bool) :
    (s.kmem.setVm vm).stackFrames grow = s.kmem.stackFrames grow := by
  simp only [Kmem.stackFrames,Kmem.setVm,(h.arranged.clone_supplies hrun).2]

theorem State.Sound.stackLoop (hu : isUser entry = true) (grow : ℕ → Bool) :
    ∃ σ', σ.Le σ' ∧ σ'.ty new = some (new,[]) ∧
      Run.Ends (Stacked L σ' vm.cr3 new
          (decide (missing s.kmem.vm.mem s.kmem.vm.cr3 stackPath ≤ lowFree vm.pmm)) (s.kmem.setVm vm) grow 16)
        (fun _ => (s.kmem.stackFrames grow).length < 16) (userStack new entry grow (s.kmem.setVm vm)) := by
  obtain ⟨σ',hle,h',-,hty⟩ := h.arranged.clone hrun
  rw [userStack,if_pos hu,← (h.arranged.clone_supplies hrun).1,← stackFrames_clone h hrun grow]
  have hstart : Stacking L σ' vm.cr3 new (decide (missing vm.mem new stackPath ≤ lowFree vm.pmm)) []
      (s.kmem.setVm vm).vm :=
    ⟨h'.kept,by simp,by simp,fun _ => decide_eq_true_iff,fun _ hne => absurd rfl hne⟩
  exact ⟨σ',hle,hty,userStack_ends h.heap hty hstart ⟨h.bounded.brk,h.bounded.mapped⟩ grow⟩

theorem State.Sound.stack_iff {l : Loading} (hu : isUser entry = true)
    (hl : userStack new entry grow (s.kmem.setVm vm) = .ok l) (slot : Sched.StackSlot) :
    StackMapped (ensureAliases l (kernelStackVirt s.table slot)).mem new l.pages ↔
      missing s.kmem.vm.mem s.kmem.vm.cr3 stackPath ≤ lowFree vm.pmm ∧ s.kmem.Listed grow ∧
        ∀ f, (s.kmem.stackFrames grow)[15]? = some f → f%512 ≠ 0 := by
  obtain ⟨σ',hle,hty,hends⟩ := h.stackLoop hrun hu grow
  rw [hl] at hends
  have hstack : Stacked L σ' vm.cr3 new
      (decide (missing s.kmem.vm.mem s.kmem.vm.cr3 stackPath ≤ lowFree vm.pmm)) (s.kmem.setVm vm) grow 16 l :=
    hends
  obtain ⟨σ₂,hle₂,h₂,hc₂⟩ := hstack.stacking.kept
  -- the alias of the kernel stack is there, that of the last frame is made
  have hfirst : ensureHhdmMapped l.kmem.vm (vmmGetPhys l.kmem.vm (kernelStackVirt s.table slot)) = l.kmem.vm :=
    Kept.kernelStack h.arranged (h.kernelStacks slot) ⟨σ₂,hle.trans hle₂,h₂,hc₂⟩
  have hlast : l.last ≠ 0 := by
    have hge := hstack.last_mem.2.1
    have hhi := L.high
    omega
  have hget := hstack.last
  rw [stackFrames_clone h hrun] at hget
  simp only [ensureAliases,hfirst]
  rw [if_pos hlast,hstack.mapped_iff hty,decide_eq_true_eq]
  refine and_congr_right fun _ => and_congr_right fun _ => ⟨fun hne f hf => ?_,fun hall => hall _ hget⟩
  rw [hget] at hf
  rwa [← Option.some.inj hf]

end

/-- A process that has been created can run exactly when all it needs was provided. -/
theorem create_runnable_iff (h : s.Sound L σ) (hu : isUser entry = true)
    (hc : processCreate s entry grow = (some p,s')) :
    Runnable s s' p entry ↔ s.Provided grow := by
  rw [runnable_iff hu hc]
  obtain ⟨hsupply,hshort⟩ := clone_supply h.arranged.source
  rcases processCreate_cases s entry grow with
    ⟨-,he⟩ | ⟨q,-,⟨l,-,he⟩ | ⟨l,hl,⟨-,he⟩ | ⟨i,-,he⟩⟩⟩
  · rw [he] at hc
    cases hc
  · rw [he] at hc
    cases hc
  · rw [he] at hc
    cases hc
  rw [he,Prod.mk.injEq,Option.some.injEq] at hc
  obtain ⟨rfl,rfl⟩ := hc
  have hvirt : kernelStackVirt ((s.table.started q entry).give i q) i = kernelStackVirt s.table i := rfl
  simp only [State.framed,State.stacked,State.loaded,State.cloned,Kmem.setVm,Function.update_self,hvirt]
  cases hrun : vmmClonePageTable s.kmem.vm s.kmem.vm.cr3 with
  | error vm =>
    have hroot : s.root = (0,vm) := by rw [State.root,hrun,clonedRoot]
    refine ⟨fun hr => absurd (congrArg Prod.fst hroot) hr.1,fun hprov => ?_⟩
    have htables := hprov.tables
    obtain ⟨new,vm',hok,-⟩ := hsupply (by omega)
    rw [hrun] at hok
    cases hok
  | ok x =>
    obtain ⟨new,vm⟩ := x
    have hroot : s.root = (new,vm) := by rw [State.root,hrun,clonedRoot]
    rw [hroot] at hl ⊢
    dsimp only at hl ⊢
    have hfree : lowFree s.kmem.vm.pmm = lowFree vm.pmm+tablesNeeded s.kmem.vm.mem s.kmem.vm.cr3 := by
      by_cases hle : tablesNeeded s.kmem.vm.mem s.kmem.vm.cr3 ≤ lowFree s.kmem.vm.pmm
      · obtain ⟨new',vm',hok,hfree⟩ := hsupply hle
        rw [hrun,Except.ok.injEq,Prod.mk.injEq] at hok
        rw [hfree,hok.2]
      · obtain ⟨vm',herr⟩ := hshort (by omega)
        rw [hrun] at herr
        cases herr
    have hnew : new ≠ 0 := by
      obtain ⟨σ',-,h',-,hty⟩ := h.arranged.clone hrun
      have := (h'.typed hty).1
      omega
    rw [h.stack_iff hrun hu hl i]
    constructor
    · rintro ⟨-,-,hmiss,hlist,htop⟩
      exact ⟨by omega,hlist,htop⟩
    · rintro ⟨htables,hlist,htop⟩
      exact ⟨hnew,⟨vm,rfl⟩,by omega,hlist,htop⟩

/-! A machine. -/

/-- The boot tables, and the first table of an empty heap in frame 1024. -/
def readyMem : Mem := store (bootMem 0x12) 0x12 heapSlot (Paging.entry 1024 3#64)

def readyVm (p : Pmm) : Vm := ⟨readyMem,p,0x12⟩

theorem readyMem_of_ne {f : ℕ} (hf : f ≠ 0x12) : readyMem f = bootMem 0x12 f := store_of_ne hf

theorem readyMem_root {i : ℕ} (hi : i ≠ heapSlot) : readyMem 0x12 i = bootMem 0x12 0x12 i := by
  rw [readyMem,store_apply,if_neg (by simp [hi])]

def readyLayout : Layout where
  base := 0x12
  top := readyMem 0x12
  low := readyMem
  zones := bootPmm.zones
  below := by decide
  upper := by
    refine ⟨by decide +kernel,by decide +kernel,fun i hi => ?_⟩
    by_cases hs : i = heapSlot
    · subst hs
      revert hi
      decide +kernel
    · rw [readyMem_root hs,bootMem_root] at hi ⊢
      simp only [bootPml4] at hi ⊢
      split_ifs at hi ⊢ <;> first | rfl | (revert hi; decide +kernel)
  ordered := by decide
  apart := by decide
  high := by decide

def readyShape : Shape := ⟨fun _ => none,fun f => if f = 1024 then some 2 else none⟩

theorem readyMem_boot : BootWords 0x12 readyMem := by
  refine ⟨fun t i _ _ hlow => Or.inl ?_,fun i hi => ?_⟩
  · by_cases ht : t = 0x12
    · subst ht
      exact readyMem_root fun h => hlow ⟨rfl,by rw [h]; decide⟩
    · rw [readyMem_of_ne ht]
  · rw [readyMem_of_ne (by omega),bootMem_pd,bootPd,if_neg (by omega)]
    split
    · rw [user,getLsbD_entry (by decide)]
      rfl
    · rfl

theorem readyMem_heap (i : ℕ) : readyMem 1024 i = 0 := by
  rw [readyMem_of_ne (by decide)]
  rfl

theorem readyVm_arranged {p : Pmm} (hz : p.zones = bootPmm.zones) (hn : p.nextHigh ≤ 29695)
    (hb : ∀ f ≤ 1024, p.bitmap f = true) : Arranged readyLayout (readyVm p) readyShape where
  forest := by
    refine ⟨fun _ _ h => ?_,fun _ _ h => ?_,fun _ _ _ h => ?_⟩ <;> cases h
  boot := readyMem_boot
  high := by
    rintro r (rfl | h)
    · have hself : readyMem 0x12 510 = Paging.entry 0x12 (ptPresent ||| ptWrite) := by decide +kernel
      exact ⟨fun i _ _ _ => Opens.refl _,hself⟩
    · cases h
  active := Or.inl rfl
  zones := hz
  nextHigh := hn
  reserved f hf := hb f (by
    have hlow : readyLayout.zones.lowStart = 1024 := by decide
    omega)
  own _ _ h := by cases h
  kernel _ _ _ := rfl
  data _ h := by cases h
  heap f n h := by
    simp only [readyShape] at h
    split at h
    · rename_i hf
      subst hf
      exact ⟨by decide,by decide,by decide,hb 1024 le_rfl,rfl⟩
    · cases h
  link f n i h hp := by
    simp only [readyShape] at h
    split at h
    · rename_i hf
      subst hf
      change present (readyMem 1024 i) = true at hp
      rw [readyMem_heap] at hp
      cases hp
    · cases h
  slot _ := by decide +kernel

/-- The process table with idle alone. -/
def idleTable : Sched.Table := (Sched.Table.blank 0xFFFFFFFF80100000 none).processInit

/-- The machine before the first user process, with the allocator `p`. -/
def ready (p : Pmm) : State where
  table := idleTable
  kmem := ⟨readyVm p,Heap.heapStartAddr,0⟩
  cr3 _ := 0x12
  elfPages _ := []
  userStackTop _ := 0
  rsp _ := 0
  words _ := 0

theorem ready_sound {p : Pmm} (hz : p.zones = bootPmm.zones) (hn : p.nextHigh ≤ 29695)
    (hb : ∀ f ≤ 1024, p.bitmap f = true) : (ready p).Sound readyLayout readyShape := by
  have harr := readyVm_arranged hz hn hb
  refine ⟨harr,by decide +kernel,⟨rfl,Nat.zero_le _⟩,fun slot => ?_⟩
  have hpool : idleTable.stackPool = 0xFFFFFFFF80100000 := by decide +kernel
  have hlow : readyLayout.zones.lowStart = 1024 := by decide
  have hslot := slot.isLt
  have hvirt : kernelStackVirt (ready p).table slot = 0xFFFFFFFF80100000+16384*slot := by
    rw [kernelStackVirt,ready,hpool,Sched.procStackSize]
  refine ⟨?_,?_,?_⟩
  · rw [hvirt,kernelBase]
    omega
  · change _ < kernelBase+4096*p.zones.lowStart
    rw [hvirt,hz,kernelBase]
    change _ < _+4096*readyLayout.zones.lowStart
    omega
  · change vmmGetPhys (readyVm p) _ < _
    rw [hvirt,harr.getPhys (by rw [kernelBase]; omega) (by rw [hlow,kernelBase]; omega)]
    have hidx : pdIdx (0xFFFFFFFF80100000+16384*slot) = 0 := by
      simp only [pdIdx]
      omega
    rw [if_pos hidx]
    simp only [ptIdx]
    omega

/-- An allocator without frames for tables. -/
def lowEmpty : Pmm :=
  { bootPmm with bitmap := fun f => f < 8192 || 8212 < f, nextLow := 8191, nextHigh := 8212 }

/-- A process without an address space: its root is frame 0. -/
theorem created_without_root : ∃ s', (ready lowEmpty).Sound readyLayout readyShape ∧
    isUser userCodeBase = true ∧
    processCreate (ready lowEmpty) userCodeBase (fun _ => false) = (some 1,s') ∧
      ¬Runnable (ready lowEmpty) s' 1 userCodeBase := by
  have hrun : (processCreate (ready lowEmpty) userCodeBase fun _ => false).1 = some 1 ∧
      (processCreate (ready lowEmpty) userCodeBase fun _ => false).2.cr3 1 = 0 := by decide +kernel
  refine ⟨_,ready_sound rfl (by decide) fun f hf => ?_,by decide,Prod.ext hrun.1 rfl,fun h => h.root hrun.2⟩
  simp [lowEmpty]
  omega

/-- With a free PCB, a free kernel stack, a clone and the frames of the stack, there is a result. -/
theorem State.Sound.creates (h : s.Sound L σ) (hu : isUser entry = true)
    (hfree : Sched.getFreePcb s.table.kernel = some p) {slot : Sched.StackSlot}
    (hslot : s.table.slotOwner slot = none)
    (htables : tablesNeeded s.kmem.vm.mem s.kmem.vm.cr3 ≤ lowFree s.kmem.vm.pmm)
    (grow : ℕ → Bool) (hframes : 16 ≤ (s.kmem.stackFrames grow).length) : ∃ s', processCreate s entry grow = (some p,s') := by
  obtain ⟨new,vm,hrun,-⟩ := (clone_supply h.arranged.source).1 htables
  obtain ⟨_,-,-,hends⟩ := h.stackLoop hrun hu grow
  have hroot : s.root = (new,vm) := by rw [State.root,hrun,clonedRoot]
  rcases processCreate_cases s entry grow with ⟨hno,-⟩ | ⟨q,hq,⟨l,hl,-⟩ | ⟨l,-,⟨hno,-⟩ | ⟨i,-,he⟩⟩⟩
  · rw [hfree] at hno
    cases hno
  · rw [hroot] at hl
    rw [hl] at hends
    exact absurd (show (s.kmem.stackFrames grow).length < 16 from hends) (by omega)
  · exact absurd hslot (hno slot)
  · rw [hfree,Option.some.injEq] at hq
    subst hq
    exact ⟨_,he⟩

/-- An allocator with frames for tables and for one user stack. -/
def roomy : Pmm :=
  { bootPmm with bitmap := fun f => f < 1025 || 8212 < f, nextLow := 1025, nextHigh := 8212 }

theorem roomy_lowFree : 7 ≤ lowFree roomy := by
  have hsub : Finset.Icc 1025 1031 ⊆ lowFrames roomy := by
    intro f hf
    rw [Finset.mem_Icc] at hf
    have hzones : roomy.zones.lowEnd = 8191 := by decide
    refine mem_lowFrames.mpr ⟨⟨hf.1,by omega⟩,by omega,?_⟩
    simp only [roomy,Bool.or_eq_false_iff,decide_eq_false_iff_not]
    omega
  exact Finset.card_le_card hsub

theorem roomy_stackFrames : (ready roomy).kmem.stackFrames (fun _ => false) =
    [8212,8211,8210,8209,8208,8207,8206,8205,8204,8203,8202,8201,8200,8199,8198,8197,8196,8195,8194,8193,
      8192] := by decide +kernel

theorem first_process_runnable :
    ∃ s', processCreate (ready roomy) userCodeBase (fun _ => false) = (some 1,s') ∧
      Runnable (ready roomy) s' 1 userCodeBase := by
  have hsound : (ready roomy).Sound readyLayout readyShape := by
    refine ready_sound rfl (by decide) fun f hf => ?_
    simp only [roomy,Bool.or_eq_true,decide_eq_true_eq]
    omega
  have hu : isUser userCodeBase = true := by decide
  have hfree : Sched.getFreePcb (ready roomy).table.kernel = some 1 := by decide +kernel
  have hslot : (ready roomy).table.slotOwner 1 = none := by decide +kernel
  have hneed : tablesNeeded (ready roomy).kmem.vm.mem (ready roomy).kmem.vm.cr3 = 4 ∧
      missing (ready roomy).kmem.vm.mem (ready roomy).kmem.vm.cr3 stackPath = 3 := by decide +kernel
  have hroom : 7 ≤ lowFree (ready roomy).kmem.vm.pmm := roomy_lowFree
  obtain ⟨s',hrun⟩ := hsound.creates hu hfree hslot (by omega) (fun _ => false)
    (by rw [roomy_stackFrames]; decide)
  refine ⟨s',hrun,(create_runnable_iff hsound hu hrun).mpr ⟨by omega,by simp [Kmem.Listed],fun f hf => ?_⟩⟩
  rw [roomy_stackFrames,List.getElem?_cons_succ] at hf
  obtain rfl : 8197 = f := Option.some.inj hf
  decide

end Process
end DonsOs
