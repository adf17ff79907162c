import DonsOs.Cpu.Transparent

/-! `context_switch.asm` and the way out of `irq0_stub`, instruction by instruction.
`contextSwitch` and `irq0Stub` say which words end up on the stack and which registers are
popped.  Here the instructions do it: temporaries are pushed between the registers of the
caller and the frame and read back relative to a stack pointer that moves, and the PCB is
memory that the code reaches by offsets.  Running the save path on an ideal stack, a list of
words, and a PCB of its own computes what it leaves; the real memory shows that as long as
the PCB is not on the stack. -/
namespace DonsOs
namespace Cpu
namespace Asm

open Sched Stack

/-! The instructions that are used. -/

inductive Operand where
  | reg (r : Reg)
  | imm (n : ℕ)
  /-- The word at `[base + off]`. -/
  | mem (base : Reg) (off : ℕ)
  | cr3

inductive Instr where
  | push (src : Operand)
  | pop (dst : Reg)
  | mov (dst : Reg) (src : Operand)
  | lea (dst base : Reg) (off : ℕ)
  | store (base : Reg) (off : ℕ) (src : Reg)
  | movCr3 (src : Reg)
  | movAl (n : ℕ)
  | movDx (n : ℕ)
  /-- `out port, al`. -/
  | out (port : ℕ)
  /-- `out dx, al`. -/
  | outDx
  | ret
  | iretq

/-- The processor, the memory and what has been written to ports.  `rip` is the address to
return to; inside the code the place of execution is that in the definitions below. -/
structure Core where
  regs : Regs
  cr3 : ℕ
  mem : Cell → ℕ
  ports : List (ℕ × ℕ)

variable {s t u v : Core} {p top : ℕ}

def Core.word (s : Core) (a : ℕ) : ℕ := s.mem (cell s.cr3 a)

def Core.value (s : Core) : Operand → ℕ
  | .reg r => s.regs r
  | .imm n => n
  | .mem base off => s.word (s.regs base+off)
  | .cr3 => s.cr3

def Core.set (s : Core) (r : Reg) (v : ℕ) : Core := { s with regs := Function.update s.regs r v }

def exec (s : Core) : Instr → Core
  -- an operand relative to `rsp` is read before `rsp` moves
  | .push src =>
    { s.set .rsp (s.regs .rsp-8) with
      mem := Function.update s.mem (cell s.cr3 (s.regs .rsp-8)) (s.value src) }
  | .pop dst => (s.set .rsp (s.regs .rsp+8)).set dst (s.word (s.regs .rsp))
  | .mov dst src => s.set dst (s.value src)
  | .lea dst base off => s.set dst (s.regs base+off)
  | .store base off src =>
    { s with mem := Function.update s.mem (cell s.cr3 (s.regs base+off)) (s.regs src) }
  | .movCr3 src => { s with cr3 := s.regs src }
  | .movAl n => s.set .rax (s.regs .rax/256*256+n)
  | .movDx n => s.set .rdx (s.regs .rdx/65536*65536+n)
  | .out port => { s with ports := s.ports++[(port,s.regs .rax%256)] }
  | .outDx => { s with ports := s.ports++[(s.regs .rdx%65536,s.regs .rax%256)] }
  | .ret => (s.set .rsp (s.regs .rsp+8)).set .rip (s.word (s.regs .rsp))
  | .iretq =>
    { s with
      regs := fun r => match r with
        | .rip => s.word (s.regs .rsp)
        | .cs => s.word (s.regs .rsp+8)
        | .rflags => s.word (s.regs .rsp+16)
        | .rsp => s.word (s.regs .rsp+24)
        | .ss => s.word (s.regs .rsp+32)
        | r => s.regs r }

def execAll (is : List Instr) (s : Core) : Core := is.foldl exec s

/-- `call`: the address to return to is pushed. -/
def call (s : Core) : Core := exec s (.push (.reg .rip))

/-! `context_switch`. -/

def pushCallerRegs : List Instr := calleeSaved.map fun r => .push (.reg r)

/-- The general registers are pushed from the PCB: `rax` first. -/
def pushSaved : List Instr :=
  [0x108,0x100,0x0F8,0x0F0,0x0E8,0x0E0,0x0D8,0x0D0,0x0C8,0x0C0,0x0B8,0x0B0,0x0A8,0x0A0,0x098].map
    fun off => .push (.mem .r15 off)

/-- `prev->rsp` and `prev->cr3`. -/
def storeFrameBase : List Instr :=
  [.store .r15 0x110 .rsp,.mov .rax .cr3,.store .r15 0x30 .rax]

/-- `r15` is `prev`, and `rax` its `block_kind`. -/
def loadKind : List Instr := [.mov .r15 (.reg .rdi),.mov .rax (.mem .r15 0x158)]

/-- The user path up to the choice of `rip`. -/
def userHead : List Instr :=
  [.push (.imm 0x2B),.push (.mem .r15 0x110),.push (.imm 0x202),.push (.imm 0x33),
    .mov .rax (.mem .r15 0x118)]

def userTail : List Instr := .push (.reg .rax)::pushSaved++storeFrameBase

/-- The registers of the caller go from the stack into the PCB. -/
def storeCallerRegs : List Instr :=
  [(0x00,0x098),(0x08,0x0A0),(0x10,0x0A8),(0x18,0x0B0),(0x20,0x100),(0x28,0x0D8)].flatMap fun f =>
    [.mov .rax (.mem .rsp f.1),.store .r15 f.2 .rax]

/-- The two temporaries, and the words of the frame from `ss` to `rip`. -/
def ring0Head : List Instr :=
  [.mov .rax (.mem .rsp 48),.push (.reg .rax),.lea .rax .rsp 64,.push (.reg .rax),
    .push (.imm 0x20),.push (.mem .rsp 8),.push (.imm 0x202),.push (.imm 0x18),.push (.mem .rsp 40)]

/-- `.ring0_save`. -/
def ring0Save : List Instr := storeCallerRegs++ring0Head++pushSaved++storeFrameBase

/-- `context_switch` from its entry to `.skip_save`; `rdi` is `prev` and `rsi` is `next`. -/
def save (s : Core) : Core :=
  let s := execAll (pushCallerRegs++[.mov .r12 (.reg .rsi)]) s
  if s.regs .rdi = 0 then s else
  let s := execAll loadKind s
  if s.regs .rax ≠ 0 then execAll ring0Save s else
  let s := exec s (.mov .rax (.mem .r15 0x118))
  if kernelBase ≤ s.regs .rax then execAll ring0Save s else
  let s := execAll userHead s
  let s := if s.regs .rax ≠ 0 then s else exec s (.mov .rax (.mem .r15 0x38))
  execAll userTail s

/-- The code has come to an `iretq` or a `ret`, or it has complained and executed `hlt`. -/
inductive Outcome where
  | running (s : Core)
  | halted (s : Core)

/-- A letter and a newline on the serial port. -/
def complain (c : Char) : List Instr :=
  [.movDx 0x3F8,.movAl c.toNat,.outDx,.movAl 0x0A,.outDx]

/-- `POP_ALL_GPRS`, also `.pop_frame`. -/
def popGprs : List Instr :=
  [.r15,.r14,.r13,.r12,.r11,.r10,.r9,.r8,.rbp,.rdi,.rsi,.rdx,.rcx,.rbx,.rax].map .pop

def restoreAndReturn : List Instr := [.r15,.r14,.r13,.r12,.rbx,.rbp].map Instr.pop++[.ret]

/-- Loads `rip` of the frame for the comparison with `KERNEL_BASE`. -/
def loadRip : List Instr := [.mov .rbx (.mem .rsp 0x78),.mov .rcx (.imm kernelBase)]

/-- `context_switch` from `.skip_save` on; `r12` is `next`. -/
def resume (s : Core) : Outcome :=
  if s.regs .r12 = 0 then .running (execAll restoreAndReturn s) else
  let s := execAll [.mov .rax (.mem .r12 0x30),.movCr3 .rax,.mov .rsp (.mem .r12 0x110),
    .mov .rbx (.mem .rsp 0x80)] s
  if s.regs .rbx = 0x18 then
    let s := execAll loadRip s
    if s.regs .rcx ≤ s.regs .rbx then .running (execAll (popGprs++[.iretq]) s)
    else .halted (execAll (complain 'K') s)
  else if s.regs .rbx = 0x33 then
    let s := execAll loadRip s
    if s.regs .rbx < s.regs .rcx then .running (execAll (popGprs++[.iretq]) s)
    else .halted (execAll (complain 'U') s)
  else .halted (execAll (complain 'C') s)

/-- `context_switch(prev, next)` from the call on. -/
def contextSwitch (s : Core) : Outcome := resume (save (call s))

def signalEoi : List Instr := [.push (.reg .rax),.movAl 0x20,.out 0x20,.pop .rax]

/-- `irq0_stub` after the call of `timer_preempt_handler`, which has returned the stack pointer to
resume from in `rax`. -/
def irq0Return (s : Core) : Core :=
  execAll (popGprs++signalEoi++[.iretq]) (exec s (.mov .rsp (.reg .rax)))

/-! Popping a frame. -/

theorem readFrame_word (mem : Cell → ℕ) (cr3 sp : ℕ) (r : Reg) :
    readFrame mem cr3 sp r = mem (cell cr3 (sp+8*frameRegs.idxOf r)) := by
  cases r <;> rfl

theorem execAll_append (is js : List Instr) (s : Core) :
    execAll (is++js) s = execAll js (execAll is s) := List.foldl_append

/-- `iretq` after the pops leaves the registers of the frame. -/
theorem pop_frame (s : Core) : execAll (popGprs++[.iretq]) s =
    { s with regs := readFrame s.mem s.cr3 (s.regs .rsp) } := by
  have hregs : (execAll (popGprs++[.iretq]) s).regs = readFrame s.mem s.cr3 (s.regs .rsp) := by
    funext r
    cases r <;> rfl
  rw [← hregs]
  rfl

/-- The end of interrupt is signalled with `rax` on the stack, where it has just been popped from. -/
theorem eoi_kept (h : s.word (s.regs .rsp-8) = s.regs .rax) (hsp : 8 ≤ s.regs .rsp) :
    execAll signalEoi s =
      { s with ports := s.ports++[(0x20,0x20)] } := by
  have hmem : Function.update s.mem (cell s.cr3 (s.regs .rsp-8)) (s.regs .rax) = s.mem := by
    rw [← h]
    exact Function.update_eq_self _ _
  have hport : (s.regs .rax/256*256+32)%256 = 32 := by omega
  simp only [signalEoi,execAll,List.foldl_cons,List.foldl_nil,exec,Core.set,Core.value,Core.word,
    Function.update_self,hmem,Core.mk.injEq,true_and] at h ⊢
  constructor
  · funext r
    cases r <;> simp [h,Nat.sub_add_cancel hsp]
  · simp [hport]

theorem popGprs_kept (s : Core) : (execAll popGprs s).mem = s.mem ∧ (execAll popGprs s).cr3 = s.cr3 ∧
    (execAll popGprs s).ports = s.ports ∧ (execAll popGprs s).regs .rsp = s.regs .rsp+120 ∧
    (execAll popGprs s).regs .rax = s.word (s.regs .rsp+112) := ⟨rfl,rfl,rfl,rfl,rfl⟩

theorem irq0Return_eq (s : Core) : irq0Return s = { s with
    regs := readFrame s.mem s.cr3 (s.regs .rax), ports := s.ports++[(0x20,0x20)] } := by
  rw [irq0Return,execAll_append,execAll_append]
  have hpop := pop_frame (exec s (.mov .rsp (.reg .rax)))
  obtain ⟨hmem,hcr3,hports,hsp,hrax⟩ := popGprs_kept (exec s (.mov .rsp (.reg .rax)))
  rw [execAll_append] at hpop
  generalize execAll popGprs (exec s (.mov .rsp (.reg .rax))) = w at *
  have hword : w.word (w.regs .rsp-8) = w.regs .rax := by
    rw [hrax,hsp,Core.word,Core.word,hmem,hcr3]
    rfl
  rw [eoi_kept hword (by omega)]
  have hout : execAll [.iretq] { w with ports := w.ports++[(0x20,0x20)] } =
    { execAll [.iretq] w with ports := w.ports++[(0x20,0x20)] } := rfl
  rw [hout,hpop,hports]
  rfl

/-- The state in which `context_switch` has loaded the address space and the stack pointer of
`next`. -/
def loaded (t : Core) (p : ℕ) : Core :=
  let sp := t.word (p+0x110)
  let cs := readFrame t.mem (t.word (p+0x30)) sp .cs
  { (((t.set .rax (t.word (p+0x30))).set .rsp sp).set .rbx cs) with cr3 := t.word (p+0x30) }

theorem resume_loads (h : t.regs .r12 = p) (hp : 2^47 ≤ p) :
    execAll [.mov .rax (.mem .r12 0x30),.movCr3 .rax,.mov .rsp (.mem .r12 0x110),
      .mov .rbx (.mem .rsp 0x80)] t = loaded t p := by
  subst h
  -- the PCB is in the kernel's half, so the new address space shows the same one
  have hcell : cell (t.word (t.regs .r12+0x30)) (t.regs .r12+0x110) =
    cell t.cr3 (t.regs .r12+0x110) := cell_kernel (by omega) _ _
  have hcs : frameRegs.idxOf .cs = 16 := rfl
  simp only [Core.word] at hcell
  simp [loaded,execAll,exec,Core.set,Core.value,Core.word,readFrame_word,hcell,hcs]

theorem loadRip_loaded (t : Core) (p : ℕ) :
    (execAll loadRip (loaded t p)).regs .rbx =
      readFrame t.mem (t.word (p+0x30)) (t.word (p+0x110)) .rip ∧
    (execAll loadRip (loaded t p)).regs .rcx = kernelBase ∧
    execAll (popGprs++[.iretq]) (execAll loadRip (loaded t p)) = { t with
      regs := readFrame t.mem (t.word (p+0x30)) (t.word (p+0x110))
      cr3 := t.word (p+0x30) } := by
  refine ⟨rfl,rfl,?_⟩
  rw [pop_frame]
  rfl

/-- `context_switch` pops the frame of `next` if it accepts it, and halts if not. -/
theorem resume_frame (h : t.regs .r12 = p) (hp : 2^47 ≤ p) :
    (frameOk (readFrame t.mem (t.word (p+0x30)) (t.word (p+0x110))) = true → resume t =
      .running { t with
        regs := readFrame t.mem (t.word (p+0x30)) (t.word (p+0x110))
        cr3 := t.word (p+0x30) }) ∧
    (frameOk (readFrame t.mem (t.word (p+0x30)) (t.word (p+0x110))) = false →
      ∃ u, resume t = .halted u) := by
  have h0 : t.regs .r12 ≠ 0 := by omega
  have hcs : (loaded t p).regs .rbx =
    readFrame t.mem (t.word (p+0x30)) (t.word (p+0x110)) .cs := rfl
  obtain ⟨hrip,hbase,hpop⟩ := loadRip_loaded t p
  simp only [resume,if_neg h0,resume_loads h hp,hcs,hrip,hbase,hpop,frameOk]
  generalize readFrame t.mem (t.word (p+0x30)) (t.word (p+0x110)) = regs
  by_cases hk : regs .cs = 0x18
  · by_cases hr : kernelBase ≤ regs .rip
    · simp [hk,hr]
    · simp [hk,hr]
  · by_cases hu : regs .cs = 0x33
    · by_cases hr : kernelBase ≤ regs .rip
      · simp [hu,hr,Nat.not_lt.mpr hr]
      · simp [hu,hr,Nat.lt_of_not_le hr]
    · simp [hk,hu]

/-! The save path on an ideal stack. -/

def pcbSize : ℕ := 0x160

/-- The stack as the list of the words pushed since the call, the last one first, and the PCB of
`prev` by offsets. -/
structure Ideal where
  regs : Regs
  cr3 : ℕ
  stack : List ℕ
  pcb : ℕ → ℕ

variable {i i' : Ideal} {is : List Instr}

def Ideal.value (top : ℕ) (i : Ideal) : Operand → Option ℕ
  | .reg r => some (if r = .rsp then top-8*i.stack.length else i.regs r)
  | .imm n => some n
  | .mem base off =>
    if base = .rsp then if off%8 = 0 then i.stack[off/8]? else none
    else if base = .r15 ∧ off < pcbSize then some (i.pcb off) else none
  | .cr3 => some i.cr3

/-- One instruction of the save path, given at most 232 bytes of stack. -/
def Ideal.exec (top : ℕ) (i : Ideal) : Instr → Option Ideal
  | .push src =>
    if i.stack.length < 29 then (i.value top src).map fun v => { i with stack := v::i.stack } else none
  | .mov dst src =>
    if dst = .rsp ∨ dst = .r15 then none
    else (i.value top src).map fun v => { i with regs := Function.update i.regs dst v }
  | .lea dst base off =>
    if dst = .rsp ∨ dst = .r15 then none
    else (i.value top (.reg base)).map fun v => { i with regs := Function.update i.regs dst (v+off) }
  | .store base off src =>
    if base = .r15 ∧ off < pcbSize then
      (i.value top (.reg src)).map fun v => { i with pcb := Function.update i.pcb off v }
    else none
  | _ => none

def Ideal.run (top : ℕ) (i : Ideal) : List Instr → Option Ideal
  | [] => some i
  | ins::is => (i.exec top ins).bind fun i => i.run top is

/-- The stack below `top` and the PCB do not meet. -/
structure Apart (top p : ℕ) : Prop where
  room : 232 ≤ top
  apart : p+pcbSize ≤ top-232 ∨ top ≤ p

/-- The memory holds the ideal stack, pushed from `top`, and the PCB at `p`, to which `r15` points;
the rest of the memory is as it was. -/
structure Shows (mem : Cell → ℕ) (top p : ℕ) (i : Ideal) (s : Core) : Prop where
  regs : ∀ r, r ≠ .rsp → s.regs r = i.regs r
  rsp : s.regs .rsp = top-8*i.stack.length
  cr3 : s.cr3 = i.cr3
  r15 : i.regs .r15 = p
  fits : i.stack.length ≤ 29
  pcb : ∀ off < pcbSize, s.word (p+off) = i.pcb off
  stack : ∀ c, (∀ off < pcbSize, c ≠ cell s.cr3 (p+off)) →
    s.mem c = pushAll (cell s.cr3) mem top i.stack.reverse c

theorem Apart.cell_ne (h : Apart top p) {a off : ℕ} (ha : top-232 ≤ a) (hlt : a < top)
    (ho : off < pcbSize) (cr3 : ℕ) : cell cr3 a ≠ cell cr3 (p+off) := by
  intro e
  have := cell_injective cr3 e
  have := h.apart
  omega

theorem pushAll_get (mem : Cell → ℕ) (cr3 : ℕ) {ws : List ℕ} (hfit : 8*ws.length ≤ top) {j : ℕ}
    (hj : j < ws.length) : ws[j]? =
      some (pushAll (cell cr3) mem top ws.reverse (cell cr3 (top-8*ws.length+8*j))) := by
  have hpop := popAll_pushAll (cell_injective cr3) mem
    (show 8*ws.reverse.length ≤ top by simpa using hfit)
  rw [List.reverse_reverse,List.length_reverse] at hpop
  rw [← popAll_get _ _ hj,hpop]

section Shows

variable {mem : Cell → ℕ} (ha : Apart top p) (h : Shows mem top p i s)
include ha h

theorem Shows.peek {j v : ℕ} (hv : i.stack[j]? = some v) : s.word (s.regs .rsp+8*j) = v := by
  have hroom := ha.room
  have hfit := h.fits
  have hj : j < i.stack.length := (List.getElem?_eq_some_iff.mp hv).1
  have hget := pushAll_get mem s.cr3 (show 8*i.stack.length ≤ top by omega) hj
  rw [hget] at hv
  rw [Core.word,h.rsp,h.stack _ fun off ho => ha.cell_ne (by omega) (by omega) ho _]
  exact Option.some.inj hv

theorem Shows.value {op : Operand} {v : ℕ} (hv : i.value top op = some v) : s.value op = v := by
  cases op with
  | reg r =>
    obtain rfl := Option.some.inj hv
    by_cases hr : r = .rsp
    · rw [hr,if_pos rfl]
      exact h.rsp
    · rw [if_neg hr]
      exact h.regs r hr
  | imm n => exact Option.some.inj hv
  | mem base off =>
    simp only [Ideal.value] at hv
    split at hv
    · rename_i hb
      split at hv
      · have hoff : off = 8*(off/8) := by omega
        rw [Core.value,hb,hoff]
        exact h.peek ha hv
      · cases hv
    · split at hv
      · rename_i hb
        obtain ⟨rfl,ho⟩ := hb
        obtain rfl := Option.some.inj hv
        rw [Core.value,h.regs .r15 (by decide),h.r15]
        exact h.pcb off ho
      · cases hv
  | cr3 =>
    obtain rfl := Option.some.inj hv
    exact h.cr3

omit ha in
theorem Shows.set {r : Reg} (hr : ¬(r = .rsp ∨ r = .r15)) (v : ℕ) :
    Shows mem top p { i with regs := Function.update i.regs r v } (s.set r v) where
  regs q hq := by
    by_cases hqr : q = r
    · simp [Core.set,hqr]
    · simpa [Core.set,hqr] using h.regs q hq
  rsp := by
    rw [← h.rsp]
    exact Function.update_of_ne (fun e => hr (Or.inl e.symm)) _ _
  cr3 := h.cr3
  r15 := by
    rw [← h.r15]
    exact Function.update_of_ne (fun e => hr (Or.inr e.symm)) _ _
  fits := h.fits
  pcb := h.pcb
  stack := h.stack

theorem Shows.push (hfit : i.stack.length < 29) (op : Operand) :
    Shows mem top p { i with stack := s.value op::i.stack } (exec s (.push op)) where
  regs r hr := by simpa [exec,Core.set,hr] using h.regs r hr
  rsp := by
    have hroom := ha.room
    simp only [exec,Core.set,Function.update_self,h.rsp,List.length_cons]
    omega
  cr3 := h.cr3
  r15 := h.r15
  fits := hfit
  pcb off ho := by
    have hroom := ha.room
    have hne := ha.cell_ne (a:=s.regs .rsp-8) (by rw [h.rsp]; omega) (by rw [h.rsp]; omega) ho s.cr3
    simp only [Core.word,exec,Core.set]
    rw [Function.update_of_ne hne.symm]
    exact h.pcb off ho
  stack c hc := by
    simp only [exec,Core.set,List.reverse_cons,pushAll_append,pushAll,List.length_reverse,← h.rsp] at hc ⊢
    by_cases he : c = cell s.cr3 (s.regs .rsp-8)
    · rw [he,Function.update_self,Function.update_self]
    · rw [Function.update_of_ne he,Function.update_of_ne he]
      exact h.stack c hc

omit ha in
theorem Shows.store {off : ℕ} (ho : off < pcbSize) (r : Reg) :
    Shows mem top p { i with pcb := Function.update i.pcb off (s.regs r) } (exec s (.store .r15 off r)) where
  regs := h.regs
  rsp := h.rsp
  cr3 := h.cr3
  r15 := h.r15
  fits := h.fits
  pcb o hoff := by
    simp only [Core.word,exec,h.regs .r15 (by decide),h.r15]
    by_cases he : o = off
    · rw [he,Function.update_self,Function.update_self]
    · rw [Function.update_of_ne he,Function.update_of_ne fun e => he (by
        have := cell_injective _ e
        omega)]
      exact h.pcb o hoff
  stack c hc := by
    simp only [exec,h.regs .r15 (by decide),h.r15] at hc ⊢
    rw [Function.update_of_ne (hc off ho)]
    exact h.stack c hc

/-- Each instruction does to the real memory what it does to the ideal one. -/
theorem Shows.exec {ins : Instr} (hi : i.exec top ins = some i') :
    Shows mem top p i' (exec s ins) := by
  cases ins with
  | push src =>
    simp only [Ideal.exec] at hi
    split at hi
    · obtain ⟨v,hv,rfl⟩ := Option.map_eq_some_iff.mp hi
      rw [← h.value ha hv]
      exact h.push ha ‹_› src
    · cases hi
  | mov dst src =>
    simp only [Ideal.exec] at hi
    split at hi
    · cases hi
    · obtain ⟨v,hv,rfl⟩ := Option.map_eq_some_iff.mp hi
      rw [← h.value ha hv]
      exact h.set ‹_› _
  | lea dst base off =>
    simp only [Ideal.exec] at hi
    split at hi
    · cases hi
    · obtain ⟨v,hv,rfl⟩ := Option.map_eq_some_iff.mp hi
      rw [← h.value ha hv]
      exact h.set ‹_› _
  | store base off src =>
    simp only [Ideal.exec] at hi
    split at hi
    · rename_i hb
      obtain ⟨rfl,ho⟩ := hb
      obtain ⟨v,hv,rfl⟩ := Option.map_eq_some_iff.mp hi
      rw [← h.value ha hv]
      exact h.store ho src
    · cases hi
  | pop _ | movCr3 _ | movAl _ | movDx _ | out _ | outDx | ret | iretq => cases hi

omit h in
theorem Shows.run (h : Shows mem top p i s) (hi : i.run top is = some i') :
    Shows mem top p i' (execAll is s) := by
  induction is generalizing i s with
  | nil =>
    obtain rfl := Option.some.inj hi
    exact h
  | cons ins is ih =>
    obtain ⟨i₁,h₁,hi⟩ := Option.bind_eq_some_iff.mp hi
    exact ih (h.exec ha h₁) hi

end Shows

/-! What the save paths leave. -/

/-- The offset of the PCB field for a register. -/
def fieldOf : Reg → Option ℕ
  | .r15 => some 0x98 | .r14 => some 0xA0 | .r13 => some 0xA8 | .r12 => some 0xB0
  | .r11 => some 0xB8 | .r10 => some 0xC0 | .r9 => some 0xC8 | .r8 => some 0xD0
  | .rbp => some 0xD8 | .rdi => some 0xE0 | .rsi => some 0xE8 | .rdx => some 0xF0
  | .rcx => some 0xF8 | .rbx => some 0x100 | .rax => some 0x108 | .rip => some 0x118
  | .cs | .rflags | .rsp | .ss => none

/-- The PCB as `contextSwitch` has it. -/
def savedIn (pcb : ℕ → ℕ) : Saved :=
  ⟨fun r => (fieldOf r).elim 0 pcb,pcb 0x110,pcb 0x30,pcb 0x50⟩

def savedAt (s : Core) (p : ℕ) : Saved := savedIn fun off => s.word (p+off)

theorem savedIn_eq {pcb : ℕ → ℕ} {x : Saved} (hregs : ∀ r, (fieldOf r).elim 0 pcb = x.regs r)
    (hrsp : pcb 0x110 = x.rsp) (hcr3 : pcb 0x30 = x.cr3) (htop : pcb 0x50 = x.kernelStackTop) :
    savedIn pcb = x := by
  rw [savedIn,funext hregs,hrsp,hcr3,htop]

/-- Only the fields below the end of the PCB are read. -/
theorem savedIn_congr {f g : ℕ → ℕ} (h : ∀ off < pcbSize, f off = g off) : savedIn f = savedIn g := by
  refine savedIn_eq (fun r => ?_) (h _ (by decide)) (h _ (by decide)) (h _ (by decide))
  cases r <;> first | rfl | exact h _ (by decide)

/-- The words pushed when the choice between the paths is made, the last one first. -/
def callerWords (regs : Regs) : List ℕ := [.r15,.r14,.r13,.r12,.rbx,.rbp,.rip].map regs

/-- The stores of `.ring0_save` into the PCB. -/
def ring0Pcb (regs : Regs) (base cr3 : ℕ) (pcb : ℕ → ℕ) : ℕ → ℕ :=
  let pcb := Function.update pcb 0x98 (regs .r15)
  let pcb := Function.update pcb 0xA0 (regs .r14)
  let pcb := Function.update pcb 0xA8 (regs .r13)
  let pcb := Function.update pcb 0xB0 (regs .r12)
  let pcb := Function.update pcb 0x100 (regs .rbx)
  let pcb := Function.update pcb 0xD8 (regs .rbp)
  Function.update (Function.update pcb 0x110 base) 0x30 cr3

theorem savedIn_ring0Pcb (regs : Regs) (base cr3 : ℕ) (pcb : ℕ → ℕ) :
    savedIn (ring0Pcb regs base cr3 pcb) =
      { savedIn pcb with
        regs := fun r => if r ∈ calleeSaved then regs r else (savedIn pcb).regs r
        rsp := base
        cr3 := cr3 } := by
  refine savedIn_eq (fun r => ?_) rfl rfl rfl
  cases r <;> rfl

theorem savedIn_frameBase (base cr3 : ℕ) (pcb : ℕ → ℕ) :
    savedIn (Function.update (Function.update pcb 0x110 base) 0x30 cr3) =
      { savedIn pcb with rsp := base, cr3 := cr3 } := by
  refine savedIn_eq (fun r => ?_) rfl rfl rfl
  cases r <;> rfl

section

variable (top : ℕ) (live regs : Regs) (cr3 : ℕ) (pcb : ℕ → ℕ)

theorem ring0Save_ideal :
    ∃ i, Ideal.run top ⟨live,cr3,callerWords regs,pcb⟩ ring0Save = some i ∧ i.cr3 = cr3 ∧
      i.stack.length = 29 ∧
      i.stack.reverse = regs .rip::calleeSaved.map regs++[regs .rip,top-64+64]++
        frameWords (ring0Frame (Function.update regs .rsp (top-64+64)) (savedIn pcb)) ∧
      i.pcb = ring0Pcb regs (top-8*29) cr3 pcb :=
  ⟨_,rfl,rfl,rfl,rfl,rfl⟩

theorem userHead_ideal : Ideal.run top ⟨live,cr3,callerWords regs,pcb⟩ userHead =
      some ⟨Function.update live .rax (pcb 0x118),cr3,0x33::0x202::pcb 0x110::0x2B::callerWords regs,pcb⟩ :=
  rfl

theorem userTail_ideal :
    ∃ i, Ideal.run top ⟨live,cr3,0x33::0x202::pcb 0x110::0x2B::callerWords regs,pcb⟩ userTail = some i ∧
      i.cr3 = cr3 ∧ i.stack.length = 27 ∧
      i.stack.reverse = regs .rip::calleeSaved.map regs++
        (frameWords fun r => if r = .rip then live .rax else userFrame (savedIn pcb) 0 r) ∧
      i.pcb = Function.update (Function.update pcb 0x110 (top-8*27)) 0x30 cr3 :=
  ⟨_,rfl,rfl,rfl,rfl,rfl⟩

end

/-! From the call to `.skip_save`. -/

theorem execAll_pushRegs {rs : List Reg} (h : .rsp ∉ rs) (s : Core) :
    execAll (rs.map fun r => .push (.reg r)) s = { s with
      regs := Function.update s.regs .rsp (s.regs .rsp-8*rs.length)
      mem := pushAll (cell s.cr3) s.mem (s.regs .rsp) (rs.map s.regs) } := by
  induction rs generalizing s with
  | nil => simp [execAll,pushAll]
  | cons r rs ih =>
    obtain ⟨hr,hrs⟩ := List.ne_and_not_mem_of_not_mem_cons h
    have hregs : rs.map (Function.update s.regs .rsp (s.regs .rsp-8)) = rs.map s.regs :=
      List.map_congr_left fun q hq => Function.update_of_ne (fun e : q = .rsp => hrs (e ▸ hq)) _ _
    have hsp : s.regs .rsp-8-8*rs.length = s.regs .rsp-8*(rs.length+1) := by omega
    have hstep : execAll ((r::rs).map fun r => .push (.reg r)) s =
      execAll (rs.map fun r => .push (.reg r)) (exec s (.push (.reg r))) := rfl
    rw [hstep,ih hrs]
    simp [exec,Core.set,Core.value,pushAll,hregs,hsp]

/-- The state after the registers of the caller have been pushed. -/
def entered (s : Core) : Core := execAll (pushCallerRegs++[.mov .r12 (.reg .rsi)]) (call s)

theorem entered_eq (s : Core) : entered s = { s with
    regs := Function.update (Function.update s.regs .rsp (s.regs .rsp-56)) .r12 (s.regs .rsi)
    mem := pushAll (cell s.cr3) s.mem (s.regs .rsp) (callerWords s.regs).reverse } := by
  have hpush := execAll_pushRegs (show .rsp ∉ .rip::calleeSaved by decide) s
  have hcode : entered s =
    exec (execAll ((.rip::calleeSaved).map fun r => .push (.reg r)) s) (.mov .r12 (.reg .rsi)) := rfl
  rw [hcode,hpush]
  rfl

/-- A PCB record describes the PCB at `p`. -/
structure PcbAt (c : Pcb) (s : Core) (p : ℕ) : Prop where
  kind : c.blockKind ≠ .none ↔ s.word (p+0x158) ≠ 0
  entry : c.entryPoint = s.word (p+0x38)

/-- What `context_switch` leaves when it has saved `prev`: the words on the stack and the PCB. -/
structure Left (s : Core) (words : List ℕ) (saved : Saved) (w : Core) : Prop where
  cr3 : w.cr3 = s.cr3
  stack : ∀ c, (∀ off < pcbSize, c ≠ cell s.cr3 (s.regs .rdi+off)) →
    w.mem c = pushAll (cell s.cr3) s.mem (s.regs .rsp) words c
  pcb : savedAt w (s.regs .rdi) = saved
  info : ∀ off ∈ [0x158,0x38], w.word (s.regs .rdi+off) = s.word (s.regs .rdi+off)

section Saves

variable (ha : Apart (s.regs .rsp) (s.regs .rdi))
include ha

theorem entered_pcb {off : ℕ} (ho : off < pcbSize) :
    (entered s).mem (cell s.cr3 (s.regs .rdi+off)) = s.word (s.regs .rdi+off) := by
  have hroom := ha.room
  have hlen : (callerWords s.regs).reverse.length = 7 := rfl
  rw [entered_eq]
  exact pushAll_other (by omega) fun a hl hlt => ha.cell_ne (by omega) hlt ho _

/-- Loads into `rax` and `r15` do not disturb what has been pushed. -/
theorem shows_start {w : Core} (hmem : w.mem = (entered s).mem) (hcr3 : w.cr3 = s.cr3)
    (hrsp : w.regs .rsp = s.regs .rsp-56) (h15 : w.regs .r15 = s.regs .rdi) :
    Shows s.mem (s.regs .rsp) (s.regs .rdi)
      ⟨w.regs,s.cr3,callerWords s.regs,fun off => s.word (s.regs .rdi+off)⟩ w where
  regs _ _ := rfl
  rsp := hrsp
  cr3 := hcr3
  r15 := h15
  fits := Nat.le_add_right 7 22
  pcb off ho := by
    rw [Core.word,hmem,hcr3]
    exact entered_pcb ha ho
  stack c _ := by rw [hmem,hcr3,entered_eq]

omit ha in
theorem Shows.left {w : Core} {words : List ℕ} {saved : Saved}
    (h : Shows s.mem (s.regs .rsp) (s.regs .rdi) i w) (hcr3 : i.cr3 = s.cr3)
    (hstack : i.stack.reverse = words) (hpcb : savedIn i.pcb = saved)
    (hinfo : ∀ off ∈ [0x158,0x38], i.pcb off = s.word (s.regs .rdi+off)) : Left s words saved w where
  cr3 := h.cr3.trans hcr3
  stack c hc := by
    have := h.stack c
    rw [h.cr3,hcr3,hstack] at this
    exact this hc
  pcb := (savedIn_congr h.pcb).trans hpcb
  info off ho := by
    rw [← hinfo off ho]
    simp only [List.mem_cons,List.not_mem_nil,or_false] at ho
    rcases ho with rfl | rfl <;> exact h.pcb _ (by decide)

/-- Which path is taken depends on the PCB at the call. -/
theorem save_paths (h0 : s.regs .rdi ≠ 0) : ∃ w,
    Shows s.mem (s.regs .rsp) (s.regs .rdi)
      ⟨w.regs,s.cr3,callerWords s.regs,fun off => s.word (s.regs .rdi+off)⟩ w ∧
    save (call s) =
      if s.word (s.regs .rdi+0x158) ≠ 0 ∨ kernelBase ≤ s.word (s.regs .rdi+0x118) then
        execAll ring0Save w
      else
        let v := execAll userHead w
        execAll userTail (if v.regs .rax ≠ 0 then v else exec v (.mov .rax (.mem .r15 0x38))) := by
  have hcode : execAll (pushCallerRegs++[.mov .r12 (.reg .rsi)]) (call s) = entered s := rfl
  have hcr3 : (entered s).cr3 = s.cr3 := rfl
  have hrdi : (entered s).regs .rdi = s.regs .rdi := rfl
  have hrsp : (entered s).regs .rsp = s.regs .rsp-56 := by rw [entered_eq]; rfl
  have hkind := entered_pcb ha (show 0x158 < pcbSize by decide)
  have hrip := entered_pcb ha (show 0x118 < pcbSize by decide)
  have hstart := fun w => shows_start (w:=w) ha
  simp only [save,hcode,hrdi,if_neg h0]
  generalize entered s = e at *
  rw [← hcr3,← hrdi] at hkind hrip
  have hrax : (execAll loadKind e).regs .rax = s.word (e.regs .rdi+0x158) := hkind
  have hrax' : (exec (execAll loadKind e) (.mov .rax (.mem .r15 0x118))).regs .rax =
    s.word (e.regs .rdi+0x118) := hrip
  rw [hrdi] at hrax hrax'
  simp only [hrax,hrax']
  by_cases hk : s.word (s.regs .rdi+0x158) ≠ 0
  · refine ⟨execAll loadKind e,hstart _ rfl hcr3 hrsp hrdi,?_⟩
    rw [if_pos hk,if_pos (Or.inl hk)]
  · refine ⟨exec (execAll loadKind e) (.mov .rax (.mem .r15 0x118)),hstart _ rfl hcr3 hrsp hrdi,?_⟩
    rw [if_neg hk]
    by_cases hr : kernelBase ≤ s.word (s.regs .rdi+0x118)
    · rw [if_pos hr,if_pos (Or.inr hr)]
    · have hneither : ¬(s.word (s.regs .rdi+0x158) ≠ 0 ∨ kernelBase ≤ s.word (s.regs .rdi+0x118)) :=
        fun h => h.elim hk hr
      rw [if_neg hr,if_neg hneither]

theorem save_ring0 (h0 : s.regs .rdi ≠ 0)
    (hk : s.word (s.regs .rdi+0x158) ≠ 0 ∨ kernelBase ≤ s.word (s.regs .rdi+0x118)) :
    Left s (s.regs .rip::calleeSaved.map s.regs++[s.regs .rip,s.regs .rsp]++
        frameWords (ring0Frame s.regs (savedAt s (s.regs .rdi))))
      { savedAt s (s.regs .rdi) with
        regs := fun r => if r ∈ calleeSaved then s.regs r else (savedAt s (s.regs .rdi)).regs r
        rsp := s.regs .rsp-8*29
        cr3 := s.cr3 } (save (call s)) := by
  have hroom := ha.room
  have hsp : s.regs .rsp-64+64 = s.regs .rsp := by omega
  obtain ⟨w,hw,hsave⟩ := save_paths ha h0
  obtain ⟨i,hrun,hcr3,-,hstack,hpcb⟩ := ring0Save_ideal (s.regs .rsp) w.regs s.regs s.cr3
    fun off => s.word (s.regs .rdi+off)
  rw [hsave,if_pos hk]
  refine (hw.run ha hrun).left hcr3 ?_ ?_ ?_
  · rw [hstack,hsp,Function.update_eq_self]
    rfl
  · rw [hpcb,savedIn_ring0Pcb]
    rfl
  · rw [hpcb]
    simp [ring0Pcb]

theorem Shows.userTail {live : Regs} {v : Core} {c : Pcb} (hv : Shows s.mem (s.regs .rsp) (s.regs .rdi)
      ⟨live,s.cr3,0x33::0x202::s.word (s.regs .rdi+0x110)::0x2B::callerWords s.regs,
        fun off => s.word (s.regs .rdi+off)⟩ v)
    (hrip : live .rax = userFrame (savedAt s (s.regs .rdi)) c.entryPoint .rip)
    (hk : ¬(c.blockKind ≠ .none ∨ kernelBase ≤ (savedAt s (s.regs .rdi)).regs .rip)) :
    Left s (switchWords s.regs (savedAt s (s.regs .rdi)) c)
      { savedAt s (s.regs .rdi) with rsp := s.regs .rsp-8*27, cr3 := s.cr3 } (execAll userTail v) := by
  obtain ⟨i,hrun,hcr3,-,hstack,hpcb⟩ := userTail_ideal (s.regs .rsp) live s.regs s.cr3
    fun off => s.word (s.regs .rdi+off)
  have hframe : (fun r => if r = .rip then live .rax else userFrame (savedAt s (s.regs .rdi)) 0 r) =
      userFrame (savedAt s (s.regs .rdi)) c.entryPoint := by
    funext r
    cases r
    case rip => exact hrip
    all_goals rfl
  refine (hv.run ha hrun).left hcr3 ?_ ?_ ?_
  · rw [hstack,switchWords,if_neg hk,← hframe]
    rfl
  · rw [hpcb,savedIn_frameBase]
    rfl
  · rw [hpcb]
    simp

theorem save_user {c : Pcb} (h0 : s.regs .rdi ≠ 0) (hc : PcbAt c s (s.regs .rdi))
    (hk : ¬(c.blockKind ≠ .none ∨ kernelBase ≤ (savedAt s (s.regs .rdi)).regs .rip)) :
    Left s (switchWords s.regs (savedAt s (s.regs .rdi)) c)
      { savedAt s (s.regs .rdi) with rsp := s.regs .rsp-8*27, cr3 := s.cr3 } (save (call s)) := by
  obtain ⟨w,hw,hsave⟩ := save_paths ha h0
  have hpath : ¬(s.word (s.regs .rdi+0x158) ≠ 0 ∨ kernelBase ≤ s.word (s.regs .rdi+0x118)) :=
    fun h => hk (h.imp hc.kind.mpr id)
  rw [hsave,if_neg hpath]
  have hhead := hw.run ha (userHead_ideal _ _ _ _ _)
  have hrax : (execAll userHead w).regs .rax = s.word (s.regs .rdi+0x118) :=
    hhead.regs .rax (by decide)
  have hsaved : (savedAt s (s.regs .rdi)).regs .rip = s.word (s.regs .rdi+0x118) := rfl
  by_cases hr : s.word (s.regs .rdi+0x118) = 0
  · simp only [hrax,hr,ne_eq,not_true_eq_false,if_false]
    refine Shows.userTail ha (hhead.exec ha rfl) ?_ hk
    rw [Function.update_self,userFrame,hsaved,if_pos hr,hc.entry]
  · simp only [hrax,ne_eq,hr,not_false_eq_true,if_true]
    refine Shows.userTail ha hhead ?_ hk
    rw [Function.update_self,userFrame,hsaved,if_neg hr]

/-- The code pushes what `switchWords` says, and leaves the PCB as `contextSwitch` does. -/
theorem save_words {c : Pcb} (h0 : s.regs .rdi ≠ 0) (hc : PcbAt c s (s.regs .rdi)) :
    Left s (switchWords s.regs (savedAt s (s.regs .rdi)) c)
      { savedAt s (s.regs .rdi) with
        regs := fun r => if (c.blockKind ≠ .none ∨ kernelBase ≤ (savedAt s (s.regs .rdi)).regs .rip) ∧
          r ∈ calleeSaved then s.regs r else (savedAt s (s.regs .rdi)).regs r
        rsp := s.regs .rsp-8*(switchWords s.regs (savedAt s (s.regs .rdi)) c).length
        cr3 := s.cr3 } (save (call s)) := by
  by_cases hk : c.blockKind ≠ .none ∨ kernelBase ≤ (savedAt s (s.regs .rdi)).regs .rip
  · have hleft := save_ring0 ha h0 (hk.imp hc.kind.mp id)
    have hlen : (switchWords s.regs (savedAt s (s.regs .rdi)) c).length = 29 := by
      simp [switchWords,hk,calleeSaved]
    rw [hlen]
    simpa [switchWords,hk] using hleft
  · have hlen : (switchWords s.regs (savedAt s (s.regs .rdi)) c).length = 27 := by
      simp [switchWords,hk,calleeSaved]
    rw [hlen]
    simpa [hk] using save_user ha h0 hc hk

end Saves

/-! The registers that the code does not touch. -/

def Instr.writes : Instr → List Reg
  | .push _ => [.rsp]
  | .pop dst => [.rsp,dst]
  | .mov dst _ | .lea dst _ _ => [dst]
  | .store .. | .movCr3 _ | .out _ | .outDx => []
  | .movAl _ => [.rax]
  | .movDx _ => [.rdx]
  | .ret => [.rsp,.rip]
  | .iretq => [.rip,.cs,.rflags,.rsp,.ss]

theorem exec_other {ins : Instr} {r : Reg} (h : r ∉ ins.writes) (s : Core) :
    (exec s ins).regs r = s.regs r := by
  cases ins
  case iretq => cases r <;> first | rfl | exact absurd (by decide) h
  all_goals simp_all [Instr.writes,exec,Core.set]

theorem execAll_other {r : Reg} (h : ∀ ins ∈ is, r ∉ ins.writes) (s : Core) :
    (execAll is s).regs r = s.regs r := by
  induction is generalizing s with
  | nil => rfl
  | cons ins is ih =>
    have hstep : execAll (ins::is) s = execAll is (exec s ins) := rfl
    rw [hstep,ih (fun j hj => h j (List.mem_cons_of_mem ins hj)),exec_other (h ins List.mem_cons_self)]

/-- `r12` is `next` while `prev` is saved. -/
theorem save_r12 (s : Core) : (save s).regs .r12 = s.regs .rsi := by
  have hstart : (execAll (pushCallerRegs++[.mov .r12 (.reg .rsi)]) s).regs .r12 = s.regs .rsi := by
    have hpush : (execAll pushCallerRegs s).regs .rsi = s.regs .rsi := execAll_other (by decide) s
    rw [execAll_append,← hpush]
    rfl
  have hring0 : ∀ w, (execAll ring0Save w).regs .r12 = w.regs .r12 := execAll_other (by decide)
  have hhead : ∀ w, (execAll userHead w).regs .r12 = w.regs .r12 := execAll_other (by decide)
  have htail : ∀ w, (execAll userTail w).regs .r12 = w.regs .r12 := execAll_other (by decide)
  have hkind : ∀ w, (execAll loadKind w).regs .r12 = w.regs .r12 := execAll_other (by decide)
  have hrax : ∀ w off, (exec w (.mov .rax (.mem .r15 off))).regs .r12 = w.regs .r12 := fun w off =>
    exec_other (by simp [Instr.writes]) w
  simp only [save]
  split_ifs <;> simp only [hring0,hhead,htail,hkind,hrax,hstart]

/-! `contextSwitch` is what the code computes. -/

/-- Where the PCBs are: in the kernel's half, one beside the other. -/
structure PcbPool where
  addr : Slot → ℕ
  kernel : ∀ q, 2^47 ≤ addr q
  disjoint : ∀ q q', q ≠ q' → addr q+pcbSize ≤ addr q' ∨ addr q'+pcbSize ≤ addr q

variable {P : PcbPool} {m m' : Machine}

/-- A cell that no PCB has. -/
def PcbPool.Outside (P : PcbPool) (c : Cell) : Prop :=
  ∀ q, ∀ off < pcbSize, c ≠ cell 0 (P.addr q+off)

/-- The code's memory holds the PCBs and, outside them, the memory of the machine. -/
structure Implements (P : PcbPool) (m : Machine) (s : Core) : Prop where
  regs : s.regs = m.regs
  cr3 : s.cr3 = m.cr3
  pcb : ∀ q, savedAt s (P.addr q) = m.pcb q
  info : ∀ q, PcbAt (m.kernel.pool q) s (P.addr q)
  mem : ∀ c, P.Outside c → s.mem c = m.mem c

theorem PcbPool.cell_eq (P : PcbPool) (q : Slot) (off cr3 cr3' : ℕ) :
    cell cr3 (P.addr q+off) = cell cr3' (P.addr q+off) :=
  cell_kernel (Nat.le_add_right_of_le (P.kernel q)) cr3 cr3'

theorem Left.other {w : Core} {words : List ℕ} {saved : Saved} {prev q : Slot}
    (h : Left s words saved w) (hp : s.regs .rdi = P.addr prev) (hq : q ≠ prev)
    (ha : Apart (s.regs .rsp) (P.addr q)) (hlen : words.length ≤ 29) {off : ℕ} (ho : off < pcbSize) :
    w.word (P.addr q+off) = s.word (P.addr q+off) := by
  have hroom := ha.room
  have hdisjoint := P.disjoint q prev hq
  rw [Core.word,h.cr3,h.stack _ fun o hoff e => ?_]
  · exact pushAll_other (by omega) fun a hl hlt => ha.cell_ne (by omega) hlt ho _
  · have := cell_injective s.cr3 e
    omega

theorem switchWords_length_le (regs : Regs) (x : Saved) (c : Pcb) : (switchWords regs x c).length ≤ 29 := by
  rw [switchWords]
  split <;> simp [calleeSaved]

/-- All address spaces show the same PCBs. -/
theorem Implements.reload (h : Implements P m s) (regs : Regs) (cr3 : ℕ) :
    Implements P { m with regs := regs, cr3 := cr3 } { s with regs := regs, cr3 := cr3 } := by
  have hword : ∀ q off, s.mem (cell cr3 (P.addr q+off)) = s.word (P.addr q+off) := fun q off => by
    rw [Core.word,P.cell_eq q off cr3 s.cr3]
  refine ⟨rfl,rfl,fun q => ?_,fun q => ⟨?_,?_⟩,h.mem⟩
  · exact (savedIn_congr fun off _ => hword q off).trans (h.pcb q)
  · rw [Core.word,hword]
    exact (h.info q).kind
  · rw [Core.word,hword]
    exact (h.info q).entry

/-- Saving `prev` in the code and on the machine; the registers are those of the code. -/
theorem Implements.save {prev : Slot} (h : Implements P m s) (hprev : s.regs .rdi = P.addr prev)
    (hstack : ∀ q, Apart (s.regs .rsp) (P.addr q)) :
    Implements P { saving m prev with regs := (Asm.save (call s)).regs } (Asm.save (call s)) := by
  have h0 : s.regs .rdi ≠ 0 := by
    have := P.kernel prev
    omega
  have hleft := save_words (c:=m.kernel.pool prev) (hprev ▸ hstack prev) h0 (hprev ▸ h.info prev)
  have hlen := switchWords_length_le s.regs (savedAt s (s.regs .rdi)) (m.kernel.pool prev)
  have hsaved : savedAt s (s.regs .rdi) = m.pcb prev := by rw [hprev,h.pcb]
  refine ⟨rfl,hleft.cr3.trans h.cr3,fun q => ?_,fun q => ?_,fun c hc => ?_⟩
  · by_cases hq : q = prev
    · have hpcb := hleft.pcb
      rw [hsaved,hprev,h.regs,h.cr3] at hpcb
      rw [hq,hpcb]
      simp only [saving,Function.update_self]
    · have hother : savedAt (Asm.save (call s)) (P.addr q) = savedAt s (P.addr q) :=
        savedIn_congr fun off ho => hleft.other hprev hq (hstack q) hlen ho
      rw [hother,h.pcb q]
      exact (Function.update_of_ne hq _ _).symm
  · have hword : ∀ off ∈ [0x158,0x38], (Asm.save (call s)).word (P.addr q+off) = s.word (P.addr q+off) := by
      intro off ho
      by_cases hq : q = prev
      · rw [hq,← hprev]
        exact hleft.info off ho
      · simp only [List.mem_cons,List.not_mem_nil,or_false] at ho
        exact hleft.other hprev hq (hstack q) hlen (by rcases ho with rfl | rfl <;> decide)
    refine ⟨?_,?_⟩
    · rw [hword 0x158 (by decide)]
      exact (h.info q).kind
    · rw [hword 0x38 (by decide)]
      exact (h.info q).entry
  · rw [hleft.stack c fun off ho => ?_]
    · have hpushed : (saving m prev).mem = pushAll (cell m.cr3) m.mem (m.regs .rsp)
        (switchWords m.regs (m.pcb prev) (m.kernel.pool prev)) := rfl
      rw [hsaved]
      simp only [h.regs,h.cr3,hpushed]
      exact pushAll_congr (h.mem c hc) _ _
    · rw [hprev,P.cell_eq prev off s.cr3 0]
      exact hc prev off ho

/-- `context_switch` does on the code's memory what `contextSwitch` does on the machine: it halts
where that has no result, and otherwise leaves what that leaves. -/
theorem contextSwitch_implements {prev next : Slot} (hne : next ≠ prev) (h : Implements P m s)
    (hprev : m.regs .rdi = P.addr prev) (hnext : m.regs .rsi = P.addr next)
    (hstack : ∀ q, Apart (m.regs .rsp) (P.addr q))
    (hframe : ∀ j < 20, P.Outside (cell (m.pcb next).cr3 ((m.pcb next).rsp+8*j))) :
    (Cpu.contextSwitch m prev next = none → ∃ u, contextSwitch s = .halted u) ∧
    ∀ m', Cpu.contextSwitch m prev next = some m' →
      ∃ u, contextSwitch s = .running u ∧ Implements P m' u := by
  rw [← h.regs] at hprev hnext hstack
  have hsave := h.save hprev hstack
  have hr12 : (save (call s)).regs .r12 = P.addr next := (save_r12 (call s)).trans hnext
  have hresume := resume_frame hr12 (P.kernel next)
  have hpcb : (saving m prev).pcb next = m.pcb next := Function.update_of_ne hne _ _
  have hcr3 : (save (call s)).word (P.addr next+0x30) = (m.pcb next).cr3 := by
    rw [← hpcb]
    exact congrArg Saved.cr3 (hsave.pcb next)
  have hrsp : (save (call s)).word (P.addr next+0x110) = (m.pcb next).rsp := by
    rw [← hpcb]
    exact congrArg Saved.rsp (hsave.pcb next)
  have hmem : ∀ c, P.Outside c → (save (call s)).mem c = (saving m prev).mem c := hsave.mem
  have hread : readFrame (save (call s)).mem (m.pcb next).cr3 (m.pcb next).rsp =
      readFrame (saving m prev).mem (m.pcb next).cr3 (m.pcb next).rsp :=
    readFrame_congr fun j hj => hmem _ (hframe j hj)
  rw [hcr3,hrsp,hread] at hresume
  simp only [Cpu.contextSwitch,hpcb]
  by_cases hok : frameOk (readFrame (saving m prev).mem (m.pcb next).cr3 (m.pcb next).rsp) = true
  · rw [if_pos hok]
    refine ⟨fun hn => absurd hn (Option.some_ne_none _),fun m' hm => ⟨_,hresume.1 hok,?_⟩⟩
    obtain rfl := Option.some.inj hm
    have hu := hsave.reload (readFrame (saving m prev).mem (m.pcb next).cr3 (m.pcb next).rsp)
      (m.pcb next).cr3
    exact ⟨hu.regs,hu.cr3,hu.pcb,hu.info,hu.mem⟩
  · rw [if_neg hok]
    exact ⟨fun _ => hresume.2 (Bool.eq_false_iff.mpr hok),fun m' hm => absurd hm.symm (Option.some_ne_none _)⟩

/-- The machine that a state of the code stands for. -/
def standingFor (P : PcbPool) (s : Core) : Machine where
  kernel := { Sched.boot none with pool := fun q =>
    ⟨0,.ready,if s.word (P.addr q+0x158) = 0 then .none else .waitpid,0,0,s.word (P.addr q+0x38)⟩ }
  regs := s.regs
  cr3 := s.cr3
  rsp0 := 0
  parts _ := 0
  mem := s.mem
  pcb q := savedAt s (P.addr q)
  slotOwner _ := none
  stopped _ := .never
  preempted _ := false
  given _ _ := none

theorem implements_standingFor (P : PcbPool) (s : Core) : Implements P (standingFor P s) s := by
  refine ⟨rfl,rfl,fun _ => rfl,fun q => ⟨?_,rfl⟩,fun _ _ => rfl⟩
  by_cases h : s.word (P.addr q+0x158) = 0 <;> simp [standingFor,h]

/-- Thirty-two PCBs in a row. -/
def pcbRow : PcbPool where
  addr q := 0xFFFFFFFF80100000+0x200*q.val
  kernel q := by omega
  disjoint q q' h := by
    simp only [ne_eq,Fin.ext_iff] at h
    simp only [pcbSize]
    omega

/-- A process waits for its child, and the next one is to go on in the kernel. -/
def givingUp : Core where
  regs r := match r with
    | .rdi => 0xFFFFFFFF80100000
    | .rsi => 0xFFFFFFFF80100200
    | .rsp => 0xFFFFFFFF80200000
    | .rip => 0xFFFFFFFF80001234
    | _ => 0
  cr3 := 0x1000
  mem c := match c with
    | (_,0xFFFFFFFF80100158) => 1
    | (_,0xFFFFFFFF80100310) => 0xFFFFFFFF80300000
    | (_,0xFFFFFFFF80300078) => 0xFFFFFFFF80005678
    | (_,0xFFFFFFFF80300080) => 0x18
    | _ => 0
  ports := []

theorem contextSwitch_implements_givingUp : ∃ m' u,
    Cpu.contextSwitch (standingFor pcbRow givingUp) 0 1 = some m' ∧
      contextSwitch givingUp = .running u ∧ Implements pcbRow m' u := by
  have hsome : (Cpu.contextSwitch (standingFor pcbRow givingUp) 0 1).isSome := by decide +kernel
  obtain ⟨m',hm⟩ := Option.isSome_iff_exists.mp hsome
  have hstack : ∀ q, Apart ((standingFor pcbRow givingUp).regs .rsp) (pcbRow.addr q) := fun q =>
    ⟨by decide,Or.inl (by simp only [pcbRow,pcbSize,standingFor,givingUp]; omega)⟩
  have hframe : ∀ j < 20, pcbRow.Outside (cell ((standingFor pcbRow givingUp).pcb 1).cr3
      (((standingFor pcbRow givingUp).pcb 1).rsp+8*j)) := by
    have hsaved : ((standingFor pcbRow givingUp).pcb 1).cr3 = 0 ∧
        ((standingFor pcbRow givingUp).pcb 1).rsp = 0xFFFFFFFF80300000 := by decide
    rw [hsaved.1,hsaved.2]
    intro j hj q off ho e
    have := cell_injective 0 e
    simp only [pcbRow,pcbSize] at this ho
    omega
  obtain ⟨u,hu,hi⟩ := (contextSwitch_implements (by decide) (implements_standingFor pcbRow givingUp)
    (by decide) (by decide) hstack hframe).2 m' hm
  exact ⟨m',u,hm,hu,hi⟩
/-! There and back. -/

/-- `context_switch` is called from kernel code, on a stack with room that does not reach into the
PCB of `prev`, a process that is to go on in the kernel. -/
structure Savable (s : Core) : Prop where
  stack : Apart (s.regs .rsp) (s.regs .rdi)
  kernel : 2^47 ≤ s.regs .rdi
  caller : kernelBase ≤ s.regs .rip
  ring0 : s.word (s.regs .rdi+0x158) ≠ 0 ∨ kernelBase ≤ s.word (s.regs .rdi+0x118)

/-- Between `s` and `t` nobody has written to `rsp` in the PCB at `p` or to the frame it points to. -/
structure Untouched (p : ℕ) (s t : Core) : Prop where
  rsp : t.word (p+0x110) = s.word (p+0x110)
  frame : ∀ j < 20, t.mem (cell (t.word (p+0x30)) (s.word (p+0x110)+8*j)) =
    s.word (s.word (p+0x110)+8*j)

/-- The call made in `s` has returned in `u`. -/
structure Returned (s u : Core) : Prop where
  rip : u.regs .rip = s.regs .rip
  rsp : u.regs .rsp = s.regs .rsp
  cs : u.regs .cs = 0x18
  regs : ∀ r ∈ calleeSaved, u.regs r = s.regs r

theorem Savable.frame (h : Savable s) (ht : Untouched (s.regs .rdi) (save (call s)) t) :
    readFrame t.mem (t.word (s.regs .rdi+0x30)) (t.word (s.regs .rdi+0x110)) =
      ring0Frame s.regs (savedAt s (s.regs .rdi)) := by
  have hroom := h.stack.room
  have hkernel := h.kernel
  have hleft := save_ring0 h.stack (by omega) h.ring0
  have hbase : (save (call s)).word (s.regs .rdi+0x110) = s.regs .rsp-8*29 :=
    congrArg Saved.rsp hleft.pcb
  have hread := readFrame_pushAll s.cr3 s.mem (ring0Frame s.regs (savedAt s (s.regs .rdi)))
    (s.regs .rip::calleeSaved.map s.regs++[s.regs .rip,s.regs .rsp]) []
    (by simp; omega : 8*(9+20+0) ≤ s.regs .rsp)
  rw [← hread,ht.rsp,hbase,List.append_nil]
  refine readFrame_congr fun j hj => ?_
  have hframe := ht.frame j hj
  rw [hbase] at hframe
  rw [hframe,Core.word,hleft.cr3]
  exact hleft.stack _ fun off ho => h.stack.cell_ne (by omega) (by omega) ho _

theorem returned_of_frame {s u : Core} (h : u.regs = ring0Frame s.regs (savedAt s p)) : Returned s u where
  rip := congrFun h .rip
  rsp := congrFun h .rsp
  cs := congrFun h .cs
  regs r hr := by rw [h,ring0Frame_calleeSaved _ _ r hr]

/-- A process that `context_switch` has saved is resumed after the call, by any later
`context_switch` or by a return from the timer, as long as its frame is untouched. -/
theorem contextSwitch_returns (h : Savable s) :
    (∀ t, Untouched (s.regs .rdi) (save (call s)) t →
      frameOk (readFrame t.mem (t.word (s.regs .rdi+0x30)) (t.word (s.regs .rdi+0x110))) = true) ∧
    (∀ v, v.regs .rsi = s.regs .rdi → Untouched (s.regs .rdi) (save (call s)) (save (call v)) →
      ∃ u, contextSwitch v = .running u ∧ Returned s u) ∧
    (∀ t, Untouched (s.regs .rdi) (save (call s)) t → t.regs .rax = t.word (s.regs .rdi+0x110) →
      t.cr3 = t.word (s.regs .rdi+0x30) → Returned s (irq0Return t)) := by
  have hok : ∀ t, Untouched (s.regs .rdi) (save (call s)) t →
      frameOk (readFrame t.mem (t.word (s.regs .rdi+0x30)) (t.word (s.regs .rdi+0x110))) = true := by
    intro t ht
    rw [h.frame ht]
    exact decide_eq_true (Or.inl ⟨rfl,h.caller⟩)
  refine ⟨hok,fun v hv ht => ?_,fun t ht hrax hcr3 => ?_⟩
  · have hr12 : (save (call v)).regs .r12 = s.regs .rdi := (save_r12 (call v)).trans hv
    exact ⟨_,(resume_frame hr12 h.kernel).1 (hok _ ht),returned_of_frame (h.frame ht)⟩
  · have hregs := h.frame ht
    rw [← hrax,← hcr3] at hregs
    rw [irq0Return_eq]
    exact returned_of_frame hregs

/-- A process that waits for its child calls `context_switch`. -/
def waiting : Core where
  regs r := match r with
    | .rdi => 0xFFFFFFFF80100000
    | .rsi => 0xFFFFFFFF80100200
    | .rsp => 0xFFFFFFFF80200000
    | .rip => 0xFFFFFFFF80001234
    | .rbx => 3
    | .r15 => 15
    | _ => 0
  cr3 := 0x1000
  mem c := if c = (0,0xFFFFFFFF80100158) then 1 else 0
  ports := []

/-- On another stack and in another address space, `context_switch` is called to resume it, or the
timer handler has returned its stack pointer. -/
def resuming : Core where
  regs r := match r with
    | .rsi => 0xFFFFFFFF80100000
    | .rsp => 0xFFFFFFFF80300000
    | .rax => 0xFFFFFFFF80200000-232
    | _ => 0
  cr3 := 0x1000
  mem := (save (call waiting)).mem
  ports := []

theorem contextSwitch_returns_waiting : (∃ u, contextSwitch { resuming with cr3 := 0x2000 } = .running u ∧
    Returned waiting u) ∧ Returned waiting (irq0Return resuming) := by
  have hs : Savable waiting :=
    ⟨⟨by decide,Or.inl (by decide)⟩,by decide,by decide,Or.inl (by decide)⟩
  obtain ⟨-,hswitch,htimer⟩ := contextSwitch_returns hs
  refine ⟨hswitch _ rfl ⟨?_,?_⟩,htimer _ ⟨?_,?_⟩ ?_ ?_⟩ <;> decide +kernel

end Asm
end Cpu
end DonsOs
