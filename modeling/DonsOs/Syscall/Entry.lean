import DonsOs.Sched.Preempt

/-! Entering and leaving a system call: `user_syscall_entry`.
The entry code parks the user's stack pointer in `g_user_rsp_save`, one slot for all
processes, turns interrupts on and only then pushes the slot on the kernel stack, from
where the way out restores it.  Processes execute the code instruction by instruction and
the timer switches between them wherever interrupts are on. -/
namespace DonsOs
namespace Syscall

open Interleave Run Sched

inductive Reg where
  | rax | rbx | rcx | rdx | rsi | rdi | rbp | r8 | r9 | r10 | r11 | r12 | r13 | r14 | r15
deriving DecidableEq

inductive Instr where
  | cli
  /-- The store `mov [g_user_rsp_save], rsp`. -/
  | saveRsp
  /-- The load `mov rsp, [g_syscall_stack_top]`. -/
  | loadRsp
  | testRsp
  | jzNoStack
  | sti
  | push (r : Reg)
  /-- The push of the slot, `push qword [g_user_rsp_save]`. -/
  | pushSaved
  | mov (dst src : Reg)
  | callDispatch
  | addRsp8
  | cmpExit
  | jeExit
  | pop (r : Reg)
  /-- A store of `r` to one of the `g_last_sysret` diagnostics. -/
  | record (r : Reg)
  | movRsp (src : Reg)
  | sysret
deriving DecidableEq

/-- The instructions of `user_syscall_entry`, in order. -/
def userSyscallEntry : List Instr :=
  [.cli,.saveRsp,.loadRsp,.testRsp,.jzNoStack,.sti,
    .push .rbx,.push .rbp,.push .r12,.push .r13,.push .r14,.push .r15,.push .rcx,.push .r11,
    .pushSaved,.push .r8,.push .r9,.push .r9,
    .mov .rbx .rax,.mov .r9 .r8,.mov .r8 .r10,.mov .rcx .rdx,.mov .rdx .rsi,.mov .rsi .rdi,
    .mov .rdi .rax,
    .callDispatch,.addRsp8,.cmpExit,.jeExit,
    .pop .r9,.pop .r8,.pop .r10,.pop .r11,.pop .rcx,
    .pop .r15,.pop .r14,.pop .r13,.pop .r12,.pop .rbp,.pop .rbx,
    .record .rcx,.record .r11,.record .r10,
    .movRsp .r10,.sysret]

/-- The registers of a process and what it has pushed on its kernel stack. -/
structure Cpu where
  regs : Reg → ℕ
  rsp : ℕ
  stack : List ℕ

/-- Registers a C function such as `syscall_dispatch` hands back as it found them. -/
def calleeSaved : Reg → Bool
  | .rbx | .rbp | .r12 | .r13 | .r14 | .r15 => true
  | _ => false

/-- One instruction, on the registers and the slot `g_user_rsp_save`.  `top` is
`g_syscall_stack_top`, which is not zero once `process_init` has run, and `result` is what
`syscall_dispatch` leaves in the registers it may change. -/
def Instr.exec (top : ℕ) (result : Reg → ℕ) (c : Cpu) (saved : ℕ) : Instr → Cpu × ℕ
  | .saveRsp => (c,c.rsp)
  | .loadRsp => ({ c with rsp := top, stack := [] },saved)
  | .push r => ({ c with rsp := c.rsp-8, stack := c.regs r::c.stack },saved)
  | .pushSaved => ({ c with rsp := c.rsp-8, stack := saved::c.stack },saved)
  | .mov dst src => ({ c with regs := Function.update c.regs dst (c.regs src) },saved)
  | .callDispatch =>
    ({ c with regs := fun r => if calleeSaved r then c.regs r else result r },saved)
  | .addRsp8 => ({ c with rsp := c.rsp+8, stack := c.stack.tail },saved)
  | .pop r =>
    ({ regs := Function.update c.regs r (c.stack.headD 0), rsp := c.rsp+8, stack := c.stack.tail },
      saved)
  | .movRsp src => ({ c with rsp := c.regs src },saved)
  | .cli | .testRsp | .jzNoStack | .sti | .cmpExit | .jeExit | .record _ | .sysret => (c,saved)

/-- A process.  `todo` is what remains of the entry code, nothing in user mode; `entered`
is a history variable, the stack pointer at the last `syscall`.  A process that has asked
to exit does not come back. -/
structure Thread where
  cpu : Cpu
  top : ℕ
  todo : List Instr
  entered : ℕ
  exited : Bool

inductive Op where
  /-- User code, which leaves these registers and this stack pointer. -/
  | user (regs : Reg → ℕ) (rsp : ℕ)
  | syscall (rip rflags : ℕ)
  | instr (result : Reg → ℕ)

def exec (_ : Slot) (t : Thread) (saved : ℕ) (op : Op) : Option (Thread × ℕ) :=
  if t.exited then none else
  match op,t.todo with
  | .user regs rsp,[] => some ({ t with cpu := { t.cpu with regs := regs, rsp := rsp } },saved)
  | .syscall rip rflags,[] => some
      ({ t with
          cpu := { t.cpu with
            regs := Function.update (Function.update t.cpu.regs .rcx rip) .r11 rflags }
          todo := userSyscallEntry
          entered := t.cpu.rsp },saved)
  | .instr result,i::is =>
    let r := i.exec t.top result t.cpu saved
    -- `.handle_exit` ends in `process_exit`
    if i = .jeExit ∧ r.1.regs .rbx = 2 then
      some ({ t with cpu := r.1, todo := [], exited := true },r.2)
    else some ({ t with cpu := r.1, todo := is },r.2)
  | _,_ => none

/-- Interrupts are off from `syscall`, by its flag mask, to `sti`. -/
def entry : Program Kernel Slot Thread ℕ Bool Op :=
  preemptive (fun t => t.todo.contains .sti) (fun t => !t.todo.isEmpty) exec

/-- Every process is in user mode, with any registers. -/
def start (k : Kernel) (cpu : Slot → Cpu) (top : Slot → ℕ) (saved : ℕ) :
    Machine Kernel Slot Thread ℕ :=
  ⟨k,fun p => ⟨cpu p,top p,[],0,false⟩,saved⟩

/-- The code reads the slot before it writes it. -/
def readsSaved : List Instr → Bool
  | [] => false
  | i::is => if i = .saveRsp then false else if i = .pushSaved then true else readsSaved is

/-- The next thing the process does is to store to the slot. -/
def Thread.stores (t : Thread) : Op → Bool
  | .instr _ => t.todo.head? = some .saveRsp
  | _ => false

/-- A process does not store to the slot while another has stored to it and not yet pushed
it. -/
def Clear (t : Thread) (op : Op) (u : Thread) : Prop :=
  t.stores op = true → readsSaved u.todo = false

instance (t : Thread) (op : Op) (u : Thread) : Decidable (Clear t op u) :=
  inferInstanceAs (Decidable (t.stores op = true → readsSaved u.todo = false))

/-- The stack pointer that `code` restores if it runs to its `sysret` undisturbed; `results`
are those of the calls it makes on the way. -/
def alone (top : ℕ) : List Instr → (ℕ → Reg → ℕ) → Cpu → ℕ → Option ℕ
  | [], _, _, _ => none
  | i::is, results, c, saved =>
    if i = .sysret then some c.rsp else
    let r := i.exec top (results 0) c saved
    if i = .jeExit ∧ r.1.regs .rbx = 2 then none
    else alone top is (fun n => results (n+1)) r.1 r.2

/-- Only `push qword [g_user_rsp_save]` lets the slot into the registers or the stack. -/
theorem exec_cpu {i : Instr} (hp : i ≠ .pushSaved) (top : ℕ) (result : Reg → ℕ) (c : Cpu)
    (saved saved' : ℕ) : (i.exec top result c saved).1 = (i.exec top result c saved').1 := by
  cases i <;> first | rfl | contradiction

/-- Code that does not read the slot before writing it does not depend on what is there. -/
theorem alone_congr {top : ℕ} {code : List Instr} (h : readsSaved code = false)
    (results : ℕ → Reg → ℕ) (c : Cpu) (saved saved' : ℕ) :
    alone top code results c saved = alone top code results c saved' := by
  induction code generalizing results c saved saved' with
  | nil => rfl
  | cons i is ih =>
    by_cases hs : i = .saveRsp
    · subst hs
      rfl
    by_cases hp : i = .pushSaved
    · simp [readsSaved,hp] at h
    have hrest : readsSaved is = false := by simpa [readsSaved,hs,hp] using h
    simp only [alone]
    rw [exec_cpu hp top (results 0) c saved saved',ih hrest _ _ _ (i.exec top (results 0) c saved').2]

/-- The whole of the entry code restores the stack pointer it finds: what it pops into `r10`
is the slot it pushed. -/
theorem alone_userSyscallEntry (top : ℕ) (results : ℕ → Reg → ℕ) (c : Cpu) (saved v : ℕ)
    (h : alone top userSyscallEntry results c saved = some v) : v = c.rsp := by
  simp [alone,userSyscallEntry,Instr.exec] at h
  exact h.2.symm

/-- What the process is about to restore is what it entered with. -/
structure Restores (_ : Slot) (t : Thread) (saved : ℕ) : Prop where
  code : t.todo <:+ userSyscallEntry
  rsp : ∀ results v, alone t.top t.todo results t.cpu saved = some v → v = t.entered

theorem sysret_last {is : List Instr} (h : .sysret::is <:+ userSyscallEntry) : is = [] := by
  simpa [userSyscallEntry,List.suffix_cons_iff] using h

/-- What a process can do: user code, a `syscall`, an instruction of the entry code. -/
theorem exec_cases {p : Slot} {t t' : Thread} {saved saved' : ℕ} {op : Op}
    (h : exec p t saved op = some (t',saved')) :
    (t'.todo = [] ∧ saved' = saved) ∨
    (t'.todo = userSyscallEntry ∧ t'.entered = t'.cpu.rsp ∧ saved' = saved) ∨
    ∃ result i is, op = .instr result ∧ t.todo = i::is ∧
      saved' = (i.exec t.top result t.cpu saved).2 ∧
      (t'.todo = [] ∨ t' = { t with cpu := (i.exec t.top result t.cpu saved).1, todo := is } ∧
        ¬(i = .jeExit ∧ t'.cpu.regs .rbx = 2)) := by
  unfold exec at h
  split at h
  · cases h
  split at h
  · rename_i htodo
    cases h
    exact Or.inl ⟨htodo,rfl⟩
  · cases h
    exact Or.inr (Or.inl ⟨rfl,rfl,rfl⟩)
  · rename_i result i is htodo
    refine Or.inr (Or.inr ⟨result,i,is,rfl,htodo,?_⟩)
    dsimp only at h
    split at h <;> cases h
    · exact ⟨rfl,Or.inl rfl⟩
    · rename_i hstay
      exact ⟨rfl,Or.inr ⟨rfl,hstay⟩⟩
  · cases h

theorem Restores.user {p : Slot} {t : Thread} {saved : ℕ} (h : t.todo = []) :
    Restores p t saved where
  code := by simp [h]
  rsp results v hv := by simp [h,alone] at hv

theorem exec_own (p : Slot) (t : Thread) (saved : ℕ) (op : Op) (t' : Thread) (saved' : ℕ)
    (h : Restores p t saved) (_ : True) (he : exec p t saved op = some (t',saved')) :
    Restores p t' saved' := by
  rcases exec_cases he with ⟨htodo,-⟩ | ⟨htodo,hrsp,-⟩ | ⟨result,i,is,-,htodo,rfl,hout | ⟨rfl,hstay⟩⟩
  · exact .user htodo
  · refine ⟨by rw [htodo],fun results v hv => ?_⟩
    rw [htodo] at hv
    rw [hrsp]
    exact alone_userSyscallEntry _ _ _ _ _ hv
  · exact .user hout
  · have hcode := h.code
    have hrun := h.rsp
    rw [htodo] at hcode hrun
    by_cases hi : i = .sysret
    · subst hi
      exact .user (sysret_last hcode)
    · refine ⟨(List.suffix_cons i is).trans hcode,fun results v hv => ?_⟩
      -- the rest of the code run alone is the code run alone from one instruction earlier
      refine hrun (fun n => n.casesOn result results) v ?_
      simp only [alone,if_neg hi]
      exact (if_neg hstay).trans hv

theorem exec_other (p q : Slot) (t u : Thread) (saved : ℕ) (op : Op) (t' : Thread) (saved' : ℕ)
    (_ : p ≠ q) (_ : Restores p t saved) (h : Restores q u saved) (hclear : Clear t op u)
    (he : exec p t saved op = some (t',saved')) : Restores q u saved' := by
  have hsame : saved' = saved ∨ t.stores op = true := by
    rcases exec_cases he with ⟨-,hs⟩ | ⟨-,-,hs⟩ | ⟨result,i,is,rfl,htodo,hs,-⟩
    · exact Or.inl hs
    · exact Or.inl hs
    · cases i with
      | saveRsp => exact Or.inr (by simp [Thread.stores,htodo])
      | _ => exact Or.inl hs
  rcases hsame with rfl | hstores
  · exact h
  · refine ⟨h.code,fun results v hv => h.rsp results v ?_⟩
    rw [alone_congr (hclear hstores) results u.cpu saved saved']
    exact hv

/-- Process 1 is interrupted after `sti` and one push; process 2 enters a system call and is
interrupted at the same place; process 1 goes on to its `sysret`. -/
def crossedEntries : List (Event Bool Op) :=
  .exec (.syscall 0 0)::List.replicate 7 (.exec (.instr fun _ => 0))++
    .tick false::.exec (.syscall 0 0)::List.replicate 7 (.exec (.instr fun _ => 0))++
    .tick false::List.replicate 37 (.exec (.instr fun _ => 0))

/-- Every process with its own user stack and kernel stack. -/
def separateStacks : Machine Kernel Slot Thread ℕ :=
  start twoProcesses (fun p => ⟨fun _ => 0,userCodeBase+4096*(p+1),[]⟩)
    (fun p => kernelBase+16384*(p+1)) 0

/-- Process 1 is about to return to user mode on the stack of process 2. -/
theorem crossed_entries_swap_stacks :
    (run entry.step separateStacks crossedEntries).map (fun m =>
        ((m.thread 1).todo,(m.thread 1).entered,(m.thread 1).cpu.rsp,(m.thread 2).entered)) =
      some ([.sysret],userCodeBase+8192,userCodeBase+12288,userCodeBase+12288) := by
  decide +kernel

/-- As long as no process stores to `g_user_rsp_save` while another has stored to it and not
yet pushed it, a process that has come to its `sysret` is about to return with the stack
pointer it entered with. -/
theorem sysret_restores_rsp (k : Kernel) (cpu : Slot → Cpu) (top : Slot → ℕ) (saved : ℕ)
    {es : List (Event Bool Op)} {m : Machine Kernel Slot Thread ℕ}
    (ha : Admits entry.step (Undisturbed entry (fun _ _ => True) Clear) (start k cpu top saved) es)
    (hr : run entry.step (start k cpu top saved) es = some m) (p : Slot)
    (hp : (m.thread p).todo = [.sysret]) : (m.thread p).cpu.rsp = (m.thread p).entered := by
  have h : Restores p (m.thread p) m.shared :=
    run_threads Restores exec_own exec_other (fun i => .user rfl) ha hr p
  have hrsp := h.rsp fun _ _ => 0
  rw [hp] at hrsp
  exact hrsp _ rfl

/-- The same two processes, the second entering once the first has pushed the slot. -/
def orderedEntries : List (Event Bool Op) :=
  .exec (.syscall 0 0)::List.replicate 15 (.exec (.instr fun _ => 0))++
    .tick false::.exec (.syscall 0 0)::List.replicate 7 (.exec (.instr fun _ => 0))++
    .tick false::List.replicate 29 (.exec (.instr fun _ => 0))

theorem sysret_restores_rsp_ordered :
    ∃ m, run entry.step separateStacks orderedEntries = some m ∧
      (m.thread 1).entered = userCodeBase+8192 ∧ (m.thread 1).cpu.rsp = (m.thread 1).entered := by
  have ha : Admits entry.step (Undisturbed entry (fun _ _ => True) Clear) separateStacks
      orderedEntries := by decide +kernel
  have hm : (run entry.step separateStacks orderedEntries).map
      (fun m => ((m.thread 1).todo,(m.thread 1).entered)) =
      some ([.sysret],userCodeBase+8192) := by decide +kernel
  obtain ⟨m,hr,he⟩ := Option.map_eq_some_iff.mp hm
  obtain ⟨htodo,hentered⟩ := Prod.mk.inj he
  exact ⟨m,hr,hentered,sysret_restores_rsp _ _ _ _ ha hr 1 htodo⟩

end Syscall
end DonsOs
