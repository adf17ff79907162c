import DonsOs.Memory.UserCopy
import DonsOs.Sched.Pids

/-! What `sys_waitpid` returns.
A pass of its loop looks the children up by their pids, reaps the first zombie and copies the exit
status out.  The pids it tries end at 999, and the zombie is gone before the copy is attempted. -/
namespace DonsOs
namespace Reap

open Sched Memory Paging LinkedQueue Run

/-- What the call reads and writes: the process table with the exit statuses, and memory with the
root of each process. -/
structure World where
  kernel : Kernel
  exitStatus : Slot → BitVec 32
  cr3 : Slot → ℕ
  mem : Mem

/-- A pass returns a value, or puts the caller to sleep, or touches an address outside the HHDM. -/
inductive Pass where
  | returns (value : ℤ) (w : World)
  | sleeps (w : World)
  | faults (w : World)

/-- The bytes of an `int`. -/
def statusByte (status : BitVec 32) (i : ℕ) : BitVec 8 := (status >>> (8*i)).setWidth 8

def statusSize : ℕ := 4

/-- One pass of the loop of `sys_waitpid`; a call that has slept goes through another one, in the
state in which it wakes up. -/
def sysWaitpid (w : World) (pid : ℤ) (userStatus : ℕ) (nohang : Bool) : Pass :=
  match w.kernel.procCurrent with
  | none => .returns (-1) w
  | some self =>
    match scanChildren w.kernel self (waitTarget pid) (List.range' 1 999) false with
    | (some zombie,_) =>
      let reaped : ℤ := w.kernel.pid zombie
      let status := w.exitStatus zombie
      let w := { w with kernel := processReclaim w.kernel zombie }
      if userStatus = 0 then .returns reaped w else
      match safeCopyToUser w.mem (some (w.cr3 self)) userStatus (statusByte status) statusSize with
      | (.done,mem,_) => .returns reaped { w with mem := mem }
      | (.failed,mem,_) => .returns (-1) { w with mem := mem }
      | (.fault,mem,_) => .faults { w with mem := mem }
    | (none,live) =>
      if live = false then .returns (-1) w else
      if nohang then .returns 0 w else
      .sleeps { w with
        kernel := processYield (w.kernel.modify self fun c =>
          { c with state := .blocked, blockKind := .waitpid, waitPid := waitTarget pid }) }

def Pass.world : Pass → World
  | .returns _ w | .sleeps w | .faults w => w

variable {w : World} {self : Slot} {pid : ℤ}

/-- To the scheduler, a pass is the one of `Sched`. -/
theorem sysWaitpid_kernel (hself : w.kernel.procCurrent = some self) (pid : ℤ)
    (userStatus : ℕ) (nohang : Bool) :
    (sysWaitpid w pid userStatus nohang).world.kernel = Sched.sysWaitpid w.kernel self pid nohang := by
  simp only [sysWaitpid,hself,Sched.sysWaitpid,waitScan]
  generalize scanChildren w.kernel self (waitTarget pid) (List.range' 1 999) false = r
  obtain ⟨_ | z,live⟩ := r
  · cases live <;> cases nohang <;> rfl
  · simp only
    split
    · rfl
    · split <;> rfl

/-! ## The status -/

/-- The part of the status on the page of its first byte. -/
def firstPart (base : ℕ) : ℕ := min statusSize (4096-base%2^64%4096)

/-- The caller's tables do not map all of the status: the walk of the kernel finds nothing for the
first byte, or nothing for the first byte on a second page, once the first part has been written. -/
def Unmapped (m : Mem) (cr3 base : ℕ) (src : ℕ → BitVec 8) : Prop :=
  physAt m cr3 base 0 = 0 ∨ firstPart base < statusSize ∧ physAt m cr3 base 0 < hhdmSize ∧
    physAt (storeChunk src m (physAt m cr3 base 0) 0 (firstPart base)) cr3 base (firstPart base) = 0

/-- The status lies on two pages at most. -/
theorem copy_failed_iff (m : Mem) (cr3 base : ℕ) (src : ℕ → BitVec 8) :
    (safeCopyToUser m (some cr3) base src statusSize).1 = .failed ↔ Unmapped m cr3 base src := by
  have hfirst : min (statusSize-0) (4096-(base+0)%2^64%4096) = firstPart base := rfl
  have hphys : vmmGetPhysFromCr3 (id m) cr3 ((base+0)%2^64) = physAt m cr3 base 0 := rfl
  rw [Unmapped]
  simp only [safeCopyToUser,statusSize,copyLoop] at hfirst ⊢
  rw [if_neg (by decide),hphys,hfirst]
  by_cases h0 : physAt m cr3 base 0 = 0
  · simp [h0]
  by_cases hw : hhdmSize ≤ physAt m cr3 base 0
  · simp [h0,hw,not_lt.mpr hw]
  rw [if_neg h0,if_neg hw,Nat.zero_add]
  by_cases hend : 4 ≤ firstPart base
  · simp [h0,hend,not_lt.mpr hend]
  -- the second part starts on a page of its own and is all of the rest
  rw [if_neg hend]
  generalize hm : storeChunk src m (physAt m cr3 base 0) 0 (firstPart base) = m₁
  have hphys₁ : vmmGetPhysFromCr3 (id m₁) cr3 ((base+firstPart base)%2^64) =
      physAt m₁ cr3 base (firstPart base) := rfl
  rw [hphys₁]
  have hrest : min (4-firstPart base) (4096-(base+firstPart base)%2^64%4096) = 4-firstPart base := by
    have hpart : firstPart base = 4096-base%2^64%4096 := by
      simp only [firstPart,statusSize] at hend ⊢
      omega
    omega
  rw [hrest]
  by_cases h1 : physAt m₁ cr3 base (firstPart base) = 0
  · simp [h1,not_le.mp hend,not_le.mp hw]
  simp only [h0,h1,and_false,or_self,iff_false,if_false]
  by_cases hw₁ : hhdmSize ≤ physAt m₁ cr3 base (firstPart base)
  · simp [hw₁]
  · rw [if_neg hw₁,if_pos (by omega)]
    simp

/-! ## A failing call -/

/-- No child has been reclaimed and every exit status is still there. -/
def Kept (w w' : World) : Prop :=
  ∀ c, w'.kernel.pool c = w.kernel.pool c ∧ w'.exitStatus c = w.exitStatus c

/-- A pass that returns -1 has reaped nothing. -/
def FailsCleanly (w : World) (pid : ℤ) (userStatus : ℕ) (nohang : Bool) : Prop :=
  ∀ w', sysWaitpid w pid userStatus nohang = .returns (-1) w' → Kept w w'

/-- The zombie that a pass reaps. -/
def victim (w : World) (self : Slot) (pid : ℤ) : Option Slot :=
  (scanChildren w.kernel self (waitTarget pid) (List.range' 1 999) false).1

/-- Every process that has exited has done so with status 7, and no address is mapped. -/
def unmappedWorld (k : Kernel) : World := ⟨k,fun _ => 7,fun _ => 16,fun _ _ => 0⟩

/-- A process has one child, which has exited. -/
def oneZombie : List Sched.Event :=
  [.create Sched.userCodeBase .ok,.tick false,.exec .ok (some Sched.userCodeBase),.tick true,.exit]

def Pass.value : Pass → Option ℤ
  | .returns v _ => some v
  | _ => none

/-- It waits with a status pointer that is not mapped: the call fails, and the child is gone. -/
theorem unmapped_status_loses_child : ∃ k, run Kernel.step (boot none) oneZombie = some k ∧
    ¬FailsCleanly (unmappedWorld k) (-1) 0x9000000000 false := by
  have hrun : (run Kernel.step (boot none) oneZombie).map (fun k =>
      let pass := sysWaitpid (unmappedWorld k) (-1) 0x9000000000 false
      (k.state 2,pass.value,pass.world.kernel.state 2)) = some (.zombie,some (-1),.unused) := by
    decide +kernel
  obtain ⟨k,hk,hout⟩ := Option.map_eq_some_iff.mp hrun
  simp only [Prod.mk.injEq] at hout
  obtain ⟨hz,hv,hu⟩ := hout
  refine ⟨k,hk,fun h => ?_⟩
  cases hpass : sysWaitpid (unmappedWorld k) (-1) 0x9000000000 false with
  | returns v w' =>
    rw [hpass] at hv hu
    obtain rfl := Option.some.inj hv
    have hkept := (h w' hpass 2).1
    rw [Kernel.state,Pass.world,hkept] at hu
    exact absurd (hz.symm.trans hu) (by decide)
  | sleeps w' =>
    rw [hpass] at hv
    cases hv
  | faults w' =>
    rw [hpass] at hv
    cases hv

theorem sysWaitpid_reaps {zombie : Slot} (userStatus : ℕ) (nohang : Bool)
    (hself : w.kernel.procCurrent = some self) (hz : victim w self pid = some zombie) :
    sysWaitpid w pid userStatus nohang =
      let w₁ : World := { w with kernel := processReclaim w.kernel zombie }
      if userStatus = 0 then .returns (w.kernel.pid zombie) w₁ else
      match safeCopyToUser w.mem (some (w.cr3 self)) userStatus (statusByte (w.exitStatus zombie)) statusSize with
      | (.done,mem,_) => .returns (w.kernel.pid zombie) { w₁ with mem := mem }
      | (.failed,mem,_) => .returns (-1) { w₁ with mem := mem }
      | (.fault,mem,_) => .faults { w₁ with mem := mem } := by
  simp only [victim] at hz
  simp only [sysWaitpid,hself]
  generalize scanChildren w.kernel self (waitTarget pid) (List.range' 1 999) false = r at hz ⊢
  obtain ⟨o,live⟩ := r
  simp only at hz
  subst hz
  rfl

theorem sysWaitpid_none {live : Bool} (userStatus : ℕ) (nohang : Bool)
    (hself : w.kernel.procCurrent = some self)
    (hscan : scanChildren w.kernel self (waitTarget pid) (List.range' 1 999) false = (none,live)) :
    sysWaitpid w pid userStatus nohang =
      if live = false then .returns (-1) w else
      if nohang then .returns 0 w else
      .sleeps { w with
        kernel := processYield (w.kernel.modify self fun c =>
          { c with state := .blocked, blockKind := .waitpid, waitPid := waitTarget pid }) } := by
  simp only [sysWaitpid,hself,hscan]

theorem sysWaitpid_none_returns {w' : World} {v : ℤ} {userStatus : ℕ} {nohang : Bool}
    (hself : w.kernel.procCurrent = some self) (hz : victim w self pid = none)
    (hr : sysWaitpid w pid userStatus nohang = .returns v w') : w' = w := by
  rw [sysWaitpid_none userStatus nohang hself (Prod.ext hz rfl)] at hr
  split_ifs at hr
  · exact (Pass.returns.inj hr).2.symm
  · exact (Pass.returns.inj hr).2.symm

theorem not_kept_reclaim {w' : World} {z : Slot} (hz : w.kernel.state z = .zombie)
    (hk : w'.kernel = processReclaim w.kernel z) : ¬Kept w w' := by
  intro h
  have hpool := (h z).1
  rw [hk,reclaim_eq (by rw [hz]; decide)] at hpool
  have hstate := congrArg Pcb.state hpool
  simp only [modify_pool,if_true] at hstate
  exact absurd (hstate.trans hz) (by decide)

/-- A call fails cleanly just when it finds no zombie, or is given no status pointer or one whose four
bytes are mapped. -/
theorem fails_cleanly_iff (w : World) (pid : ℤ) (userStatus : ℕ) (nohang : Bool) :
    FailsCleanly w pid userStatus nohang ↔ ∀ self, w.kernel.procCurrent = some self →
      ∀ zombie, victim w self pid = some zombie → userStatus = 0 ∨
        ¬Unmapped w.mem (w.cr3 self) userStatus (statusByte (w.exitStatus zombie)) := by
  constructor
  · intro h self hself zombie hz
    by_contra hno
    obtain ⟨hstatus,hun⟩ := not_or.mp hno
    have hfail := (copy_failed_iff w.mem (w.cr3 self) userStatus _).mpr (not_not.mp hun)
    have hzombie : w.kernel.state zombie = .zombie := (scanChildren_some (Prod.ext hz rfl)).1
    have hpass := sysWaitpid_reaps userStatus nohang hself hz
    simp only [if_neg hstatus] at hpass
    split at hpass
    · rename_i hcopy
      simp [hcopy] at hfail
    · exact not_kept_reclaim hzombie rfl (h _ hpass)
    · rename_i hcopy
      simp [hcopy] at hfail
  · intro h w' hr
    cases hself : w.kernel.procCurrent with
    | none =>
      simp only [sysWaitpid,hself] at hr
      obtain rfl := (Pass.returns.inj hr).2
      exact fun c => ⟨rfl,rfl⟩
    | some self =>
      cases hz : victim w self pid with
      | none =>
        obtain rfl := sysWaitpid_none_returns hself hz hr
        exact fun c => ⟨rfl,rfl⟩
      | some zombie =>
        -- a reaped pid is not -1, and the copy does not fail
        have hcond := h self hself zombie hz
        rw [← copy_failed_iff] at hcond
        rw [sysWaitpid_reaps userStatus nohang hself hz] at hr
        have hpid : (w.kernel.pid zombie : ℤ) ≠ -1 := by omega
        simp only at hr
        split_ifs at hr with hstatus
        · exact absurd (Pass.returns.inj hr).1 hpid
        · split at hr
          · exact absurd (Pass.returns.inj hr).1 hpid
          · rename_i hcopy
            simp [hcopy,hstatus] at hcond
          · cases hr

/-! ## Children with large pids -/

/-- No status pointer, or one that four bytes can be copied to. -/
def StatusOk (w : World) (self : Slot) (userStatus : ℕ) : Prop :=
  userStatus = 0 ∨ ∀ src, (safeCopyToUser w.mem (some (w.cr3 self)) userStatus src statusSize).1 = .done

/-- A zombie among the children waited for is reaped and returned, and -1 means that there is no such
child. -/
def FindsEvery (w : World) (self : Slot) (pid : ℤ) (userStatus : ℕ) (nohang : Bool) : Prop :=
  ((∃ z, Matching w.kernel self (waitTarget pid) z ∧ w.kernel.state z = .zombie) →
    ∃ z w', Matching w.kernel self (waitTarget pid) z ∧ w.kernel.state z = .zombie ∧
      sysWaitpid w pid userStatus nohang = .returns (w.kernel.pid z) w' ∧ w'.kernel.state z = .unused) ∧
  ∀ w', sysWaitpid w pid userStatus nohang = .returns (-1) w' →
    ∀ c, ¬Matching w.kernel self (waitTarget pid) c

/-- The pids that the scan tries. -/
def Scanned (pid : ℕ) : Prop := 0 < pid ∧ pid < 1000

instance (pid : ℕ) : Decidable (Scanned pid) := inferInstanceAs (Decidable (_ ∧ _))

theorem scanned_iff (pid : ℕ) : pid ∈ List.range' 1 999 ↔ Scanned pid := by
  simp only [List.mem_range'_1,Scanned]
  omega

/-- A user process runs alone and has pid 2. -/
def shellRuns (n : ℕ) : Kernel where
  pool i := if i = 0 then ⟨1,.ready,.none,0,0,Sched.kernelBase⟩ else
    if i = 1 then ⟨2,.running,.none,0,0,Sched.userCodeBase⟩ else
    if i = 2 then ⟨0,.unused,.none,0,0,Sched.userCodeBase⟩ else ⟨0,.unused,.none,0,0,0⟩
  queue := ofList []
  inserted _ := false
  current := some 1
  procCurrent := some 1
  nextPid := n
  kernelShell := none
  kbd := 0
  halted := false

theorem kernel_ext {k k' : Kernel} (hpool : ∀ q, k'.pool q = k.pool q) (hqueue : k'.queue = k.queue)
    (hinserted : ∀ q, k'.inserted q = k.inserted q)
    (hrest : (k'.current,k'.procCurrent,k'.nextPid,k'.kernelShell,k'.kbd,k'.halted) =
      (k.current,k.procCurrent,k.nextPid,k.kernelShell,k.kbd,k.halted)) : k' = k := by
  obtain ⟨pool,queue,inserted,current,procCurrent,nextPid,kernelShell,kbd,halted⟩ := k
  obtain ⟨pool',queue',inserted',current',procCurrent',nextPid',kernelShell',kbd',halted'⟩ := k'
  simp only [Prod.mk.injEq] at hrest
  obtain ⟨rfl,rfl,rfl,rfl,rfl,rfl⟩ := hrest
  obtain rfl : pool' = pool := funext hpool
  obtain rfl : inserted' = inserted := funext hinserted
  obtain rfl : queue' = queue := hqueue
  rfl

theorem exec_fails (n : ℕ) : (shellRuns n).step (.exec .ok none) = some (shellRuns (n+1)) := by
  have hs : (shellRuns n).step (.exec .ok none) = some (sysExec (shellRuns n) 1 .ok none) := rfl
  rw [hs]
  refine congrArg some (kernel_ext ?_ ?_ ?_ ?_)
  · intro q
    fin_cases q <;> rfl
  · have hadd : (ofList ([] : List Slot)).add 2 = ofList [2] := add_ofList (by simp) (by simp)
    have hrem : (ofList ([]++(2 : Slot)::[])).remove 2 = ofList ([]++[]) := remove_ofList (by simp)
    have hqueue : (sysExec (shellRuns n) 1 .ok none).queue =
        (((((ofList []).wipe 2).wipe 2).add 2).remove 2).remove 2 := rfl
    rw [hqueue,wipe_not_mem (by simp),wipe_not_mem (by simp),hadd]
    exact (congrArg (fun q => q.remove 2) hrem).trans (remove_not_mem (by simp))
  · intro q
    fin_cases q <;> rfl
  · rfl

/-- The first process is created and dispatched. -/
def firstShell : Kernel := timerPreemptHandler (processCreate (boot none) Sched.userCodeBase .ok).2 false

theorem shell_started : run Kernel.step (boot none) [.create Sched.userCodeBase .ok,.tick false,.exec .ok none] =
    some (shellRuns 4) := by
  have hs : run Kernel.step (boot none) [.create Sched.userCodeBase .ok,.tick false,.exec .ok none] =
      some (sysExec firstShell 1 .ok none) := rfl
  rw [hs]
  refine congrArg some (kernel_ext (by decide +kernel) ?_ (by decide +kernel) rfl)
  exact Links.ext (funext (by decide +kernel)) (funext (by decide +kernel)) rfl rfl

theorem shell_goes_on (j n : ℕ) : run Kernel.step (shellRuns n) (List.replicate j (.exec .ok none)) =
    some (shellRuns (n+j)) := by
  induction j generalizing n with
  | zero => rfl
  | succ j ih =>
    rw [List.replicate_succ,run,exec_fails,Option.bind_some,ih,show n+1+j = n+(j+1) by omega]

/-- A process calls `sys_exec` for 997 files that do not load, then for one that does, and its child
exits. -/
def lateChild : List Sched.Event :=
  [.create Sched.userCodeBase .ok,.tick false,.exec .ok none]++List.replicate 996 (.exec .ok none)++
    [.exec .ok (some Sched.userCodeBase),.tick true,.exit]

/-- The child has pid 1000, and waiting for it fails. -/
theorem late_child_not_found : ∃ k, run Kernel.step (boot none) lateChild = some k ∧
    ¬FindsEvery (unmappedWorld k) 1 (-1) 0 false := by
  have hlast : (run Kernel.step (shellRuns 1000) [.exec .ok (some Sched.userCodeBase),.tick true,.exit]).map
      (fun k => (k.state 2,(k.pool 2).parentPid,k.pid 1,(sysWaitpid (unmappedWorld k) (-1) 0 false).value)) =
      some (.zombie,2,2,some (-1)) := by decide +kernel
  obtain ⟨k,hk,hout⟩ := Option.map_eq_some_iff.mp hlast
  simp only [Prod.mk.injEq] at hout
  obtain ⟨hz,hpar,hpid,hv⟩ := hout
  refine ⟨k,?_,fun h => ?_⟩
  · rw [lateChild,run_append,run_append,shell_started,Option.bind_some,shell_goes_on,Option.bind_some]
    exact hk
  · cases hpass : sysWaitpid (unmappedWorld k) (-1) 0 false with
    | returns v w' =>
      rw [hpass] at hv
      obtain rfl := Option.some.inj hv
      have hused : k.state 2 ≠ .unused := by rw [hz]; decide
      exact h.2 w' hpass 2 ⟨hused,hpar.trans hpid.symm,Or.inl rfl⟩
    | sleeps w' =>
      rw [hpass] at hv
      cases hv
    | faults w' =>
      rw [hpass] at hv
      cases hv

theorem victim_returned {zombie : Slot} {userStatus : ℕ} (nohang : Bool)
    (hself : w.kernel.procCurrent = some self) (hstatus : StatusOk w self userStatus)
    (hz : victim w self pid = some zombie) :
    ∃ w', sysWaitpid w pid userStatus nohang = .returns (w.kernel.pid zombie) w' ∧
      w'.kernel = processReclaim w.kernel zombie := by
  rw [sysWaitpid_reaps userStatus nohang hself hz]
  rcases hstatus with h0 | hdone
  · exact ⟨_,if_pos h0,rfl⟩
  · have hcopy := hdone (statusByte (w.exitStatus zombie))
    simp only
    split_ifs
    · exact ⟨_,rfl,rfl⟩
    · split
      · exact ⟨_,rfl,rfl⟩
      · rename_i he
        simp [he] at hcopy
      · rename_i he
        simp [he] at hcopy

/-- In every state reached from boot, every child is found just when a zombie among the children
waited for, if there is one, has a pid below 1000, and so has some child, if there is any. -/
theorem waitpid_finds_iff (shell : Option Slot) {es : List Sched.Event} {w : World} {self : Slot}
    (hrun : run Kernel.step (boot shell) es = some w.kernel) (hself : w.kernel.procCurrent = some self)
    (pid : ℤ) {userStatus : ℕ} (hstatus : StatusOk w self userStatus) (nohang : Bool) :
    FindsEvery w self pid userStatus nohang ↔
      ((∃ z, Matching w.kernel self (waitTarget pid) z ∧ w.kernel.state z = .zombie) →
        ∃ z, Matching w.kernel self (waitTarget pid) z ∧ w.kernel.state z = .zombie ∧
          Scanned (w.kernel.pid z)) ∧
      ((∃ c, Matching w.kernel self (waitTarget pid) c) →
        ∃ c, Matching w.kernel self (waitTarget pid) c ∧ Scanned (w.kernel.pid c)) := by
  have hnum := run_numbered hrun
  simp only [← scanned_iff]
  cases hscan : scanChildren w.kernel self (waitTarget pid) (List.range' 1 999) false with
  | mk o live =>
    cases o with
    | some z =>
      obtain ⟨hzombie,hmatch,hpid⟩ := scanChildren_some hscan
      obtain ⟨w',hpass,hk⟩ := victim_returned nohang hself hstatus (congrArg Prod.fst hscan)
      refine iff_of_true ⟨fun _ => ⟨z,w',hmatch,hzombie,hpass,?_⟩,fun w'' hr => ?_⟩
        ⟨fun _ => ⟨z,hmatch,hzombie,hpid⟩,fun _ => ⟨z,hmatch,hpid⟩⟩
      · rw [hk,reclaim_eq hmatch.used]
        simp
      · rw [hpass] at hr
        have hv := (Pass.returns.inj hr).1
        omega
    | none =>
      obtain ⟨hzombies,hlive⟩ := scanChildren_none (fun c hu hp => hnum.find hu (by
        have := List.mem_range'_1.mp hp
        omega)) hscan
      have hpass := sysWaitpid_none userStatus nohang hself hscan
      have hvictim : victim w self pid = none := congrArg Prod.fst hscan
      have hfirst : (∀ z, Matching w.kernel self (waitTarget pid) z → w.kernel.state z ≠ .zombie) ↔
          ((∃ z, Matching w.kernel self (waitTarget pid) z ∧ w.kernel.state z = .zombie) →
            ∃ z, Matching w.kernel self (waitTarget pid) z ∧ w.kernel.state z = .zombie ∧
              w.kernel.pid z ∈ List.range' 1 999) := by
        constructor
        · rintro h ⟨z,hm,hz⟩
          exact absurd hz (h z hm)
        · intro h z hm hz
          obtain ⟨y,hy,hyz,hp⟩ := h ⟨z,hm,hz⟩
          exact hzombies y hy hp hyz
      rw [FindsEvery,← hfirst]
      refine and_congr ⟨fun h z hm hz => ?_,fun h ⟨z,hm,hz⟩ => absurd hz (h z hm)⟩ ?_
      · -- nothing has been reaped
        obtain ⟨y,w',-,hyz,hr,hu⟩ := h ⟨z,hm,hz⟩
        rw [sysWaitpid_none_returns hself hvictim hr,hyz] at hu
        cases hu
      · rw [hpass]
        cases live with
        | false =>
          have hnone : ¬∃ c, Matching w.kernel self (waitTarget pid) c ∧
              w.kernel.pid c ∈ List.range' 1 999 := by
            intro hc
            cases hlive.mpr (Or.inr hc)
          constructor
          · rintro h ⟨c,hc⟩
            exact absurd hc (h w rfl c)
          · intro h w' _ c hc
            exact hnone (h ⟨c,hc⟩)
        | true =>
          have hsome := (hlive.mp rfl).resolve_left (by decide)
          refine iff_of_true (fun w' hr => ?_) fun _ => hsome
          cases nohang
          · cases hr
          · cases (Pass.returns.inj hr).1

/-- The first child of a process, with pid 3. -/
theorem waitpid_finds_iff_first : ∃ k, run Kernel.step (boot none) oneZombie = some k ∧
    FindsEvery (unmappedWorld k) 1 (-1) 0 false := by
  have hrun : (run Kernel.step (boot none) oneZombie).map (fun k =>
      (k.procCurrent,k.state 2,(k.pool 2).parentPid,k.pid 1,k.pid 2)) =
      some (some 1,.zombie,2,2,3) := by decide +kernel
  obtain ⟨k,hk,hout⟩ := Option.map_eq_some_iff.mp hrun
  simp only [Prod.mk.injEq] at hout
  obtain ⟨hself,hz,hpar,hpid,hchild⟩ := hout
  have hmatch : Matching k 1 (waitTarget (-1)) 2 :=
    ⟨by rw [hz]; decide,hpar.trans hpid.symm,Or.inl rfl⟩
  have hscanned : Scanned (k.pid 2) := by
    rw [hchild]
    decide
  exact ⟨k,hk,(waitpid_finds_iff none (w:=unmappedWorld k) hk hself (-1) (Or.inl rfl) false).mpr
    ⟨fun _ => ⟨2,hmatch,hz,hscanned⟩,fun _ => ⟨2,hmatch,hscanned⟩⟩⟩

end Reap
end DonsOs
