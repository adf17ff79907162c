import DonsOs.Lib.Interleave
import DonsOs.Sched.Model

/-! Processes under the timer.
The running process is `current_process` of `process.c` and a tick is one call of
`timer_preempt_handler`, which is told the mode it interrupts. -/
namespace DonsOs
namespace Sched

open Interleave

variable {σ γ ε : Type}

/-- Processes with states in `σ` that share a state in `γ`.  `masked` says where interrupts
are off and `inKernel` where the process executes kernel code, which a tick sees in the
saved `cs`. -/
def preemptive (masked inKernel : σ → Bool) (exec : Slot → σ → γ → ε → Option (σ × γ)) :
    Program Kernel Slot σ γ Bool ε where
  current k := k.procCurrent
  tick := timerPreemptHandler
  interruptible s userMode := !masked s && !(inKernel s && userMode)
  exec := exec

/-- The state after `process_init` has run and two user processes have been created: a
tick has taken the processor from idle and given it to the first of them. -/
def twoProcesses : Kernel :=
  timerPreemptHandler (processCreate (processCreate (boot none) userCodeBase .ok).2
    userCodeBase .ok).2 false

end Sched
end DonsOs
