import DonsOs.Lib.Tiling
import DonsOs.Lib.Run
import DonsOs.Lib.Interleave
import DonsOs.Lib.LinkedQueue
import DonsOs.Lib.Stack
import DonsOs.Lib.Refine
import DonsOs.Lib.Terminal
import DonsOs.Lib.Log
import DonsOs.Lib.Words
import DonsOs.Heap.Model
import DonsOs.Heap.Layout
import DonsOs.Heap.Ops
import DonsOs.Heap.Validate
import DonsOs.Heap.Calls
import DonsOs.Heap.Client
import DonsOs.Heap.Preempt
import DonsOs.Sched.Model
import DonsOs.Sched.Queue
import DonsOs.Sched.Fifo
import DonsOs.Sched.IdleLast
import DonsOs.Sched.Integrity
import DonsOs.Sched.Dispatch
import DonsOs.Sched.Ledger
import DonsOs.Sched.Orphans
import DonsOs.Sched.Halt
import DonsOs.Sched.Lockstep
import DonsOs.Sched.Books
import DonsOs.Sched.Waitpid
import DonsOs.Sched.Mild
import DonsOs.Sched.Pids
import DonsOs.Sched.Preempt
import DonsOs.Syscall.Descriptors
import DonsOs.Syscall.Entry
import DonsOs.Syscall.Exec
import DonsOs.Syscall.ChildMemory
import DonsOs.Syscall.Residue
import DonsOs.Syscall.Fidelity
import DonsOs.Syscall.Argv
import DonsOs.Syscall.FileReads
import DonsOs.Syscall.Console
import DonsOs.Syscall.Files
import DonsOs.Cpu.Switch
import DonsOs.Cpu.Transparent
import DonsOs.Cpu.Context
import DonsOs.Cpu.EntryPoint
import DonsOs.Cpu.Asm
import DonsOs.Lib.Paging
import DonsOs.Memory.Model
import DonsOs.Memory.Mapping
import DonsOs.Memory.Init
import DonsOs.Memory.Frames
import DonsOs.Memory.UserCopy
import DonsOs.Memory.Tree
import DonsOs.Memory.Clone
import DonsOs.Memory.Independent
import DonsOs.Memory.BootTables
import DonsOs.Memory.Supply
import DonsOs.Memory.Space
import DonsOs.Memory.Process
import DonsOs.Memory.Arranged
import DonsOs.Memory.Upkeep
import DonsOs.Memory.Conserve
import DonsOs.Syscall.Reap
import DonsOs.Drivers.Ata
import DonsOs.Drivers.Keyboard
import DonsOs.Drivers.KeyQueue
import DonsOs.Drivers.Vga
import DonsOs.Drivers.VgaTerminal
import DonsOs.Drivers.VgaHex
import DonsOs.Sched.KeyWait
import DonsOs.Process.Create
import DonsOs.Process.PageList
import DonsOs.Memory.Accounts
import DonsOs.Heap.Sizes
import DonsOs.Memory.Local
import DonsOs.Memory.Region
import DonsOs.Memory.Sbrk
import DonsOs.Sched.Loaded
import DonsOs.Heap.Accounting
import DonsOs.Memory.Break
import DonsOs.Syscall.Paths
import DonsOs.Memory.CopyExact
import DonsOs.Drivers.Sectors
import DonsOs.Drivers.Volume
import DonsOs.Syscall.RoundTrip
import DonsOs.Heap.Backed
import DonsOs.Heap.Mapped
import DonsOs.Userland.Shell
