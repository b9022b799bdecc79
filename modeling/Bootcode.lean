import Bootcode.Awake
import Bootcode.Tickets
import Bootcode.Kicks
import Bootcode.FreeCount
import Bootcode.Holders
import Bootcode.Interrupt
import Bootcode.FillIdt
import Bootcode.RunCount
import Bootcode.Cond
import Bootcode.OutEdges
import Bootcode.WorkSet
import Bootcode.Barrier
import Bootcode.Wakeup
import Bootcode.Bytes
import Bootcode.InitBoot
import Bootcode.Descriptors
import Bootcode.BootBarrier
import Bootcode.Linear
import Bootcode.Stack
import Bootcode.Private
import Bootcode.Syscall
import Bootcode.SyscallContext
import Bootcode.Apic
import Bootcode.Ipi
import Bootcode.Mm
import Bootcode.Snapshot
import Bootcode.Idt
import Bootcode.Identity
import Bootcode.Printf
import Bootcode.PrintfText
import Bootcode.PrintfFormat
import Bootcode.PrintfInteger
import Bootcode.Accounts
import Bootcode.Executor
import Bootcode.Refinement
import Bootcode.UserContext
import Bootcode.Console
import Bootcode.Libc
import Bootcode.Report
import Bootcode.Paging
import Bootcode.Rings
import Bootcode.FuncTimes
import Bootcode.EpochBound
