import Myria.Lib.Runs
import Myria.Lib.ByteMem
import Myria.Lib.RadixForest
import Myria.Lib.BitField
import Myria.Lib.CyclicOrder
import Myria.Lib.Trace
import Myria.Lib.Uart
import Myria.Lib.LocalApic
import Myria.Lib.X86
import Myria.Lib.X86System
import Myria.Lib.X86Descriptor
import Myria.Lib.X86Frame
import Myria.Lib.X86Interleave
import Myria.Lib.X86Protect
import Myria.Lib.X86Decode
import Myria.Lib.Bitmap
import Myria.Lib.LinkedQueue
import Myria.Lib.Loop
import Myria.Lib.Text
import Myria.Types
import Myria.Mm.Pmm
import Myria.Mm.PmmOwnership
import Myria.Mm.PmmAccounting
import Myria.Mm.PmmCapacity
import Myria.Mm.PmmMisuse
import Myria.Mm.PmmBitmap
import Myria.Mm.BitmapAccounting
import Myria.Mm.BitmapLimits
import Myria.Mm.Heap
import Myria.Mm.PageEntry
import Myria.Mm.TableForest
import Myria.Mm.State
import Myria.Mm.Vmm
import Myria.Mm.VmmRange
import Myria.Mm.FrameEffect
import Myria.Mm.VmmFootprint
import Myria.Mm.UserLeaves
import Myria.Mm.UserProcess
import Myria.Mm.Translate
import Myria.Mm.Paging
import Myria.Mm.BssPermissions
import Myria.Mm.BssClear
import Myria.Mm.UserAs
import Myria.Mm.UserIsolation
import Myria.Mm.KernelHalf
import Myria.Mm.KernelGuard
import Myria.Mm.UserMapping
import Myria.Mm.WriteXorExecute
import Myria.Mm.TableWalk
import Myria.Mm.SetupFailure
import Myria.Mm.ProcessFailure
import Myria.Mm.ManualWalk
import Myria.Arch.SyscallEntry
import Myria.Arch.FaultStubs
import Myria.Arch.ContextSwitch
import Myria.Arch.Descriptors
import Myria.Arch.KmainTables
import Myria.Arch.TimerStub
import Myria.Arch.UserMode
import Myria.Sched.ThreadMinimal
import Myria.Sched.Lifecycle
import Myria.Sched.WorkConserving
import Myria.Sched.RoundRobin
import Myria.Sched.RunThreads
import Myria.Sched.ActiveCount
import Myria.Sched.Creation
import Myria.Sched.ReadyQueue
import Myria.Sched.ReadyFifo
import Myria.Sched.TimeSlice
import Myria.Sched.ThreadTable
import Myria.Sched.ReadyWait
import Myria.Sched.ReadyDeparted
import Myria.Sched.Multitask
import Myria.Syscall.Dispatch
import Myria.Syscall.KernelRuns
import Myria.Syscall.SharedHeap
import Myria.Syscall.UserCall
import Myria.Boot.UserProgram
import Myria.Boot.KernelOverwrite
import Myria.Boot.Heartbeat
import Myria.Util.Klog
import Myria.Util.KprintfFormat
import Myria.Util.KprintfEnd
import Myria.Util.Serial
import Myria.Util.Panic
