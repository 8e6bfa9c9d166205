import AndroidKernel.Power.ExpireTimer
import AndroidKernel.Power.EarlySuspend
import AndroidKernel.Power.UserWakelock
import AndroidKernel.Logger.Writers
import AndroidKernel.Logger.Console
import AndroidKernel.Logger.RamConsole
import AndroidKernel.Binder.DeathRuns
import AndroidKernel.Rtc.SuspendCycle
import AndroidKernel.Rtc.SetRtc
import AndroidKernel.Sipc.RoundTrip
import AndroidKernel.Sipc.Receiving
import AndroidKernel.CpuFreq.TargetIndex
import AndroidKernel.CpuFreq.Floor
import AndroidKernel.CpuFreq.Interleaving
import AndroidKernel.CpuFreq.Voltage
import AndroidKernel.CpuFreq.Notices
import AndroidKernel.Pmem.Tiling
import AndroidKernel.Pmem.Bounds
import AndroidKernel.Pmem.Ownership
import AndroidKernel.Timer.NextInterrupt
import AndroidKernel.Resource.Runs
import AndroidKernel.Resource.Allocation
import AndroidKernel.PageAlloc.Runs
import AndroidKernel.PageAlloc.LowMemory
import AndroidKernel.Mmap.Runs
import AndroidKernel.Mmap.Unmapped
import AndroidKernel.Ashmem.Reclaim
import AndroidKernel.Locks.Deadlock
import AndroidKernel.CpuFreq.Tables
import AndroidKernel.CpuFreq.Interactive
import AndroidKernel.CpuFreq.MemoryTiming
import AndroidKernel.KernelLib.RadixTree
import AndroidKernel.KernelLib.Strtoul
import AndroidKernel.KernelLib.Bitmap
import AndroidKernel.KernelLib.Div64
import AndroidKernel.KernelLib.Rwsem
import AndroidKernel.KernelLib.Kfifo
