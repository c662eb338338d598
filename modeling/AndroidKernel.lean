import AndroidKernel.Aed.Console
import AndroidKernel.Ashmem.Requests
import AndroidKernel.Ashmem.Runs
import AndroidKernel.Binder.CallStacks
import AndroidKernel.Binder.Descriptors
import AndroidKernel.Bootmem.Release
import AndroidKernel.Bootmem.Runs
import AndroidKernel.Buddy.Runs
import AndroidKernel.BusHw.Plls
import AndroidKernel.BusHw.Rails
import AndroidKernel.EarlySuspend.Passes
import AndroidKernel.EarlySuspend.Waiting
import AndroidKernel.Idr.Unallocated
import AndroidKernel.Ipanic.ReadBack
import AndroidKernel.Kfifo.Queue
import AndroidKernel.Locks.Range
import AndroidKernel.Logger.Warnings
import AndroidKernel.Mmap.Unmapped
import AndroidKernel.Nand.Store
import AndroidKernel.Pmem.AllocRuns
import AndroidKernel.Resources.Runs
import AndroidKernel.UserWakeLock.Keyed
import AndroidKernel.VmaTree.Runs
import AndroidKernel.Vsprintf.Decimal
import AndroidKernel.WakeLocks.Runs
import AndroidKernel.Yaffs.Tags
