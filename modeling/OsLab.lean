import OsLab.Common.DeepWait
import OsLab.Common.Format
import OsLab.Common.FormatSpec
import OsLab.Common.Ipc
import OsLab.Common.IpcInv
import OsLab.Common.IpcRemove
import OsLab.Common.IpcRuns
import OsLab.Common.IpcSelect
import OsLab.Common.IpcTable
import OsLab.Common.Memmove
import OsLab.Common.Payload
import OsLab.Common.Queue
import OsLab.Common.RbErase
import OsLab.Common.RbForest
import OsLab.Common.RbInsert
import OsLab.Common.RbRepr
import OsLab.Common.RbTree
import OsLab.Common.RbUnlink
import OsLab.Common.Sem
import OsLab.Common.SemSys
import OsLab.Common.Spinlock
import OsLab.Driver.Sd
import OsLab.Fs.AcquireCalls
import OsLab.Fs.AcquireRace
import OsLab.Fs.AcquireSys
import OsLab.Fs.Bitmap
import OsLab.Fs.BitmapRuns
import OsLab.Fs.BlockDevice
import OsLab.Fs.BlockLock
import OsLab.Fs.Cache
import OsLab.Fs.CacheProg
import OsLab.Fs.CacheSize
import OsLab.Fs.CacheSpec
import OsLab.Fs.ClientProg
import OsLab.Fs.Commit
import OsLab.Fs.CrashSafety
import OsLab.Fs.Defines
import OsLab.Fs.Directory
import OsLab.Fs.Durability
import OsLab.Fs.FileSpec
import OsLab.Fs.FileSys
import OsLab.Fs.Files
import OsLab.Fs.FsCrash
import OsLab.Fs.HeaderStores
import OsLab.Fs.Inode
import OsLab.Fs.InodeAlloc
import OsLab.Fs.InodeGet
import OsLab.Fs.InodeProg
import OsLab.Fs.InodePut
import OsLab.Fs.InodeRefs
import OsLab.Fs.InodeSound
import OsLab.Fs.InodeSys
import OsLab.Fs.InodeTree
import OsLab.Fs.LogCache
import OsLab.Fs.LogCacheRuns
import OsLab.Fs.LogCacheSim
import OsLab.Fs.LogCacheSteps
import OsLab.Fs.LogProtocol
import OsLab.Fs.LogSys
import OsLab.Fs.OpRun
import OsLab.Fs.Ownership
import OsLab.Fs.PlainMap
import OsLab.Fs.ReadRange
import OsLab.Fs.Refinement
import OsLab.Fs.Reservation
import OsLab.Fs.Swap
import OsLab.Fs.SwapAccess
import OsLab.Fs.SwapMap
import OsLab.Fs.SwapRuns
import OsLab.Fs.Wakeup
import OsLab.Fs.WriteBudget
import OsLab.Kernel.Attach
import OsLab.Kernel.Context
import OsLab.Kernel.ContextInv
import OsLab.Kernel.ContextRuns
import OsLab.Kernel.ExitWait
import OsLab.Kernel.FreePgdir
import OsLab.Kernel.FreeSections
import OsLab.Kernel.FreeTables
import OsLab.Kernel.FreshPage
import OsLab.Kernel.Kill
import OsLab.Kernel.Lifecycle
import OsLab.Kernel.LocalPids
import OsLab.Kernel.Mmu
import OsLab.Kernel.PageAlloc
import OsLab.Kernel.PageMap
import OsLab.Kernel.PageQueue
import OsLab.Kernel.PageTable
import OsLab.Kernel.PageView
import OsLab.Kernel.Paging
import OsLab.Kernel.Pids
import OsLab.Kernel.Proc
import OsLab.Kernel.ProcTree
import OsLab.Kernel.Sbrk
import OsLab.Kernel.Sched
import OsLab.Kernel.SchedCharge
import OsLab.Kernel.SchedEffect
import OsLab.Kernel.SchedInv
import OsLab.Kernel.SchedPick
import OsLab.Kernel.SchedQueue
import OsLab.Kernel.SchedRun
import OsLab.Kernel.SchedShare
import OsLab.Kernel.SchedTime
import OsLab.Kernel.Slab
import OsLab.Kernel.SlabInv
import OsLab.Kernel.SlabPlaces
import OsLab.Kernel.SlabSpin
import OsLab.Kernel.Splice
import OsLab.Kernel.SwapFrame
import OsLab.Kernel.SwapInside
import OsLab.Kernel.SwapLoops
import OsLab.Kernel.SwapReclaim
import OsLab.Kernel.SwapSteps
import OsLab.Kernel.SwapTrip
import OsLab.Kernel.Swtch
import OsLab.Kernel.Tables
import OsLab.Kernel.Timer
import OsLab.Kernel.TimerRuns
import OsLab.Lib.Atomic
import OsLab.Lib.Bytes
import OsLab.Lib.Chain
import OsLab.Lib.Copies
import OsLab.Lib.Device
import OsLab.Lib.Linear
import OsLab.Lib.Prog
import OsLab.Lib.RedBlack
import OsLab.Lib.Ring
import OsLab.Lib.Run
import OsLab.Lib.Stack
import OsLab.Lib.Trace
import OsLab.Mkfs.Append
import OsLab.Mkfs.Build
import OsLab.Mkfs.Calls
import OsLab.Mkfs.Format
import OsLab.Mkfs.Image
import OsLab.Mkfs.Layout
import OsLab.Mkfs.Reads
import OsLab.Mkfs.SwapArea
import OsLab.Mkfs.Synced
