import OsLab.Fs.InodeReaders
import OsLab.Fs.CacheRefinement
import OsLab.Fs.EndOp
import OsLab.Fs.CacheCoherence
import OsLab.Fs.LogBudget
import OsLab.Fs.LogWaiters
import OsLab.Fs.Directory
import OsLab.Kernel.Sched
import OsLab.Kernel.ChildExit
import OsLab.Kernel.FileWrite
import OsLab.Fs.Pipe
import OsLab.Fs.PipeThreads
import OsLab.Common.Ipc
import OsLab.Common.IpcQueue
import OsLab.Kernel.Kill
import OsLab.Kernel.PageTable
import OsLab.Kernel.Kalloc
import OsLab.Driver.Sd
import OsLab.Kernel.Paging
import OsLab.Driver.SdHandOver
import OsLab.Fs.KillWaits
import OsLab.Kernel.Kstack
import OsLab.Kernel.ProcRings
import OsLab.Common.IpcIds
import OsLab.Kernel.Treelock
import OsLab.Kernel.Console
import OsLab.Fs.SleepPoints
import OsLab.Kernel.Create
import OsLab.Kernel.DirTree
import OsLab.Common.MsgCopy
import OsLab.Common.MsgSearch
import OsLab.Common.MsgLookup
import OsLab.Common.PipelineSend
import OsLab.Kernel.Sbrk
import OsLab.Fs.InodePut
import OsLab.Fs.InodeRefs
import OsLab.Fs.DirIndex
import OsLab.Fs.CacheSize
import OsLab.Kernel.PagePool
import OsLab.Kernel.KallocSizes
import OsLab.Kernel.FreePgdir
import OsLab.Kernel.OutOfPages
import OsLab.Kernel.FileOffset
import OsLab.Common.Rbtree
import OsLab.Kernel.CpuTimers
import OsLab.Common.Memmove
import OsLab.Common.List
import OsLab.Common.Queue
import OsLab.Fs.Skipelem
import OsLab.Kernel.ConsoleErase
import OsLab.Driver.SdLock
import OsLab.Kernel.Pids
import OsLab.Kernel.KillSearch
import OsLab.Common.LockFree
import OsLab.User.ShellGrammar
import OsLab.User.ShellParser
import OsLab.User.ShellSound
import OsLab.User.ShellComplete
import OsLab.Common.Format
import OsLab.Lib.Footprint
import OsLab.Lib.RedBlack
import OsLab.Common.RbtreeShape
import OsLab.Common.RbtreeInsert
import OsLab.Common.RbtreeErase
import OsLab.Common.RbtreeRun
import OsLab.Lib.Discipline
import OsLab.Fs.FsPrograms
import OsLab.Fs.PlainCache
import OsLab.Fs.CachedFs
import OsLab.Fs.Mount
import OsLab.Common.RbtreeDepth
import OsLab.Kernel.TimerQueue
import OsLab.Lib.Processes
import OsLab.Lib.ProcessRules
import OsLab.User.RunCmd
import OsLab.User.ShellMain
import OsLab.Fs.FirstFit
import OsLab.User.Mkfs
import OsLab.User.MkfsAppend
import OsLab.User.MkfsImage
import OsLab.User.MkfsMain
import OsLab.User.MkfsRead
