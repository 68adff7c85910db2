import MyOS2.Mm.Early.Proofs.Minimal
import MyOS2.Mm.Early.Proofs.FreeAll
import MyOS2.Mm.Early.Proofs.TrimMemory
import MyOS2.Mm.PageAlloc.Proofs.Coalescing
import MyOS2.Mm.PageAlloc.Proofs.Returned
import MyOS2.Mm.PageAlloc.Proofs.Bookkeeping
import MyOS2.Lib.Proofs.Ida
import MyOS2.Mm.VmMap.Proofs.Filemap
import MyOS2.Mm.Misc.Proofs.Percpu
import MyOS2.Mm.Fault.Proofs.Counting
import MyOS2.Mm.Fault.Proofs.ZeroFill
import MyOS2.Mm.Fault.Proofs.Isolation
import MyOS2.Mm.Kmalloc.Proofs.Kmalloc
import MyOS2.LockIPC.Proofs.Signal
import MyOS2.Sched.Proofs.ProcessTree
import MyOS2.Sched.Proofs.CopyProcess
import MyOS2.Sched.Proofs.VirtualTime
import MyOS2.Sched.Proofs.PidRequest
import MyOS2.Kactive.Proofs.Completion
import MyOS2.Kactive.Proofs.Workqueue
import MyOS2.Fs.Vfs.Proofs.Descriptors
import MyOS2.Fs.Vfs.Writev
import MyOS2.Fs.Vfs.Proofs.Lookup
import MyOS2.Fs.Vfs.Proofs.MountVisible
import MyOS2.Fs.Vfs.Proofs.Names
import MyOS2.Fs.Fat.Proofs.Table
import MyOS2.Fs.Fat.ClusterChain
import MyOS2.Mm.Fault.Proofs.Revoke
import MyOS2.Sched.Proofs.MmLifetime
import MyOS2.Sched.Proofs.ExecTables
import MyOS2.Mm.VmMap.Proofs.ExpandStack
import MyOS2.Mm.VmMap.Proofs.MergedOffsets
import MyOS2.Mm.VmMap.Proofs.DoMmap
import MyOS2.Arch.LockIPC.Proofs.SigRuns
import MyOS2.Arch.Mm.E820
import MyOS2.Arch.Myos.Keyboard
