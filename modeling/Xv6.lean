import Xv6.Lib.Bytes
import Xv6.Lib.Crash
import Xv6.Lib.Writes
import Xv6.Lib.Machine
import Xv6.Kernel.Param
import Xv6.Kernel.Log
import Xv6.Kernel.Cache
import Xv6.Kernel.LogSys
import Xv6.Proofs.Log.Header
import Xv6.Proofs.Log.CrashAtomic
import Xv6.Proofs.LogSys.Steps
import Xv6.Proofs.LogSys.Protocol
import Xv6.Proofs.Cache.Coherent
import Xv6.Proofs.LogSys.Refine
import Xv6.Proofs.LogSys.FlatStore
import Xv6.Proofs.LogSys.Budget
import Xv6.Proofs.LogSys.Reservation
import Xv6.Kernel.Fs
import Xv6.Proofs.Fs.Refs
import Xv6.Lib.Owner
import Xv6.Proofs.Fs.Layout
import Xv6.Proofs.Fs.Owned
import Xv6.Proofs.Fs.View
import Xv6.Proofs.Fs.Blocks
import Xv6.Proofs.Fs.Contents
import Xv6.Proofs.Fs.Inodes
import Xv6.Proofs.Fs.Directories
import Xv6.Kernel.Mkfs
import Xv6.Proofs.Fs.Image
import Xv6.Proofs.Fs.Ownership
import Xv6.Proofs.Fs.Coherence
import Xv6.Proofs.Fs.Append
import Xv6.Proofs.Fs.Mkfs
import Xv6.Proofs.Fs.WellFormed
import Xv6.Proofs.Fs.Roundtrip
import Xv6.Kernel.Kalloc
import Xv6.Proofs.Mem.Freelist
import Xv6.Kernel.Vm
import Xv6.Kernel.File
import Xv6.Kernel.Proc
import Xv6.Kernel.Sysfile
import Xv6.Proofs.Sys.Panics
import Xv6.Proofs.Sys.DescriptorRuns
import Xv6.Proofs.Sys.Release
import Xv6.Kernel.Sched
import Xv6.Proofs.Sched.Control
import Xv6.Proofs.Sched.Placement
import Xv6.Proofs.Sched.Dispatch
import Xv6.Proofs.Sched.Steps
import Xv6.Proofs.Sched.Wakeup
import Xv6.Proofs.Sched.Reap
import Xv6.Kernel.Fileio
import Xv6.Proofs.Sys.Fileio
import Xv6.Lib.Radix
import Xv6.Proofs.Mem.Table
import Xv6.Proofs.Mem.Space
import Xv6.Proofs.Mem.Grow
import Xv6.Proofs.Sys.Growproc
import Xv6.Kernel.Exec
import Xv6.Proofs.Mem.User
import Xv6.Proofs.Sys.ExecArgs
import Xv6.Proofs.Mem.Teardown
import Xv6.Proofs.Mem.Copy
import Xv6.Proofs.Sys.Fork
import Xv6.Proofs.Fs.Footprint
import Xv6.Proofs.Mem.Copyout
import Xv6.Proofs.Mem.Buffer
import Xv6.Proofs.Mem.Cstring
import Xv6.Proofs.Mem.Clone
import Xv6.Proofs.Mem.Lifetime
import Xv6.Proofs.Fs.ByteFiles
import Xv6.Proofs.Sys.Kill
import Xv6.Proofs.Sys.NewFds
import Xv6.Proofs.Fs.OutOfBlocks
import Xv6.Proofs.Fs.CutShort
import Xv6.Kernel.Spinlock
import Xv6.Proofs.Mem.Memmove
import Xv6.Proofs.Sched.Nesting
import Xv6.Kernel.Printf
import Xv6.Proofs.Dev.Printf
import Xv6.Kernel.Pipe
import Xv6.Proofs.Dev.Pipe
import Xv6.Kernel.Uart
import Xv6.Proofs.Dev.Uart
import Xv6.Kernel.Console
import Xv6.Proofs.Dev.Console
import Xv6.Kernel.Bio
import Xv6.Proofs.Cache.Lru
import Xv6.Kernel.Bitmap
import Xv6.Proofs.Fs.Bitmap
import Xv6.Proofs.Fs.Mapped
import Xv6.Proofs.LogSys.CrashSafe
