import Xv6.Param
import Xv6.Lib.Writes
import Xv6.Lib.Machine
import Xv6.Lib.Post
import Xv6.Lib.Memory
import Xv6.Log.Disk
import Xv6.Log.Crash
import Xv6.Log.Transaction
import Xv6.Log.GroupCommit
import Xv6.Vm.Riscv
import Xv6.Vm.Walk
import Xv6.Lib.Dll
import Xv6.Bio.Cache
import Xv6.Bio.Coherence
import Xv6.Bio.Frame
import Xv6.Log.Buffered
import Xv6.Log.Pinning
import Xv6.Fs.Inode
import Xv6.Fs.Dir
import Xv6.Fs.Syscall
import Xv6.Fs.Mkfs
import Xv6.Fs.Fsck
import Xv6.Fs.Lookup
import Xv6.Proc.Table
import Xv6.Proc.Kill
import Xv6.Lib.Forest
import Xv6.Proc.Tree
import Xv6.Proc.Init
import Xv6.Fs.Itable
import Xv6.Lib.Ring
import Xv6.Lib.Fifo
import Xv6.Pipe.Pipe
import Xv6.Pipe.Fifo
import Xv6.Fs.DirMap
import Xv6.Fs.DirLink
import Xv6.Fs.Grow
import Xv6.Fs.Held
import Xv6.Fs.LinkCount
import Xv6.Lib.Patch
import Xv6.Console.Cons
import Xv6.Console.Line
import Xv6.Console.Uart
import Xv6.Vm.Copyin
import Xv6.Proc.Sched
import Xv6.Exec.Stack
import Xv6.Fs.Data
import Xv6.Fs.Contents
import Xv6.Fs.File
import Xv6.Lib.Regex
import Xv6.User.Grep
import Xv6.User.Umalloc
import Xv6.User.Printf
import Xv6.Lib.Runs
import Xv6.Fs.Path
import Xv6.Lib.Chain
import Xv6.Vm.Kalloc
import Xv6.Virtio.Disk
import Xv6.Virtio.Chains
import Xv6.Lib.Circular
import Xv6.User.Freelist
import Xv6.Vm.Map
import Xv6.Libc.Memmove
import Xv6.Lock.Spinlock
import Xv6.Lock.Sleeplock
import Xv6.Fs.Refs
