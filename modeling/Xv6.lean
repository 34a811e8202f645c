import Xv6.Lib.Run
import Xv6.Lib.Writes
import Xv6.Lib.StateExcept
import Xv6.Lib.Ring
import Xv6.Lib.DList
import Xv6.Lib.Pattern
import Xv6.Lib.Format
import Xv6.Kernel.Param
import Xv6.Kernel.Proc
import Xv6.Kernel.Syscall
import Xv6.Kernel.Trace
import Xv6.Kernel.Kill
import Xv6.Fs.Disk
import Xv6.Fs.Log
import Xv6.Fs.LogCrash
import Xv6.Fs.LogAdmission
import Xv6.Fs.Dir
import Xv6.Fs.State
import Xv6.Fs.Inode
import Xv6.Fs.Table
import Xv6.Fs.Namei
import Xv6.Fs.Sysfile
import Xv6.Fs.SysfileInv
import Xv6.Fs.Mkfs
import Xv6.Fs.Links
import Xv6.Fs.Blocks
import Xv6.Fs.Refs
import Xv6.Fs.Layout
import Xv6.Fs.LayoutCalls
import Xv6.Fs.LayoutRun
import Xv6.Kernel.Tree
import Xv6.Kernel.Pid
import Xv6.Kernel.Sched
import Xv6.Kernel.Pipe
import Xv6.Kernel.Console
import Xv6.Kernel.ConsoleLine
import Xv6.Fs.Bio
import Xv6.Fs.LogPin
import Xv6.Kernel.String
import Xv6.Fs.Path
import Xv6.Kernel.Printf
import Xv6.Kernel.Spinlock
import Xv6.Kernel.Uart
import Xv6.Kernel.Virtio
import Xv6.Kernel.VirtioRun
import Xv6.Lib.ByteMem
import Xv6.Lib.Threaded
import Xv6.Lib.Pool
import Xv6.Kernel.Kalloc
import Xv6.Kernel.KallocRun
import Xv6.Kernel.Vm
import Xv6.Kernel.VmCopy
import Xv6.Kernel.PageTable
import Xv6.Kernel.Uvm
import Xv6.Kernel.UvmSpec
import Xv6.User.Ulib
import Xv6.User.Printf
import Xv6.User.Grep
import Xv6.User.Sh
import Xv6.User.ShGrammar
import Xv6.User.ShParse
