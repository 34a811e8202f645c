/-
# `Xv6.Kernel.Param` — the kernel's compile-time constants

`kernel/param.h`, the parts of `kernel/fs.h` that size on-disk structures
and the system call numbers of `kernel/syscall.h`, under their C names.  They are plain `Nat`s: every use in
the model is as a bound or a count, and `decide` and `omega` see through
them once unfolded.  The flags of `fcntl.h` and the inode types of
`stat.h` are values of the C types they are stored in, `int` and `short`.
-/
import Mathlib

namespace Xv6

/-! ## `param.h` -/

/-- Maximum number of processes. -/
def NPROC : Nat := 64
/-- Maximum number of CPUs. -/
def NCPU : Nat := 8
/-- Open files per process. -/
def NOFILE : Nat := 16
/-- Open files per system. -/
def NFILE : Nat := 100
/-- Maximum number of active i-nodes. -/
def NINODE : Nat := 50
/-- Maximum major device number. -/
def NDEV : Nat := 10
/-- Max exec arguments. -/
def MAXARG : Nat := 32
/-- Max number of blocks any file-system operation writes. -/
def MAXOPBLOCKS : Nat := 10
/-- Max data blocks in the on-disk log. -/
def LOGSIZE : Nat := MAXOPBLOCKS * 3
/-- Size of disk block cache. -/
def NBUF : Nat := MAXOPBLOCKS * 3
/-- Size of the file system in blocks. -/
def FSSIZE : Nat := 2000
/-- Maximum file path name. -/
def MAXPATH : Nat := 128

/-! ## `fs.h` -/

/-- Root i-number. -/
def ROOTINO : Nat := 1
/-- Block size in bytes. -/
def BSIZE : Nat := 1024
def NDIRECT : Nat := 12
/-- Block numbers in an indirect block: `BSIZE / sizeof(uint)`. -/
def NINDIRECT : Nat := BSIZE / 4
def MAXFILE : Nat := NDIRECT + NINDIRECT
/-- Length of a directory entry's name field. -/
def DIRSIZ : Nat := 14
/-- `sizeof(struct dirent)`: a `ushort` and `DIRSIZ` bytes. -/
def DIRENT_SIZE : Nat := 2 + DIRSIZ

attribute [grind] ROOTINO BSIZE DIRSIZ DIRENT_SIZE

/-! ## `fcntl.h` and `stat.h` -/

def O_RDONLY : Int32 := 0x000
def O_WRONLY : Int32 := 0x001
def O_RDWR : Int32 := 0x002
def O_CREATE : Int32 := 0x200
def O_TRUNC : Int32 := 0x400

/-- Directory. -/
def T_DIR : Int16 := 1
/-- File. -/
def T_FILE : Int16 := 2
/-- Device. -/
def T_DEVICE : Int16 := 3

attribute [grind] T_DIR

/-! ## `syscall.h` -/

def SYS_fork : Nat := 1
def SYS_exit : Nat := 2
def SYS_wait : Nat := 3
def SYS_pipe : Nat := 4
def SYS_read : Nat := 5
def SYS_kill : Nat := 6
def SYS_exec : Nat := 7
def SYS_fstat : Nat := 8
def SYS_chdir : Nat := 9
def SYS_dup : Nat := 10
def SYS_getpid : Nat := 11
def SYS_sbrk : Nat := 12
def SYS_sleep : Nat := 13
def SYS_uptime : Nat := 14
def SYS_open : Nat := 15
def SYS_write : Nat := 16
def SYS_mknod : Nat := 17
def SYS_unlink : Nat := 18
def SYS_link : Nat := 19
def SYS_mkdir : Nat := 20
def SYS_close : Nat := 21
def SYS_trace : Nat := 22
def SYS_sysinfo : Nat := 23

end Xv6
