/-
# `Xv6.Fs.Sysfile` — the file-system system calls and the machine they drive

`file.c` (`filealloc`, `filedup`, `fileclose`), `sysfile.c` (`fdalloc`,
`create`, `sys_open`, `sys_close`, `sys_mkdir`, `sys_mknod`, `sys_link`,
`sys_unlink`, `sys_chdir`), the file-system part of `exec` in `exec.c`
(`sys_exec`, `exec`, `loadseg`), and that of `fork` and `exit` in
`proc.c`.  The `goto bad` and `goto fail` paths of the source are
functions of their own (`sys_link_bad`, `create_fail`).  What `exec` asks
of memory (page tables, `uvmalloc`, the user stack) is an argument of the
call (`ExecMem`), as is the number of arguments `sys_exec` fetched.

A string argument is the bytes the user's string holds before its NUL;
`argstr` fails when they do not fit in `MAXPATH` bytes with the NUL.

**The machine.**  A state is an `Fs`; a process takes part while it has
a current directory (`userinit` gave one to the first process, `fork`
gives one to each child, `exit` takes it away).  A step is one system
call of one such process, run to its end; a call that panics has no
successor.
-/
import Xv6.Fs.Namei
import Xv6.Kernel.Proc
import Xv6.Lib.Run

namespace Xv6

instance : NeZero NINODE := ⟨by decide⟩

/-! ## `file.c` -/

/-- `filealloc()`: the first entry of the file table with no references. -/
def filealloc : FsM (Option (Fin NFILE)) := do
  let s ← get
  match (List.finRange NFILE).find? (fun f => (s.file f).ref = 0) with
  | some f =>
      set (s.modifyFile f fun x => { x with ref := 1 })
      return some f
  | none => return none

/-- `filedup(f)`. -/
def filedup (f : Fin NFILE) : FsM (Fin NFILE) := do
  if ((← get).file f).ref < 1 then throw "filedup"
  modify (·.modifyFile f fun x => { x with ref := x.ref + 1 })
  return f

/-- `fileclose(f)`: the last reference releases the inode. -/
def fileclose (f : Fin NFILE) : FsM Unit := do
  let ff := (← get).file f
  if ff.ref < 1 then throw "fileclose"
  modify (·.modifyFile f fun x => { x with ref := x.ref - 1 })
  if ff.ref - 1 > 0 then return
  modify (·.modifyFile f fun x => { x with ref := 0, type := .FD_NONE })
  match ff.type, ff.ip with
  | .FD_INODE, some ip => iput ip
  | .FD_DEVICE, some ip => iput ip
  | _, _ => return

/-! ## `sysfile.c` -/

/-- `fdalloc(f)` for process `p`: the lowest free descriptor. -/
def fdalloc (p : Fin NPROC) (f : Fin NFILE) : FsM (Option (Fin NOFILE)) := do
  let s ← get
  match (List.finRange NOFILE).find? (fun fd => s.ofile p fd = none) with
  | some fd =>
      set { s with ofile := Function.update s.ofile p (Function.update (s.ofile p) fd (some f)) }
      return some fd
  | none => return none

/-- `argstr`: the string fits in a `MAXPATH` buffer with its NUL. -/
def argstrOk (path : List UInt8) : Bool :=
  path.length < MAXPATH

/-- The `fail:` path of `create`: the new inode is given up. -/
def create_fail (ip dp : Fin NINODE) : FsM (Option (Fin NINODE)) := do
  modify (·.modifyInode ip fun e => { e with d := { e.d with nlink := 0 } })
  iupdate ip
  iunlockput ip
  iunlockput dp
  return none

/-- `create(path, type, major, minor)`: the inode named `path`, locked and
referenced, made if it does not exist. -/
def create (cwd : Fin NINODE) (path : List UInt8) (type major minor : Int16) :
    FsM (Option (Fin NINODE)) := do
  let some (dp, name) ← nameiparent cwd path | return none
  ilock dp
  match ← dirlookup dp name with
  | some (ip, _) =>
      iunlockput dp
      ilock ip
      let t := ((← get).inode ip).d.type
      if type = T_FILE ∧ (t = T_FILE ∨ t = T_DEVICE) then return some ip
      iunlockput ip
      return none
  | none =>
      let some ip ← ialloc type | do iunlockput dp; return none
      ilock ip
      modify (·.modifyInode ip fun e => { e with d := { e.d with major := major, minor := minor, nlink := 1 } })
      iupdate ip
      if type = T_DIR then
        -- create . and .. entries; no ip->nlink++ for ".": avoid cyclic ref count
        if (← dirlink ip DOT ((← get).inode ip).inum) < 0 then return ← create_fail ip dp
        if (← dirlink ip DOTDOT ((← get).inode dp).inum) < 0 then return ← create_fail ip dp
      if (← dirlink dp name ((← get).inode ip).inum) < 0 then return ← create_fail ip dp
      if type = T_DIR then
        -- now that success is guaranteed: dp's nlink counts the new ".."
        modify (·.modifyInode dp fun e => { e with d := { e.d with nlink := e.d.nlink + 1 } })
        iupdate dp
      iunlockput dp
      return some ip

/-- The inode `sys_open` opens, locked, or `none` after it gave up. -/
def open_inode (cwd : Fin NINODE) (path : List UInt8) (omode : Int32) : FsM (Option (Fin NINODE)) := do
  if omode &&& O_CREATE ≠ 0 then
    create cwd path T_FILE 0 0
  else
    let some ip ← namei cwd path | return none
    ilock ip
    if ((← get).inode ip).d.type = T_DIR ∧ omode ≠ O_RDONLY then
      iunlockput ip
      return none
    return some ip

/-- `sys_open(path, omode)` by process `p`. -/
def sys_open (p : Fin NPROC) (cwd : Fin NINODE) (path : List UInt8) (omode : Int32) : FsM Int := do
  if argstrOk path = false then return -1
  let some ip ← open_inode cwd path omode | return -1
  let d := ((← get).inode ip).d
  if d.type = T_DEVICE ∧ (d.major.toInt < 0 ∨ NDEV ≤ d.major.toInt) then
    iunlockput ip
    return -1
  let some f ← filealloc | do iunlockput ip; return -1
  let some fd ← fdalloc p f | do fileclose f; iunlockput ip; return -1
  let d := ((← get).inode ip).d
  if d.type = T_DEVICE then
    modify (·.modifyFile f fun x => { x with type := .FD_DEVICE, major := d.major })
  else
    modify (·.modifyFile f fun x => { x with type := .FD_INODE, off := 0 })
  modify (·.modifyFile f fun x => { x with
    ip := some ip,
    readable := omode &&& O_WRONLY = 0,
    writable := omode &&& O_WRONLY ≠ 0 ∨ omode &&& O_RDWR ≠ 0 })
  if omode &&& O_TRUNC ≠ 0 ∧ ((← get).inode ip).d.type = T_FILE then itrunc ip
  iunlock ip
  return fd.val

/-- `sys_close(fd)` by process `p`. -/
def sys_close (p : Fin NPROC) (fd : Int32) : FsM Int := do
  if h : 0 ≤ fd.toInt ∧ fd.toInt < NOFILE then
    let i : Fin NOFILE := ⟨fd.toInt.toNat, by omega⟩
    let some f := (← get).ofile p i | return -1
    modify fun s => { s with ofile := Function.update s.ofile p (Function.update (s.ofile p) i none) }
    fileclose f
    return 0
  else return -1

/-- `sys_mkdir(path)`. -/
def sys_mkdir (cwd : Fin NINODE) (path : List UInt8) : FsM Int := do
  if argstrOk path = false then return -1
  let some ip ← create cwd path T_DIR 0 0 | return -1
  iunlockput ip
  return 0

/-- `sys_mknod(path, major, minor)`: the `int` arguments are passed to
`create` as `short`s. -/
def sys_mknod (cwd : Fin NINODE) (path : List UInt8) (major minor : Int32) : FsM Int := do
  if argstrOk path = false then return -1
  let some ip ← create cwd path T_DEVICE major.toInt16 minor.toInt16 | return -1
  iunlockput ip
  return 0

/-- The `bad:` path of `sys_link`: the link count taken is given back. -/
def sys_link_bad (ip : Fin NINODE) : FsM Int := do
  ilock ip
  modify (·.modifyInode ip fun e => { e with d := { e.d with nlink := e.d.nlink - 1 } })
  iupdate ip
  iunlockput ip
  return -1

/-- `sys_link(old, new)`. -/
def sys_link (cwd : Fin NINODE) (old new : List UInt8) : FsM Int := do
  if argstrOk old = false ∨ argstrOk new = false then return -1
  let some ip ← namei cwd old | return -1
  ilock ip
  if ((← get).inode ip).d.type = T_DIR then
    iunlockput ip
    return -1
  modify (·.modifyInode ip fun e => { e with d := { e.d with nlink := e.d.nlink + 1 } })
  iupdate ip
  iunlock ip
  let some (dp, name) ← nameiparent cwd new | sys_link_bad ip
  ilock dp
  -- one disk: `dp->dev != ip->dev` is false
  if (← dirlink dp name ((← get).inode ip).inum) < 0 then
    iunlockput dp
    return ← sys_link_bad ip
  iunlockput dp
  iput ip
  return 0

/-- `sys_unlink(path)`. -/
def sys_unlink (cwd : Fin NINODE) (path : List UInt8) : FsM Int := do
  if argstrOk path = false then return -1
  let some (dp, name) ← nameiparent cwd path | return -1
  ilock dp
  -- cannot unlink "." or ".."
  if namecmp name DOT = 0 ∨ namecmp name DOTDOT = 0 then
    iunlockput dp
    return -1
  let some (ip, off) ← dirlookup dp name | do iunlockput dp; return -1
  ilock ip
  if ((← get).inode ip).d.nlink < 1 then throw "unlink: nlink < 1"
  if ((← get).inode ip).d.type = T_DIR then
    if (← isdirempty ip) = false then
      iunlockput ip
      iunlockput dp
      return -1
  if (← writei dp Dirent.zero.encode off DIRENT_SIZE) ≠ DIRENT_SIZE then throw "unlink: writei"
  if ((← get).inode ip).d.type = T_DIR then
    modify (·.modifyInode dp fun e => { e with d := { e.d with nlink := e.d.nlink - 1 } })
    iupdate dp
  iunlockput dp
  modify (·.modifyInode ip fun e => { e with d := { e.d with nlink := e.d.nlink - 1 } })
  iupdate ip
  iunlockput ip
  return 0

/-- `sys_chdir(path)` by process `p`. -/
def sys_chdir (p : Fin NPROC) (cwd : Fin NINODE) (path : List UInt8) : FsM Int := do
  if argstrOk path = false then return -1
  let some ip ← namei cwd path | return -1
  ilock ip
  if ((← get).inode ip).d.type ≠ T_DIR then
    iunlockput ip
    return -1
  iunlock ip
  iput cwd
  modify fun s => { s with cwd := Function.update s.cwd p (some ip) }
  return 0

/-! ## `exec`, its file-system part -/

/-- `sizeof(struct elfhdr)` -/
def ELFHDR_SIZE : Nat := 64

/-- `sizeof(struct proghdr)` -/
def PROGHDR_SIZE : Nat := 56

/-- `ELF_MAGIC`, the bytes `0x7F`, `E`, `L`, `F` read little-endian -/
def ELF_MAGIC : Nat := 0x464C457F

/-- `ELF_PROG_LOAD` -/
def ELF_PROG_LOAD : Nat := 1

/-- The field of `w` bytes at offset `off` of a header that `readi` copied
out, read little-endian. -/
def hdrField (hdr : List UInt8) (off w : Nat) : Nat :=
  ((List.range w).map fun i => (hdr.getD (off + i) 0).toNat * 256 ^ i).sum

/-- What the memory side of `exec` decides, which no inode sees: whether
`proc_pagetable` succeeds, how many of the segments' `uvmalloc` calls
succeed before one fails, and whether the stack and the arguments are then
set up (`uvmalloc`, `copyout`). -/
structure ExecMem where
  pagetable : Bool
  uvmallocs : Nat
  stack : Bool
  deriving DecidableEq, Repr

/-- The loop of `loadseg(pagetable, va, ip, offset, sz)` from byte `i` of
the segment on, one page (`PGSIZE`, 4096 bytes) at a time: `false` (`-1`)
when `readi` comes up short.  `walkaddr` finds every page, which `uvmalloc`
has just mapped. -/
def loadsegLoop (ip : Fin NINODE) (offset sz : Nat) : (fuel i : Nat) → FsM Bool
  | 0, _ => return true
  | fuel + 1, i => do
      if i < sz then
        let n := if sz - i < 4096 then sz - i else 4096
        let (r, _) ← readi ip ((offset + i) % 2 ^ 32) n
        if r ≠ n then return false
        loadsegLoop ip offset sz fuel (i + 4096)
      else return true

/-- `loadseg`, whose `offset` and `sz` are `uint`s. -/
def loadseg (ip : Fin NINODE) (offset sz : Nat) : FsM Bool :=
  loadsegLoop ip (offset % 2 ^ 32) (sz % 2 ^ 32) (sz % 2 ^ 32 / 4096 + 1) 0

/-- The program-header loop of `exec`: header `i` read at `off` (an `int`
handed to `readi` as a `uint`), a loadable segment checked, mapped by the
`k`-th `uvmalloc` and read in; `false` at the first `goto bad`. -/
def execLoop (ip : Fin NINODE) (mem : ExecMem) (phnum : Nat) : (fuel i off k : Nat) → FsM Bool
  | 0, _, _, _ => return true
  | fuel + 1, i, off, k => do
      if i < phnum then
        let (r, ph) ← readi ip off PROGHDR_SIZE
        if r ≠ PROGHDR_SIZE then return false
        if hdrField ph 0 4 ≠ ELF_PROG_LOAD then
          execLoop ip mem phnum fuel (i + 1) ((off + PROGHDR_SIZE) % 2 ^ 32) k
        else
          let vaddr := hdrField ph 16 8
          let memsz := hdrField ph 40 8
          if memsz < hdrField ph 32 8 then return false
          if (vaddr + memsz) % 2 ^ 64 < vaddr then return false
          if vaddr % 4096 ≠ 0 then return false
          if mem.uvmallocs ≤ k then return false
          if (← loadseg ip (hdrField ph 8 8) (hdrField ph 32 8)) = false then return false
          execLoop ip mem phnum fuel (i + 1) ((off + PROGHDR_SIZE) % 2 ^ 32) (k + 1)
      else return true

/-- `exec(path, argv)`, its file-system part: `namei`, `ilock`, the ELF
header, the program headers and the segments read through `readi`, and one
`iunlockput(ip)` on every way out: at `bad` while the image is read, or
before the stack is built, after which `ip` is `0` and `bad` frees memory
only.  `argc` is what a successful `exec` returns. -/
def exec (cwd : Fin NINODE) (path : List UInt8) (argc : Nat) (mem : ExecMem) : FsM Int := do
  let some ip ← namei cwd path | return -1
  ilock ip
  let (r, elf) ← readi ip 0 ELFHDR_SIZE
  if r ≠ ELFHDR_SIZE ∨ hdrField elf 0 4 ≠ ELF_MAGIC ∨ mem.pagetable = false then
    iunlockput ip
    return -1
  let phnum := hdrField elf 56 2
  let loaded ← execLoop ip mem phnum phnum 0 (hdrField elf 32 8 % 2 ^ 32) 0
  iunlockput ip
  return if loaded = true ∧ mem.stack = true then argc else -1

/-- `sys_exec()`: `argv` is the number of arguments it fetched into kernel
pages, `none` when that fails (more than `MAXARG`, a bad address, `kalloc`
out of pages) and `exec` is not called. -/
def sys_exec (cwd : Fin NINODE) (path : List UInt8) (argv : Option Nat) (mem : ExecMem) : FsM Int := do
  if argstrOk path = false then return -1
  let some argc := argv | return -1
  exec cwd path argc mem

attribute [grind] loadsegLoop execLoop

/-! ## `fork` and `exit`, their file-system part -/

/-- What `fork` does for the child `c` of `p`: `np->ofile[i] =
filedup(p->ofile[i])` for every open file and `np->cwd = idup(p->cwd)`. -/
def fork_files (p c : Fin NPROC) (cwd : Fin NINODE) : FsM Unit := do
  (List.finRange NOFILE).forM fun i => do
    if let some f := (← get).ofile p i then
      let f ← filedup f
      modify fun s => { s with ofile := Function.update s.ofile c (Function.update (s.ofile c) i (some f)) }
  let ip ← idup cwd
  modify fun s => { s with cwd := Function.update s.cwd c (some ip) }

/-- What `exit` does for `p`: every open file closed, then `iput(p->cwd)`
and `p->cwd = 0`.  The first process may not exit. -/
def exit_files (p : Fin NPROC) (cwd : Fin NINODE) : FsM Unit := do
  if p = 0 then throw "init exiting"
  (List.finRange NOFILE).forM fun fd => do
    if let some f := (← get).ofile p fd then
      fileclose f
      modify fun s => { s with ofile := Function.update s.ofile p (Function.update (s.ofile p) fd none) }
  iput cwd
  modify fun s => { s with cwd := Function.update s.cwd p none }

/-! ## The machine -/

/-- A file-system system call, with its user arguments. -/
inductive FsCall where
  | open (path : List UInt8) (omode : Int32)
  | close (fd : Int32)
  | mkdir (path : List UInt8)
  | mknod (path : List UInt8) (major minor : Int32)
  | link (old new : List UInt8)
  | unlink (path : List UInt8)
  | chdir (path : List UInt8)
  /-- `exec`, with the number of arguments `sys_exec` fetched (`none` when
  that fails) and what the memory side of `exec` decides. -/
  | exec (path : List UInt8) (argv : Option Nat) (mem : ExecMem)
  /-- `fork`, with the unused slot `allocproc` found for the child. -/
  | fork (child : Fin NPROC)
  | exit
  deriving DecidableEq, Repr

/-- Process `p` makes call `call`. -/
structure FsEvent where
  p : Fin NPROC
  call : FsCall
  deriving DecidableEq, Repr

/-- The call as process `p`, whose current directory is `cwd`, runs it. -/
def FsCall.run (p : Fin NPROC) (cwd : Fin NINODE) : FsCall → FsM Int
  | .open path omode => sys_open p cwd path omode
  | .close fd => sys_close p fd
  | .mkdir path => sys_mkdir cwd path
  | .mknod path major minor => sys_mknod cwd path major minor
  | .link old new => sys_link cwd old new
  | .unlink path => sys_unlink cwd path
  | .chdir path => sys_chdir p cwd path
  | .exec path argv mem => sys_exec cwd path argv mem
  | .fork c => do fork_files p c cwd; return c.val
  | .exit => do exit_files p cwd; return 0

/-- One step: a process that has a current directory makes one call; a
child slot must be free; a panic has no successor. -/
def fsStep (s : Fs) (e : FsEvent) : Option (Fs × Int) :=
  match s.cwd e.p with
  | none => none
  | some cwd =>
      if (∃ c, e.call = .fork c ∧ (s.cwd c).isSome) then none
      else
        match e.call.run e.p cwd s with
        | .ok (r, s') => some (s', r)
        | .error _ => none

/-- The state after boot: the disk as `mkfs` left it, empty tables, and the
first process's current directory `namei("/")` (`userinit`). -/
def boot (disk : Fs) : Option Fs :=
  match namei 0 [SLASH] disk with
  | .ok (some ip, s) => some { s with cwd := Function.update s.cwd 0 (some ip) }
  | _ => none

end Xv6
