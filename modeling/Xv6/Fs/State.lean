/-
# `Xv6.Fs.State` — what the file-system calls read and write

The state is taken at the granularity of one system call: each file-system
call runs inside one `begin_op`/`end_op` and under the sleep-locks it
takes, so at this level calls do not interleave and the log is
transparent (its own behaviour is `Xv6.Fs.Log`).

* **The disk**, as the structures of `fs.c` lie on it: the on-disk inodes
  by number; the free bitmap by block number (`FSSIZE < BPB`, so one
  bitmap block holds every bit); the block numbers held by blocks used as
  indirect blocks; and the content of every inode, byte by byte at its
  file offsets.
* **The kernel's tables**: the inode table `itable.inode[NINODE]`, the file
  table `ftable.file[NFILE]`, and each process's `cwd` and `ofile`.

The content of an inode is kept at the file layer, by inode number and
offset, not by block: a data block holds bytes of the one inode whose
`addrs` or indirect block names it.  Which blocks an inode holds is kept as
the kernel keeps it, in `addrs` and the indirect blocks, with the bitmap,
so that allocation is modelled as the code does it.

A pointer into a table is an index; a null pointer is `none`.  A panic is
the error of the monad `FsM`: the kernel stops there.
-/
import Xv6.Fs.Dir
import Xv6.Lib.StateExcept
import Mathlib.Data.List.FinRange
import Mathlib.Logic.Function.Basic
import Mathlib.Order.Defs.Unbundled

namespace Xv6

/-- `struct superblock`, the fields the modelled functions read. -/
structure Superblock where
  size : Nat
  ninodes : Nat
  deriving DecidableEq, Repr

/-- `struct dinode`. -/
structure DInode where
  type : Int16
  major : Int16
  minor : Int16
  nlink : Int16
  size : Nat
  addrs : Fin (NDIRECT + 1) → Nat

/-- An on-disk inode cleared by `memset`. -/
def DInode.zero : DInode :=
  ⟨0, 0, 0, 0, 0, fun _ => 0⟩

attribute [grind] DInode.zero

/-- `struct inode`, an entry of the inode table; `d` is the copy of the
disk inode that `ilock` loads and `iupdate` writes back.  `dev` is left
out (one disk) and so is the sleep-lock (calls do not interleave). -/
structure Inode where
  inum : Nat
  ref : Int
  valid : Bool
  d : DInode

/-- An entry of the zero-filled table before any `iget`. -/
def Inode.zero : Inode :=
  ⟨0, 0, false, DInode.zero⟩

attribute [grind] Inode.zero

/-- The `type` field of `struct file`. -/
inductive FileType where
  | FD_NONE | FD_PIPE | FD_INODE | FD_DEVICE
  deriving DecidableEq, Repr

/-- `struct file`.  `pipe` is left out: no call modelled here makes a pipe. -/
structure File where
  type : FileType
  ref : Int
  readable : Bool
  writable : Bool
  ip : Option (Fin NINODE)
  off : Nat
  major : Int16

/-- An entry of the zero-filled file table. -/
def File.zero : File :=
  ⟨.FD_NONE, 0, false, false, none, 0, 0⟩

attribute [grind] File.zero

/-- The file system: the disk and the kernel's tables. -/
structure Fs where
  /-- The superblock `fsinit` read at boot. -/
  sb : Superblock
  /-- The inode of each number, as `IBLOCK` and `IPB` place it on disk. -/
  dinode : Nat → DInode
  /-- Bit `b` of the free bitmap: block `b` is in use. -/
  bitmap : Nat → Bool
  /-- Word `j` of block `b`, read as the `uint` array of an indirect block. -/
  indirect : Nat → Nat → Nat
  /-- Byte `off` of the content of inode `inum`. -/
  data : Nat → Nat → UInt8
  inode : Fin NINODE → Inode
  file : Fin NFILE → File
  cwd : Fin NPROC → Option (Fin NINODE)
  ofile : Fin NPROC → Fin NOFILE → Option (Fin NFILE)

/-- A kernel function of the file system: it may panic. -/
abbrev FsM := StateT Fs (Except String)

namespace Fs

/-- Change entry `ip` of the inode table. -/
def modifyInode (s : Fs) (ip : Fin NINODE) (f : Inode → Inode) : Fs :=
  { s with inode := Function.update s.inode ip (f (s.inode ip)) }

/-- Set `addrs[i]` of the table entry `ip`. -/
def setAddr (s : Fs) (ip : Fin NINODE) (i : Fin (NDIRECT + 1)) (a : Nat) : Fs :=
  s.modifyInode ip fun e => { e with d := { e.d with addrs := Function.update e.d.addrs i a } }

/-- Change entry `f` of the file table. -/
def modifyFile (s : Fs) (f : Fin NFILE) (g : File → File) : Fs :=
  { s with file := Function.update s.file f (g (s.file f)) }

attribute [grind] modifyInode modifyFile

@[simp] theorem modifyFile_inode (s : Fs) (f : Fin NFILE) (g : File → File) :
    (s.modifyFile f g).inode = s.inode := rfl

@[simp] theorem modifyFile_cwd (s : Fs) (f : Fin NFILE) (g : File → File) :
    (s.modifyFile f g).cwd = s.cwd := rfl

theorem modifyFile_modifyFile (s : Fs) (f : Fin NFILE) (g h : File → File) :
    (s.modifyFile f g).modifyFile f h = s.modifyFile f fun x => h (g x) := by
  unfold modifyFile
  simp

/-- Entry `ip` is referenced and holds the copy of its inode `ilock` read:
what a caller that has locked `ip` may rely on. -/
def Live (s : Fs) (ip : Fin NINODE) : Prop :=
  (s.inode ip).valid = true ∧ 0 < (s.inode ip).ref

/-- Slot `k` of the content of inode `inum`, read as a directory entry. -/
def slot (s : Fs) (inum k : Nat) : Dirent :=
  Dirent.decode ((List.range DIRENT_SIZE).map fun i => s.data inum (k * DIRENT_SIZE + i))

/-- The entries of directory `inum`, as many slots as its size on disk
holds. -/
def dirents (s : Fs) (inum : Nat) : List Dirent :=
  (List.range ((s.dinode inum).size / DIRENT_SIZE)).map (s.slot inum)

/-- `s` with another block map: bitmap, indirect blocks and the `addrs` of
the table's entries. -/
def withBlocks (s : Fs) (bm : Nat → Bool) (ind : Nat → Nat → Nat)
    (ad : Fin NINODE → Fin (NDIRECT + 1) → Nat) : Fs :=
  { s with
    bitmap := bm
    indirect := ind
    inode := fun ip => { s.inode ip with d := { (s.inode ip).d with addrs := ad ip } } }

/-- A step that changes the block map only. -/
def BlockStep (s s' : Fs) : Prop :=
  ∃ bm ind ad, s' = s.withBlocks bm ind ad

attribute [grind] Live

theorem BlockStep.refl (s : Fs) : BlockStep s s :=
  ⟨s.bitmap, s.indirect, fun ip => (s.inode ip).d.addrs, rfl⟩

theorem BlockStep.trans {s₁ s₂ s₃ : Fs} (h₁ : BlockStep s₁ s₂) (h₂ : BlockStep s₂ s₃) :
    BlockStep s₁ s₃ := by
  obtain ⟨bm, ind, ad, rfl⟩ := h₁
  obtain ⟨bm', ind', ad', rfl⟩ := h₂
  exact ⟨bm', ind', ad', rfl⟩

instance : IsPreorder Fs BlockStep where
  refl := BlockStep.refl
  trans _ _ _ := BlockStep.trans

@[simp] theorem modifyInode_inode (s : Fs) (ip : Fin NINODE) (f : Inode → Inode) (ip' : Fin NINODE) :
    (s.modifyInode ip f).inode ip' = if ip' = ip then f (s.inode ip) else s.inode ip' :=
  Function.update_apply _ _ _ _

theorem modifyInode_self (s : Fs) (ip : Fin NINODE) : (s.modifyInode ip fun e => e) = s := by
  unfold modifyInode
  rw [Function.update_eq_self]

/-- `modifyInode` reads its function at the entry it changes only. -/
theorem modifyInode_congr (s : Fs) (ip : Fin NINODE) {f g : Inode → Inode}
    (h : f (s.inode ip) = g (s.inode ip)) : s.modifyInode ip f = s.modifyInode ip g := by
  unfold modifyInode
  rw [h]

theorem modifyInode_modifyInode (s : Fs) (ip : Fin NINODE) (f g : Inode → Inode) :
    (s.modifyInode ip f).modifyInode ip g = s.modifyInode ip fun e => g (f e) := by
  unfold modifyInode
  simp

@[simp] theorem modifyInode_dinode (s : Fs) (ip : Fin NINODE) (f : Inode → Inode) :
    (s.modifyInode ip f).dinode = s.dinode := rfl

@[simp] theorem modifyInode_data (s : Fs) (ip : Fin NINODE) (f : Inode → Inode) :
    (s.modifyInode ip f).data = s.data := rfl

@[simp] theorem modifyInode_bitmap (s : Fs) (ip : Fin NINODE) (f : Inode → Inode) :
    (s.modifyInode ip f).bitmap = s.bitmap := rfl

@[simp] theorem modifyInode_indirect (s : Fs) (ip : Fin NINODE) (f : Inode → Inode) :
    (s.modifyInode ip f).indirect = s.indirect := rfl

@[simp] theorem modifyInode_sb (s : Fs) (ip : Fin NINODE) (f : Inode → Inode) :
    (s.modifyInode ip f).sb = s.sb := rfl

@[simp] theorem modifyInode_file (s : Fs) (ip : Fin NINODE) (f : Inode → Inode) :
    (s.modifyInode ip f).file = s.file := rfl

@[simp] theorem modifyInode_cwd (s : Fs) (ip : Fin NINODE) (f : Inode → Inode) :
    (s.modifyInode ip f).cwd = s.cwd := rfl

@[simp] theorem modifyInode_ofile (s : Fs) (ip : Fin NINODE) (f : Inode → Inode) :
    (s.modifyInode ip f).ofile = s.ofile := rfl

@[simp] theorem withBlocks_inode (s : Fs) bm ind ad (ip : Fin NINODE) :
    (s.withBlocks bm ind ad).inode ip = { s.inode ip with d := { (s.inode ip).d with addrs := ad ip } } :=
  rfl

theorem BlockStep.setAddr (s : Fs) (ip : Fin NINODE) (i : Fin (NDIRECT + 1)) (a : Nat) :
    BlockStep s (s.setAddr ip i a) := by
  refine ⟨s.bitmap, s.indirect, fun ip' =>
    if ip' = ip then Function.update (s.inode ip).d.addrs i a else (s.inode ip').d.addrs, ?_⟩
  unfold Fs.setAddr Fs.modifyInode Fs.withBlocks
  congr 1
  funext ip'
  by_cases h : ip' = ip
  · subst h
    simp
  · simp [h]

theorem BlockStep.setIndirect (s : Fs) (ind j a : Nat) :
    BlockStep s { s with indirect := Function.update s.indirect ind (Function.update (s.indirect ind) j a) } :=
  ⟨_, _, fun ip => (s.inode ip).d.addrs, rfl⟩

theorem BlockStep.setBitmap (s : Fs) (bm : Nat → Bool) : BlockStep s { s with bitmap := bm } :=
  ⟨_, s.indirect, fun ip => (s.inode ip).d.addrs, rfl⟩

/-- What a block step leaves alone, for the fields other than the table. -/
theorem BlockStep.fields {s s' : Fs} (h : BlockStep s s') :
    s'.sb = s.sb ∧ s'.dinode = s.dinode ∧ s'.data = s.data ∧ s'.file = s.file ∧
      s'.cwd = s.cwd ∧ s'.ofile = s.ofile := by
  obtain ⟨bm, ind, ad, rfl⟩ := h
  exact ⟨rfl, rfl, rfl, rfl, rfl, rfl⟩

theorem BlockStep.slot {s s' : Fs} (h : BlockStep s s') : s'.slot = s.slot := by
  obtain ⟨bm, ind, ad, rfl⟩ := h
  rfl

/-- What a block step leaves alone in each table entry. -/
theorem BlockStep.entry {s s' : Fs} (h : BlockStep s s') (ip : Fin NINODE) :
    (s'.inode ip).inum = (s.inode ip).inum ∧ (s'.inode ip).ref = (s.inode ip).ref ∧
      (s'.inode ip).valid = (s.inode ip).valid ∧ (s'.inode ip).d.type = (s.inode ip).d.type ∧
      (s'.inode ip).d.nlink = (s.inode ip).d.nlink ∧ (s'.inode ip).d.size = (s.inode ip).d.size := by
  obtain ⟨bm, ind, ad, rfl⟩ := h
  exact ⟨rfl, rfl, rfl, rfl, rfl, rfl⟩

end Fs

end Xv6
