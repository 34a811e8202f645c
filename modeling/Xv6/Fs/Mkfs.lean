/-
# `Xv6.Fs.Mkfs` — the image `mkfs/mkfs.c` builds, and the state after boot

`mkfs fs.img files...` lays out `[ boot | sb | log | inodes | bitmap |
data ]`, makes the root directory with `.` and `..`, and for each file an
inode holding its bytes and an entry in the root under its short name.
Blocks are handed out in order from `freeblock`, inodes from `freeinode`;
the bitmap marks the first `freeblock` blocks in use.  Before it writes
the bitmap, `mkfs` rounds the root's size up past its last block:

    off = xint(din.size);
    off = ((off/BSIZE) + 1) * BSIZE;

The functions below are `mkfs`'s own (host-side) `ialloc`, `iappend` and
`main`; an `assert` that fails, or `fbn < MAXFILE` in `iappend`, aborts
`mkfs` (`none`).  The bytes of a file are its content as `read` returns
it, `BSIZE` at a time; `xint` and `xshort` are the identity on a
little-endian host.
-/
import Xv6.Fs.Sysfile

namespace Xv6

namespace Mkfs

/-- `NINODES`. -/
def NINODES : Nat := 200
/-- Inodes per block: `BSIZE / sizeof(struct dinode)`. -/
def IPB : Nat := BSIZE / 64
def nbitmap : Nat := FSSIZE / (BSIZE * 8) + 1
def ninodeblocks : Nat := NINODES / IPB + 1
def nlog : Nat := LOGSIZE
/-- Boot, superblock, log, inode and bitmap blocks. -/
def nmeta : Nat := 2 + nlog + ninodeblocks + nbitmap

/-- What `mkfs` has written, with its counters `freeblock` and `freeinode`. -/
structure Image where
  dinode : Nat → DInode
  data : Nat → Nat → UInt8
  indirect : Nat → Nat → Nat
  freeblock : Nat
  freeinode : Nat

/-- `ialloc(type)`: the next inode, with one link and nothing in it. -/
def ialloc (type : Int16) (img : Image) : Nat × Image :=
  (img.freeinode,
    { img with
      freeinode := img.freeinode + 1
      dinode := Function.update img.dinode img.freeinode { DInode.zero with type := type, nlink := 1 } })

/-- The block `iappend` writes block `fbn` of the file into, taking the
next free block for it (and for the indirect block) where there is none;
`din` is `iappend`'s copy of the inode. -/
def blockFor (din : DInode) (fbn : Nat) (img : Image) : DInode × Image :=
  if h : fbn < NDIRECT then
    if din.addrs ⟨fbn, Nat.lt_succ_of_lt h⟩ = 0 then
      ({ din with addrs := Function.update din.addrs ⟨fbn, Nat.lt_succ_of_lt h⟩ img.freeblock },
        { img with freeblock := img.freeblock + 1 })
    else (din, img)
  else
    let (din, img) :=
      if din.addrs (Fin.last NDIRECT) = 0 then
        ({ din with addrs := Function.update din.addrs (Fin.last NDIRECT) img.freeblock },
          { img with freeblock := img.freeblock + 1 })
      else (din, img)
    let ind := din.addrs (Fin.last NDIRECT)
    if img.indirect ind (fbn - NDIRECT) = 0 then
      (din, { img with
        indirect := Function.update img.indirect ind
          (Function.update (img.indirect ind) (fbn - NDIRECT) img.freeblock)
        freeblock := img.freeblock + 1 })
    else (din, img)

/-- The loop of `iappend`: `n` bytes of `p` left to write at `off`. -/
def iappendLoop (inum : Nat) : (fuel : Nat) → (p : List UInt8) → DInode → (off n : Nat) → Image →
    Option (DInode × Nat × Image)
  | 0, _, din, off, _, img => some (din, off, img)
  | fuel + 1, p, din, off, n, img =>
      if n = 0 then some (din, off, img)
      else
        let fbn := off / BSIZE
        if MAXFILE ≤ fbn then none
        else
          let (din, img) := blockFor din fbn img
          let n1 := min n ((fbn + 1) * BSIZE - off)
          let img := { img with
            data := Function.update img.data inum fun k =>
              if off ≤ k ∧ k < off + n1 then p.getD (k - off) 0 else img.data inum k }
          iappendLoop inum fuel (p.drop n1) din (off + n1) (n - n1) img

/-- `iappend(inum, p, n)` with the `n` bytes of `p`. -/
def iappend (inum : Nat) (p : List UInt8) (img : Image) : Option Image := do
  let din := img.dinode inum
  let (din, off, img) ← iappendLoop inum p.length p din din.size p.length img
  return { img with dinode := Function.update img.dinode inum { din with size := off } }

/-- The `read`/`iappend` loop over a file's content, `BSIZE` bytes a time. -/
def appendContent (inum : Nat) : (fuel : Nat) → List UInt8 → Image → Option Image
  | 0, _, img => some img
  | fuel + 1, content, img =>
      if content = [] then some img
      else do
        let img ← iappend inum (content.take BSIZE) img
        appendContent inum fuel (content.drop BSIZE) img

/-- `"user/"`. -/
def USER : List UInt8 := [117, 115, 101, 114, 47]

/-- `'_'`. -/
def UNDERSCORE : UInt8 := 95

/-- The name `mkfs` stores for `argv[i]`: without `user/`, and without a
leading `_`; `none` when a `/` is left. -/
def shortname (arg : List UInt8) : Option (List UInt8) :=
  let s := if strncmp arg USER 5 = 0 then arg.drop 5 else arg
  if SLASH ∈ s then none
  else some (if s.headD NUL = UNDERSCORE then s.drop 1 else s)

/-- One file of the command line: its inode, its entry in the root, its
bytes. -/
def addFile (rootino : Nat) (img : Image) (file : List UInt8 × List UInt8) : Option Image := do
  let name ← shortname file.1
  let (inum, img) := ialloc T_FILE img
  let img ← iappend rootino (Dirent.encode ⟨UInt16.ofNat inum, strncpy name DIRSIZ⟩) img
  appendContent inum file.2.length file.2 img

/-- `mkfs fs.img files...`, each file given as its path and its bytes. -/
def main (files : List (List UInt8 × List UInt8)) : Option Image := do
  let img : Image := ⟨fun _ => DInode.zero, fun _ _ => 0, fun _ _ => 0, nmeta, 1⟩
  let (rootino, img) := ialloc T_DIR img
  if rootino ≠ ROOTINO then none
  let img ← iappend rootino (Dirent.encode ⟨UInt16.ofNat rootino, strncpy DOT DIRSIZ⟩) img
  let img ← iappend rootino (Dirent.encode ⟨UInt16.ofNat rootino, strncpy DOTDOT DIRSIZ⟩) img
  let img ← files.foldlM (addFile rootino) img
  -- fix size of root inode dir
  let din := img.dinode rootino
  let img := { img with
    dinode := Function.update img.dinode rootino { din with size := (din.size / BSIZE + 1) * BSIZE } }
  -- balloc(freeblock)
  if BSIZE * 8 ≤ img.freeblock then none
  return img

/-- The disk as the kernel finds it, with its tables still empty. -/
def Image.disk (img : Image) : Fs where
  sb := ⟨FSSIZE, NINODES⟩
  dinode := img.dinode
  bitmap := fun b => decide (b < img.freeblock)
  indirect := img.indirect
  data := img.data
  inode := fun _ => Inode.zero
  file := fun _ => File.zero
  cwd := fun _ => none
  ofile := fun _ _ => none

attribute [grind] ialloc iappendLoop appendContent Image.disk

end Mkfs

/-- The state after `mkfs files` and boot. -/
def mkfsBoot (files : List (List UInt8 × List UInt8)) : Option Fs :=
  (Mkfs.main files).bind fun img => boot img.disk

end Xv6
