/-
# `Xv6.Fs.Blocks` — which inode owns which disk block

The blocks an allocated inode holds on disk are the nonzero addresses of
its `addrs[]` (the indirect block among them) and the nonzero words of its
indirect block (`Fs.inodeBlocks`); `Fs.blockRefs` lists them for every
allocated inode, a block named twice appearing twice.  The ownership law
`balloc` and `bfree` rely on is

    every block below nmeta is in use;
    every named block is a data block in use, named once;
    every data block in use is named once.

`bmap` is also called by `readi`, and `readi` writes nothing back: a
block it allocates for a hole is marked in use on disk while only the
inode table's copy of `addrs[]` names it.  `mkfs` leaves such a hole in
the root when the root's entries fill whole blocks, since it rounds the
root's size up past its last block:

    off = ((off/BSIZE) + 1) * BSIZE;

With 62 files the root's 64 entries fill block 0 and block 1 is a hole.
Any lookup in the root that does not find its name reads that hole, so a
failed `unlink("zz")` marks block 47 in use on disk with no inode on disk
naming it (`failed_lookup_leaks_block`).  Until some later write of the
root writes its inode back, a crash or the reuse of its table entry loses
the block for good.
-/
import Xv6.Fs.Mkfs

namespace Xv6

namespace Fs

/-- The blocks inode `inum` holds on disk. -/
def inodeBlocks (s : Fs) (inum : Nat) : List Nat :=
  let d := s.dinode inum
  let ind := d.addrs (Fin.last NDIRECT)
  ((List.finRange (NDIRECT + 1)).map d.addrs ++
    (if ind = 0 then [] else (List.range NINDIRECT).map (s.indirect ind))).filter (· ≠ 0)

/-- Every place an allocated inode names a block, inode by inode. -/
def blockRefs (s : Fs) : List Nat :=
  (List.range s.sb.ninodes).flatMap fun inum =>
    if (s.dinode inum).type = 0 then [] else s.inodeBlocks inum

/-- The ownership law of the disk's blocks. -/
def BlockOwnership (s : Fs) : Prop :=
  (∀ b < Mkfs.nmeta, s.bitmap b = true) ∧
  (∀ b ∈ s.blockRefs, Mkfs.nmeta ≤ b ∧ b < s.sb.size ∧ s.bitmap b = true ∧ s.blockRefs.count b = 1) ∧
  (∀ b, Mkfs.nmeta ≤ b → b < s.sb.size → s.bitmap b = true → s.blockRefs.count b = 1)

instance : DecidablePred BlockOwnership := fun s => by
  unfold BlockOwnership
  infer_instance

/-- Under the law, a data block in use is named by some allocated inode. -/
theorem BlockOwnership.mem_blockRefs {s : Fs} (h : s.BlockOwnership) {b : Nat}
    (hmeta : Mkfs.nmeta ≤ b) (hsize : b < s.sb.size) (hused : s.bitmap b = true) :
    b ∈ s.blockRefs := by
  have hcount := h.2.2 b hmeta hsize hused
  exact List.count_pos_iff.mp (by omega)

end Fs

/-- 62 files with two-letter names and no content. -/
def files62 : List (List UInt8 × List UInt8) :=
  (List.range 62).map fun i => ([UInt8.ofNat (97 + i / 26), UInt8.ofNat (97 + i % 26)], [])

/-- `unlink("zz")` by the first process. -/
def leakRun : List FsEvent :=
  [⟨0, .unlink [122, 122]⟩]

/-- The image of 62 files keeps the ownership law, and the root's size
covers two blocks of which the second is a hole. -/
theorem mkfs_root_hole :
    ((mkfsBoot files62).map fun s =>
      ((s.dinode ROOTINO).size, (s.dinode ROOTINO).addrs 1, decide s.BlockOwnership)) =
      some (2 * BSIZE, 0, true) := by
  decide +kernel

/-- The image itself: 62 files that fit (short names distinct, no content,
inode numbers `1..63`), and a root whose final size, two blocks, reaches
past its only block, `addrs[1]` being `0`. -/
theorem mkfs_root_size_uncovered :
    (files62.map fun f => Mkfs.shortname f.1).Nodup ∧ (∀ f ∈ files62, f.2 = []) ∧
      files62.length + 2 ≤ Mkfs.NINODES ∧
      ∃ img, Mkfs.main files62 = some img ∧
        (img.disk.dinode ROOTINO).size = 2 * BSIZE ∧ (img.disk.dinode ROOTINO).addrs 1 = 0 := by
  refine ⟨by decide, by decide, by decide, ?_⟩
  have h : (Mkfs.main files62).map (fun img =>
      ((img.disk.dinode ROOTINO).size, (img.disk.dinode ROOTINO).addrs 1)) = some (2 * BSIZE, 0) := by
    decide +kernel
  obtain ⟨img, himg, hval⟩ := Option.map_eq_some_iff.mp h
  exact ⟨img, himg, (Prod.mk.inj hval).1, (Prod.mk.inj hval).2⟩

/-- What `leakRun` leaves: block 47 in use on disk and named by no
allocated inode there, while the table's copy of the root names it. -/
def LeakState (s : Fs) : Prop :=
  47 < s.sb.size ∧ s.bitmap 47 = true ∧ 47 ∉ s.blockRefs ∧
    ∃ ip, (s.inode ip).inum = ROOTINO ∧ (s.inode ip).d.addrs 1 = 47

instance : DecidablePred LeakState := fun s => by
  unfold LeakState
  infer_instance

theorem failed_lookup_leaks_block :
    ∃ s₀ hist s, mkfsBoot files62 = some s₀ ∧ Machine.Run fsStep s₀ hist s ∧
      s₀.BlockOwnership ∧ s.bitmap 47 = true ∧ 47 ∉ s.blockRefs ∧
      (∃ ip, (s.inode ip).inum = ROOTINO ∧ (s.inode ip).d.addrs 1 = 47) ∧ ¬ s.BlockOwnership := by
  have hrun : ∃ s₀ hist s, mkfsBoot files62 = some s₀ ∧ Machine.Run fsStep s₀ hist s ∧
      LeakState s :=
    Machine.exists_run_of_exec_from leakRun (by decide +kernel)
  obtain ⟨s₀, hist, s, h₀, hr, hsize, hused, hfree, hmem⟩ := hrun
  have hlaw₀ : s₀.BlockOwnership := by
    have h := mkfs_root_hole
    rw [h₀, Option.map_some, Option.some.injEq, Prod.mk.injEq, Prod.mk.injEq] at h
    exact of_decide_eq_true h.2.2
  refine ⟨s₀, hist, s, h₀, hr, hlaw₀, hused, hfree, hmem, fun hlaw => hfree ?_⟩
  exact hlaw.mem_blockRefs (by decide) hsize hused

end Xv6
