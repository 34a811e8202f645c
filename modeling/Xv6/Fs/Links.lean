/-
# `Xv6.Fs.Links` — the directory tree and the link counts it implies

The tree is read off the disk: a directory `d` has an edge to every inode
a used slot of its content names (`Fs.Edge`), and an inode is in the tree
when the root reaches it (`Fs.Reaches`, Mathlib's reflexive-transitive
closure).  The law `sys_link`, `sys_unlink` and `create` are written to
keep is

    every allocated inode is reached from the root, or has no links and
      is held by the inode table, so that its last iput frees it;
    its nlink is the number of entries naming it in reached
      directories, "." entries excluded.

`create` does not look at the parent's link count.  A process whose
current directory has been unlinked can still create a file in it:

    mkdir d; chdir d; unlink ../d; open f O_CREATE; close; chdir /

The last `chdir` drops the last reference to `d`, whose `iput` frees it
with its entries, and the file `f` is left allocated, with one link, in
no directory and held by no one (`create_in_unlinked_dir_orphans`).

To show that an inode is not reached it is enough to name a set of
inodes that holds the root and is closed under edges
(`Reaches.mem_of_dirClosed`); on a concrete state that check runs.
-/
import Xv6.Fs.Mkfs
import Mathlib.Logic.Relation
import Mathlib.Data.Set.Card

namespace Xv6

namespace Fs

/-- `d` is a directory on disk and a used slot of it names inode `c`. -/
def Edge (s : Fs) (d c : Nat) : Prop :=
  (s.dinode d).type = T_DIR ∧ ∃ de ∈ s.dirents d, de.inum ≠ 0 ∧ de.inum.toNat = c

/-- Inode `c` is reached from the root through directory entries. -/
def Reaches (s : Fs) (c : Nat) : Prop :=
  Relation.ReflTransGen s.Edge ROOTINO c

/-- An entry of the inode table holds inode `c`. -/
def Held (s : Fs) (c : Nat) : Prop :=
  ∃ ip, 0 < (s.inode ip).ref ∧ (s.inode ip).inum = c

/-- The places that name inode `c`: slot `k` of a reached directory `d`,
`.` entries excluded. -/
def linkPlaces (s : Fs) (c : Nat) : Set (Nat × Nat) :=
  { p | s.Reaches p.1 ∧ (s.dinode p.1).type = T_DIR ∧ p.2 < (s.dinode p.1).size / DIRENT_SIZE ∧
      (s.slot p.1 p.2).inum ≠ 0 ∧ (s.slot p.1 p.2).inum.toNat = c ∧ cstr (s.slot p.1 p.2).name ≠ DOT }

/-- The law of link counts over the directory tree. -/
def LinkLaw (s : Fs) : Prop :=
  ∀ c, (s.dinode c).type ≠ 0 →
    (s.Reaches c ∨ ((s.dinode c).nlink = 0 ∧ s.Held c)) ∧
      (s.dinode c).nlink.toInt = (s.linkPlaces c).ncard

/-- A list of inodes that holds the root and, for each directory in it,
every inode a used slot names. -/
def DirClosed (s : Fs) (S : List Nat) : Prop :=
  ROOTINO ∈ S ∧ ∀ d ∈ S, (s.dinode d).type = T_DIR → ∀ de ∈ s.dirents d, de.inum ≠ 0 → de.inum.toNat ∈ S

instance (s : Fs) (S : List Nat) : Decidable (s.DirClosed S) := by
  unfold DirClosed
  infer_instance

/-- What the root reaches lies in every closed set. -/
theorem Reaches.mem_of_dirClosed {s : Fs} {S : List Nat} {c : Nat} (hS : s.DirClosed S)
    (h : s.Reaches c) : c ∈ S := by
  induction h with
  | refl => exact hS.1
  | tail _ hedge ih =>
      obtain ⟨hdir, de, hde, hne, rfl⟩ := hedge
      exact hS.2 _ ih hdir de hde hne

/-- An allocated inode with links that nothing reaches breaks the law. -/
theorem not_linkLaw_of_orphan {s : Fs} {c : Nat} (htype : (s.dinode c).type ≠ 0)
    (hreach : ¬ s.Reaches c) (hlinks : (s.dinode c).nlink ≠ 0) : ¬ s.LinkLaw := by
  intro hlaw
  rcases (hlaw c htype).1 with h | ⟨h, -⟩
  · exact hreach h
  · exact hlinks h

end Fs

/-- `'d'`, `'f'`, `'.'` and `'/'`. -/
def orphanRun : List FsEvent :=
  [⟨0, .mkdir [100]⟩, ⟨0, .chdir [100]⟩, ⟨0, .unlink [46, 46, 47, 100]⟩,
    ⟨0, .open [102] O_CREATE⟩, ⟨0, .close 0⟩, ⟨0, .chdir [47]⟩]

/-- What `orphanRun` leaves: inode 3 (`f`) a file with one link, no inode
of the table holding it, and the root alone closed under edges. -/
def OrphanState (s : Fs) : Prop :=
  (s.dinode 3).type = T_FILE ∧ (s.dinode 3).nlink = 1 ∧ s.DirClosed [ROOTINO] ∧
    ∀ ip, (s.inode ip).inum = 3 → (s.inode ip).ref = 0

instance : DecidablePred OrphanState := fun s => by
  unfold OrphanState
  infer_instance

theorem create_in_unlinked_dir_orphans :
    ∃ s₀ hist s, mkfsBoot [] = some s₀ ∧ Machine.Run fsStep s₀ hist s ∧
      (s.dinode 3).type = T_FILE ∧ (s.dinode 3).nlink = 1 ∧ ¬ s.Reaches 3 ∧ ¬ s.Held 3 ∧
      ¬ s.LinkLaw := by
  have hrun : ∃ s₀ hist s, mkfsBoot [] = some s₀ ∧ Machine.Run fsStep s₀ hist s ∧ OrphanState s :=
    Machine.exists_run_of_exec_from orphanRun (by decide +kernel)
  obtain ⟨s₀, hist, s, h₀, hr, htype, hnlink, hclosed, hfree⟩ := hrun
  have hreach : ¬ s.Reaches 3 := fun h => by
    simpa [ROOTINO] using Fs.Reaches.mem_of_dirClosed hclosed h
  have hheld : ¬ s.Held 3 := by
    rintro ⟨ip, href, hinum⟩
    rw [hfree ip hinum] at href
    exact lt_irrefl _ href
  refine ⟨s₀, hist, s, h₀, hr, htype, hnlink, hreach, hheld, ?_⟩
  exact Fs.not_linkLaw_of_orphan (by rw [htype]; decide) hreach (by rw [hnlink]; decide)

end Xv6
