/-
# `Xv6.Fs.Refs` — the inode table's reference counts over every run

Between two calls of the machine of `Xv6.Fs.Sysfile`, started from any
image `mkfs` builds, whatever names it was given:

    no two referenced entries of the inode table hold the same inode, so
      `iget` of an inode that has a referenced entry returns that entry;
    an entry's count is exactly the number of current directories and of
      open files (`FD_INODE` or `FD_DEVICE`) that point at it;

and `iput` of the last reference to a valid inode with no links leaves the
inode with no size and no type on disk, and its entry invalid, when the
entry's count reaches `0` and the entry can be taken by another inode.

Inside a call the count is the same plus the references the call itself
holds: that is `Fs.Inv s ex` with `ex` those references, which the lemmas
of `Xv6.Fs.SysfileInv` carry from one step of each call to the next.  The
names in directories take no part (`Fs.Inv s 0 False`).  `exec` is one
of the calls: `namei` takes a reference to the program, and each way out
of `exec`, at `bad` or past the image, gives it back with one
`iunlockput` (`exec_spec`).
-/
import Xv6.Fs.SysfileInv
import Xv6.Fs.Mkfs

namespace Xv6

open StateExcept Fs

variable {D : Prop}

/-- The disk `mkfs` wrote, with the kernel's tables still empty. -/
theorem Mkfs.Image.disk_inv (img : Mkfs.Image) : img.disk.Inv 0 False where
  unique ip _ hr := by simp [Mkfs.Image.disk, Inode.zero] at hr
  coherent ip hl := by simp [Live, Mkfs.Image.disk, Inode.zero] at hl
  files f := by simp [Mkfs.Image.disk, File.zero]
  held ip := by simp [holders, Mkfs.Image.disk, File.Holds, File.zero, Inode.zero]
  dirs h := h.elim

/-- `userinit` gives the first process `namei("/")` as its current
directory, which then holds the reference `namei` took. -/
theorem boot_inv {disk s : Fs} (hI : disk.Inv 0 D) (hcwd : ∀ p, disk.cwd p = none)
    (h : boot disk = some s) : s.Inv 0 D := by
  unfold boot at h
  split at h
  · rename_i ip s₁ hnamei
    obtain rfl := Option.some.inj h
    obtain ⟨-, hsome, hcwd₁⟩ := namei_inv hI (fun hne => (hne rfl).elim) hnamei
    refine (hsome ip rfl).setCwd 0 (some ip) 0 fun y => ?_
    rw [hcwd₁, hcwd]
    by_cases hy : y = ip
    · subst hy
      simp
    · simp [hy, Ne.symm hy]
  · cases h

/-- Every state a run reaches from an image of `mkfs` keeps the table
invariant. -/
theorem mkfsBoot_run_inv {files : List (List UInt8 × List UInt8)} {s₀ s : Fs}
    {hist : List (Fs × FsEvent × Int)} (h₀ : mkfsBoot files = some s₀) (hrun : Machine.Run fsStep s₀ hist s) :
    s.Inv 0 False := by
  obtain ⟨img, -, hboot⟩ := Option.bind_eq_some_iff.mp h₀
  exact Run.fs_inv (boot_inv img.disk_inv (fun _ => rfl) hboot) hrun

theorem itable_refs_exact {files : List (List UInt8 × List UInt8)} {s₀ s : Fs}
    {hist : List (Fs × FsEvent × Int)} (h₀ : mkfsBoot files = some s₀) (hrun : Machine.Run fsStep s₀ hist s) :
    (∀ ip ip', 0 < (s.inode ip).ref → 0 < (s.inode ip').ref → (s.inode ip).inum = (s.inode ip').inum →
      ip = ip') ∧
    (∀ ip, (s.inode ip).ref =
      (∑ p, if s.cwd p = some ip then 1 else 0) + ∑ f, if (s.file f).Holds ip then 1 else 0) ∧
    (∀ ip ip' s', 0 < (s.inode ip).ref → iget (s.inode ip).inum s = .ok (ip', s') → ip' = ip) ∧
    (∀ ip u s', (s.inode ip).ref = 1 → (s.inode ip).valid = true → (s.inode ip).d.nlink = 0 →
      iput ip s = .ok (u, s') →
      (s'.dinode (s.inode ip).inum).type = 0 ∧ (s'.dinode (s.inode ip).inum).size = 0 ∧
        (s'.inode ip).valid = false ∧ (s'.inode ip).ref = 0) := by
  have hI := mkfsBoot_run_inv h₀ hrun
  refine ⟨hI.unique, fun ip => ?_, fun ip ip' s' hr hget => ?_, fun ip u s' hone hv hlink hput => ?_⟩
  · have := hI.held ip
    simp only [Pi.zero_apply, add_zero] at this
    exact this.symm
  · -- `iget` finds the referenced entry, which is the only one for its inode
    rcases iget_spec hget with ⟨hr', hinum, -⟩ | ⟨hnone, -, -⟩
    · exact hI.unique ip' ip hr' hr hinum
    · exact absurd rfl (hnone ip hr)
  · rcases iput_spec hput with ⟨hkeep, -⟩ | ⟨-, -, -, s₁, hb, rfl⟩
    · exact absurd ⟨hone, hv, hlink⟩ hkeep
    · -- the inode is truncated and typed `0` on disk, then its entry released
      have hinum := (hb.entry ip).1
      simp [Fs.free, Fs.truncate, hinum, (hb.entry ip).2.1, hone]

/-- A program: an ELF header and one program header that loads the four
bytes at offset 120. -/
def elfImage : List UInt8 :=
  -- `struct elfhdr`: the magic, `phoff = 64`, `phnum = 1`
  [0x7F, 0x45, 0x4C, 0x46] ++ List.replicate 28 0 ++ [64, 0, 0, 0, 0, 0, 0, 0] ++ List.replicate 16 0 ++
    [1, 0] ++ List.replicate 6 0 ++
  -- `struct proghdr`: `ELF_PROG_LOAD`, `off = 120`, `vaddr = 0`, `filesz = memsz = 4`
    [1, 0, 0, 0, 5, 0, 0, 0] ++ [120, 0, 0, 0, 0, 0, 0, 0] ++ List.replicate 16 0 ++
    [4, 0, 0, 0, 0, 0, 0, 0] ++ [4, 0, 0, 0, 0, 0, 0, 0] ++ [0, 16, 0, 0, 0, 0, 0, 0] ++
  -- the segment
    [0x13, 0, 0, 0]

/-- With `i` holding `elfImage`: process 0 opens `i` and `exec`s it, then
`/` (a directory) and `x` (no such file); a child forked into slot 1
`exec`s `i` with no memory for its segment, and exits; process 0 closes
`i`. -/
def execRun : List FsEvent :=
  [⟨0, .open [105] O_RDONLY⟩, ⟨0, .exec [105] (some 1) ⟨true, 1, true⟩⟩,
    ⟨0, .exec [47] (some 1) ⟨true, 1, true⟩⟩, ⟨0, .exec [120] (some 1) ⟨true, 1, true⟩⟩, ⟨0, .fork 1⟩,
    ⟨1, .exec [105] (some 2) ⟨true, 0, true⟩⟩, ⟨1, .exit⟩, ⟨0, .close 0⟩]

theorem itable_refs_exact_exec : ∃ s₀ hist s, mkfsBoot [([105], elfImage)] = some s₀ ∧
    Machine.Run fsStep s₀ hist s ∧ (hist.map fun x => x.2).reverse = execRun.zip [0, 1, -1, -1, 1, -1, 0, 0] ∧
    (∀ ip ip', 0 < (s.inode ip).ref → 0 < (s.inode ip').ref → (s.inode ip).inum = (s.inode ip').inum →
      ip = ip') ∧
    (∀ ip, (s.inode ip).ref =
      (∑ p, if s.cwd p = some ip then 1 else 0) + ∑ f, if (s.file f).Holds ip then 1 else 0) ∧
    (∀ ip ip' s', 0 < (s.inode ip).ref → iget (s.inode ip).inum s = .ok (ip', s') → ip' = ip) ∧
    (∀ ip u s', (s.inode ip).ref = 1 → (s.inode ip).valid = true → (s.inode ip).d.nlink = 0 →
      iput ip s = .ok (u, s') →
      (s'.dinode (s.inode ip).inum).type = 0 ∧ (s'.dinode (s.inode ip).inum).size = 0 ∧
        (s'.inode ip).valid = false ∧ (s'.inode ip).ref = 0) := by
  obtain ⟨s₀, hist, s, h₀, hr, hev⟩ :=
    @Machine.exists_run_of_outputs_from _ _ _ fsStep (mkfsBoot [([105], elfImage)]) execRun
      [0, 1, -1, -1, 1, -1, 0, 0] (by decide +kernel)
  exact ⟨s₀, hist, s, h₀, hr, hev, itable_refs_exact h₀ hr⟩

end Xv6
