/-
# `Xv6.Fs.Table` — the invariant the file-system calls keep

Between two system calls the inode table, the file table and the disk
stand in these relations:

    CacheUnique  two referenced entries never hold the same inode
    Coherent     an entry that is referenced and valid agrees with the
                 disk on its inode's type and size, and the type is not 0
    FilesOk      file counts are not negative; a file no one holds is closed
    held         an entry's count is the number of current directories and
                 open files that point at it
    DirsUnique   no directory on disk has two used entries equal under
                 namecmp

Inside a call, the references the call itself has taken with `iget`,
`idup` and `namex` are counted by a function `ex`, so that `Inv s ex`
holds between the steps of the call: a call starts with `ex = 0` and, once
it has released what it took and handed the rest to a file or a current
directory, ends with `ex = 0` again.

`Agree s s'` says that two states agree on everything the invariant
reads: a block step, a change of an entry's link count or device numbers,
and the write-back of a coherent entry are such steps (`Inv.agree`).  The
table functions move the accounting as they move references: `iget` and
`idup` add one, `iput` takes one away, `ilock` makes its entry coherent.
-/
import Xv6.Fs.Inode
import Mathlib.Algebra.BigOperators.Group.Finset.Basic
import Mathlib.Data.Fintype.BigOperators
import Mathlib.Algebra.Group.Pi.Basic
import Mathlib.Algebra.Order.BigOperators.Group.Finset

namespace Xv6

open StateExcept

/-- A sum over a finite type after one of its terms is replaced. -/
theorem sum_update_sub {α : Type} [Fintype α] [DecidableEq α] (f : α → Int) (a : α) (b : Int) :
    ∑ x, Function.update f a b x = ∑ x, f x + b - f a := by
  rw [Finset.sum_update_of_mem (Finset.mem_univ a), ← Finset.add_sum_erase _ f (Finset.mem_univ a),
    Finset.sdiff_singleton_eq_erase]
  omega

/-- File `x` is open on entry `ip` of the inode table. -/
def File.Holds (x : File) (ip : Fin NINODE) : Prop :=
  0 < x.ref ∧ (x.type = .FD_INODE ∨ x.type = .FD_DEVICE) ∧ x.ip = some ip

attribute [grind] File.Holds

instance (x : File) (ip : Fin NINODE) : Decidable (x.Holds ip) := by
  unfold File.Holds
  infer_instance

/-- What the invariant reads of a table entry. -/
def Inode.key (e : Inode) : Nat × Int × Bool × Int16 × Nat :=
  (e.inum, e.ref, e.valid, e.d.type, e.d.size)

namespace Fs

variable {s s' s₁ s₂ s₃ : Fs} {ex : Fin NINODE → Int} {D : Prop}

/-! ## Holders -/

/-- The references current directories and open files hold on entry `ip`. -/
def holders (s : Fs) (ip : Fin NINODE) : Int :=
  (∑ p, if s.cwd p = some ip then 1 else 0) + ∑ f, if (s.file f).Holds ip then 1 else 0

attribute [grind] holders

theorem holders_nonneg (s : Fs) (ip : Fin NINODE) : 0 ≤ s.holders ip := by
  unfold holders
  have h₁ : 0 ≤ ∑ p, (if s.cwd p = some ip then 1 else 0 : Int) :=
    Finset.sum_nonneg fun p _ => by split <;> omega
  have h₂ : 0 ≤ ∑ f, (if (s.file f).Holds ip then 1 else 0 : Int) :=
    Finset.sum_nonneg fun f _ => by split <;> omega
  omega

@[simp] theorem holders_modifyInode (s : Fs) (ip : Fin NINODE) (f : Inode → Inode) :
    (s.modifyInode ip f).holders = s.holders := rfl

/-- Setting a process's current directory moves one holder. -/
theorem holders_setCwd (s : Fs) (p : Fin NPROC) (v : Option (Fin NINODE)) (ip : Fin NINODE) :
    { s with cwd := Function.update s.cwd p v }.holders ip =
      s.holders ip + (if v = some ip then 1 else 0) - (if s.cwd p = some ip then 1 else 0) := by
  unfold holders
  dsimp only
  have hcwd : (fun q => if Function.update s.cwd p v q = some ip then (1 : Int) else 0) =
      Function.update (fun q => if s.cwd q = some ip then 1 else 0) p (if v = some ip then 1 else 0) := by
    funext q
    by_cases hq : q = p
    · subst hq
      simp
    · simp [hq]
  rw [hcwd, sum_update_sub]
  omega

/-- Changing one file moves at most one holder. -/
theorem holders_modifyFile (s : Fs) (f : Fin NFILE) (g : File → File) (ip : Fin NINODE) :
    (s.modifyFile f g).holders ip =
      s.holders ip + (if (g (s.file f)).Holds ip then 1 else 0) - (if (s.file f).Holds ip then 1 else 0) := by
  unfold holders modifyFile
  dsimp only
  have hfile : (fun x => if (Function.update s.file f (g (s.file f)) x).Holds ip then (1 : Int) else 0) =
      Function.update (fun x => if (s.file x).Holds ip then 1 else 0) f
        (if (g (s.file f)).Holds ip then 1 else 0) := by
    funext x
    by_cases hx : x = f
    · subst hx
      simp
    · simp [hx]
  rw [hfile, sum_update_sub]
  omega

/-! ## The invariant -/

/-- Two referenced entries never hold the same inode. -/
def CacheUnique (s : Fs) : Prop :=
  ∀ ip ip', 0 < (s.inode ip).ref → 0 < (s.inode ip').ref → (s.inode ip).inum = (s.inode ip').inum →
    ip = ip'

/-- A referenced, valid entry agrees with the disk on its inode's type and
size, and the inode is allocated. -/
def Coherent (s : Fs) : Prop :=
  ∀ ip, s.Live ip → (s.dinode (s.inode ip).inum).type = (s.inode ip).d.type ∧
    (s.dinode (s.inode ip).inum).size = (s.inode ip).d.size ∧ (s.inode ip).d.type ≠ 0

/-- File counts are not negative, and a file no one holds is closed. -/
def FilesOk (s : Fs) : Prop :=
  ∀ f, 0 ≤ (s.file f).ref ∧ ((s.file f).ref = 0 → (s.file f).type = .FD_NONE)

/-- No two of the first `n` slots of inode `d` are used entries equal
under `namecmp`. -/
def SlotsUnique (s : Fs) (d n : Nat) : Prop :=
  ∀ j < n, ∀ k < n, (s.slot d j).inum ≠ 0 → (s.slot d k).inum ≠ 0 →
    namecmp (s.slot d j).name (s.slot d k).name = 0 → j = k

/-- Every directory on disk has distinct names among its used entries. -/
def DirsUnique (s : Fs) : Prop :=
  ∀ d, (s.dinode d).type = T_DIR → s.SlotsUnique d ((s.dinode d).size / DIRENT_SIZE)

/-- The invariant, with `ex` the references the running call holds; the
names in directories are distinct when `D` holds, as they are on an image
`mkfs` built from names distinct in their first `DIRSIZ` bytes. -/
structure Inv (s : Fs) (ex : Fin NINODE → Int) (D : Prop) : Prop where
  unique : s.CacheUnique
  coherent : s.Coherent
  files : s.FilesOk
  held : ∀ ip, s.holders ip + ex ip = (s.inode ip).ref
  dirs : D → s.DirsUnique

/-- What the running call holds is covered by the count. -/
theorem Inv.ex_le_ref (hI : s.Inv ex D) (ip : Fin NINODE) : ex ip ≤ (s.inode ip).ref := by
  have := hI.held ip
  have := s.holders_nonneg ip
  omega

/-- A referenced entry's inode has no other referenced entry. -/
theorem Inv.inum_ne (hI : s.Inv ex D) {ip y : Fin NINODE} (hy : y ≠ ip) (hr : 0 < (s.inode ip).ref)
    (hry : 0 < (s.inode y).ref) : (s.inode y).inum ≠ (s.inode ip).inum :=
  fun he => hy (hI.unique y ip hry hr he)

/-! ## Steps that change nothing the invariant reads -/

/-- Two states agree on everything the invariant reads. -/
structure Agree (s s' : Fs) : Prop where
  type : ∀ i, (s'.dinode i).type = (s.dinode i).type
  size : ∀ i, (s'.dinode i).size = (s.dinode i).size
  data : s'.data = s.data
  file : s'.file = s.file
  cwd : s'.cwd = s.cwd
  key : ∀ ip, (s'.inode ip).key = (s.inode ip).key

theorem Agree.refl (s : Fs) : Agree s s :=
  ⟨fun _ => rfl, fun _ => rfl, rfl, rfl, rfl, fun _ => rfl⟩

theorem Agree.trans (h₁ : Agree s₁ s₂) (h₂ : Agree s₂ s₃) : Agree s₁ s₃ :=
  ⟨fun i => (h₂.type i).trans (h₁.type i), fun i => (h₂.size i).trans (h₁.size i),
    h₂.data.trans h₁.data, h₂.file.trans h₁.file, h₂.cwd.trans h₁.cwd,
    fun ip => (h₂.key ip).trans (h₁.key ip)⟩

theorem Agree.inum (h : Agree s s') (ip : Fin NINODE) : (s'.inode ip).inum = (s.inode ip).inum :=
  congrArg (fun k => k.1) (h.key ip)

theorem Agree.ref (h : Agree s s') (ip : Fin NINODE) : (s'.inode ip).ref = (s.inode ip).ref :=
  congrArg (fun k => k.2.1) (h.key ip)

theorem Agree.valid (h : Agree s s') (ip : Fin NINODE) : (s'.inode ip).valid = (s.inode ip).valid :=
  congrArg (fun k => k.2.2.1) (h.key ip)

theorem Agree.itype (h : Agree s s') (ip : Fin NINODE) : (s'.inode ip).d.type = (s.inode ip).d.type :=
  congrArg (fun k => k.2.2.2.1) (h.key ip)

theorem Agree.isize (h : Agree s s') (ip : Fin NINODE) : (s'.inode ip).d.size = (s.inode ip).d.size :=
  congrArg (fun k => k.2.2.2.2) (h.key ip)

theorem Agree.live (h : Agree s s') (ip : Fin NINODE) : s'.Live ip ↔ s.Live ip := by
  unfold Live
  rw [h.valid, h.ref]

theorem Agree.holders (h : Agree s s') : s'.holders = s.holders := by
  funext ip
  unfold Fs.holders
  rw [h.file, h.cwd]

theorem Agree.slot (h : Agree s s') : s'.slot = s.slot := by
  funext d k
  unfold Fs.slot
  rw [h.data]

theorem Agree.ofile (s : Fs) (o : Fin NPROC → Fin NOFILE → Option (Fin NFILE)) :
    Agree s { s with ofile := o } :=
  ⟨fun _ => rfl, fun _ => rfl, rfl, rfl, rfl, fun _ => rfl⟩

theorem Agree.of_blockStep (h : BlockStep s s') : Agree s s' := by
  obtain ⟨bm, ind, ad, rfl⟩ := h
  exact ⟨fun _ => rfl, fun _ => rfl, rfl, rfl, rfl, fun _ => rfl⟩

/-- A change of an entry that leaves what the invariant reads of it. -/
theorem Agree.modifyInode (s : Fs) (ip : Fin NINODE) (f : Inode → Inode)
    (hf : (f (s.inode ip)).key = (s.inode ip).key) : Agree s (s.modifyInode ip f) := by
  refine ⟨fun _ => rfl, fun _ => rfl, rfl, rfl, rfl, fun ip' => ?_⟩
  rw [modifyInode_inode]
  split
  · subst ip'
    exact hf
  · rfl

@[simp] theorem writeBack_inode (s : Fs) (ip : Fin NINODE) : (s.writeBack ip).inode = s.inode := rfl

@[simp] theorem holders_writeBack (s : Fs) (ip : Fin NINODE) : (s.writeBack ip).holders = s.holders := rfl

@[simp] theorem writeBack_dinode (s : Fs) (ip : Fin NINODE) :
    (s.writeBack ip).dinode = Function.update s.dinode (s.inode ip).inum (s.inode ip).d := rfl

/-- Writing back an entry that agrees with the disk on type and size. -/
theorem Agree.writeBack (s : Fs) (ip : Fin NINODE)
    (htype : (s.dinode (s.inode ip).inum).type = (s.inode ip).d.type)
    (hsize : (s.dinode (s.inode ip).inum).size = (s.inode ip).d.size) : Agree s (s.writeBack ip) := by
  refine ⟨fun i => ?_, fun i => ?_, rfl, rfl, rfl, fun _ => rfl⟩ <;>
  · rw [writeBack_dinode]
    by_cases hi : i = (s.inode ip).inum
    · subst hi
      simp [htype, hsize]
    · simp [Function.update_of_ne hi]

theorem Inv.agree (hI : s.Inv ex D) (h : Agree s s') : s'.Inv ex D where
  unique ip ip' hr hr' he := hI.unique ip ip' (by rwa [← h.ref]) (by rwa [← h.ref])
    (by rwa [← h.inum, ← h.inum])
  coherent ip hl := by
    obtain ⟨ht, hs, hne⟩ := hI.coherent ip ((h.live ip).mp hl)
    rw [h.type, h.size, h.inum, h.itype, h.isize]
    exact ⟨ht, hs, hne⟩
  files := by
    unfold FilesOk
    rw [h.file]
    exact hI.files
  held ip := by
    rw [h.holders, h.ref]
    exact hI.held ip
  dirs hD d hd := by
    unfold SlotsUnique
    rw [h.type] at hd
    rw [h.size, h.slot]
    exact hI.dirs hD d hd

/-- Every entry referenced and valid in `s` still is in `s'`, holding the
same inode. -/
def KeepsLive (s s' : Fs) : Prop :=
  ∀ ip, s.Live ip → s'.Live ip ∧ (s'.inode ip).inum = (s.inode ip).inum

theorem KeepsLive.refl (s : Fs) : KeepsLive s s := fun _ hl => ⟨hl, rfl⟩

theorem KeepsLive.trans (h₁ : KeepsLive s₁ s₂) (h₂ : KeepsLive s₂ s₃) : KeepsLive s₁ s₃ :=
  fun ip hl => ⟨(h₂ ip (h₁ ip hl).1).1, (h₂ ip (h₁ ip hl).1).2.trans (h₁ ip hl).2⟩

theorem Agree.keepsLive (h : Agree s s') : KeepsLive s s' :=
  fun ip hl => ⟨(h.live ip).mpr hl, h.inum ip⟩

/-! ## Changes of one entry -/

/-- The invariant after one entry of the table changes, from what the new
entry satisfies. -/
theorem Inv.modifyInode (hI : s.Inv ex D) (ip : Fin NINODE) (f : Inode → Inode) (ex' : Fin NINODE → Int)
    (hunique : 0 < (f (s.inode ip)).ref →
      ∀ y ≠ ip, 0 < (s.inode y).ref → (s.inode y).inum ≠ (f (s.inode ip)).inum)
    (hcoh : (f (s.inode ip)).valid = true → 0 < (f (s.inode ip)).ref →
      (s.dinode (f (s.inode ip)).inum).type = (f (s.inode ip)).d.type ∧
      (s.dinode (f (s.inode ip)).inum).size = (f (s.inode ip)).d.size ∧ (f (s.inode ip)).d.type ≠ 0)
    (hheld : s.holders ip + ex' ip = (f (s.inode ip)).ref) (hex : ∀ y ≠ ip, ex' y = ex y) :
    (s.modifyInode ip f).Inv ex' D where
  unique a b ha hb he := by
    simp only [modifyInode_inode] at ha hb he
    by_cases hai : a = ip <;> by_cases hbi : b = ip <;> simp only [hai, hbi, if_true, if_false] at ha hb he
    · rw [hai, hbi]
    · exact absurd he.symm (hunique ha b hbi hb)
    · exact absurd he (hunique hb a hai ha)
    · exact hI.unique a b ha hb he
  coherent y hl := by
    unfold Live at hl
    simp only [modifyInode_inode, modifyInode_dinode] at hl ⊢
    by_cases hy : y = ip
    · simp only [hy, if_true] at hl ⊢
      exact hcoh hl.1 hl.2
    · simp only [hy, if_false] at hl ⊢
      exact hI.coherent y hl
  files := hI.files
  held y := by
    rw [holders_modifyInode, modifyInode_inode]
    by_cases hy : y = ip
    · subst hy
      simpa using hheld
    · simp only [hy, if_false, hex y hy]
      exact hI.held y
  dirs := hI.dirs

/-- `iget` takes a reference on the entry it returns, which holds `inum`,
and keeps every live entry. -/
theorem iget_inv {inum : Nat} {ip : Fin NINODE} (hI : s.Inv ex D) (h : iget inum s = .ok (ip, s')) :
    s'.Inv (ex + Pi.single ip 1) D ∧ KeepsLive s s' ∧ (s'.inode ip).inum = inum := by
  have hex : ∀ y ≠ ip, (ex + Pi.single ip 1 : Fin NINODE → Int) y = ex y := fun y hy => by simp [hy]
  rcases iget_spec h with ⟨hr, hinum, rfl⟩ | ⟨hnone, hr, rfl⟩
  · -- the entry already held `inum`
    refine ⟨hI.modifyInode ip _ _ (fun _ y hy hry => hI.inum_ne hy hr hry)
      (fun hv _ => hI.coherent ip ⟨hv, hr⟩) (by have := hI.held ip; simp; omega) hex, ?_,
      by simpa using hinum⟩
    intro y hl
    by_cases hy : y = ip
    · subst hy
      unfold Live at hl
      simp only [Live, modifyInode_inode, if_true, and_true]
      exact ⟨hl.1, by omega⟩
    · simpa [Live, hy] using hl
  · -- a free entry recycled for `inum`, not yet valid
    refine ⟨hI.modifyInode ip _ _ (fun _ y _ hry => hnone y hry) (fun hv _ => by simp at hv)
      (by have := hI.held ip; simp; omega) hex, ?_, by simp⟩
    intro y hl
    have hy : y ≠ ip := fun hy => by subst hy; unfold Live at hl; omega
    simpa [Live, hy] using hl

/-- `idup` of a referenced entry takes one more reference. -/
theorem idup_inv {ip : Fin NINODE} (hI : s.Inv ex D) (hr : 0 < (s.inode ip).ref) :
    (s.modifyInode ip fun e => { e with ref := e.ref + 1 }).Inv (ex + Pi.single ip 1) D :=
  hI.modifyInode ip _ _ (fun _ y hy hry => hI.inum_ne hy hr hry)
    (fun hv _ => hI.coherent ip ⟨hv, hr⟩) (by have := hI.held ip; simp; omega) fun y hy => by simp [hy]

/-- `ilock` leaves its entry live and coherent. -/
theorem ilock_inv {ip : Fin NINODE} {u : Unit} (hI : s.Inv ex D) (h : ilock ip s = .ok (u, s')) :
    s'.Inv ex D ∧ KeepsLive s s' ∧ s'.Live ip ∧ (s'.inode ip).inum = (s.inode ip).inum := by
  obtain ⟨hr, ⟨hv, rfl⟩ | ⟨hv, htype, rfl⟩⟩ := ilock_spec h
  · exact ⟨hI, KeepsLive.refl _, ⟨hv, by omega⟩, rfl⟩
  · -- the entry is read from disk
    refine ⟨hI.modifyInode ip _ _ (fun _ y hy hry => hI.inum_ne hy (by omega) hry)
      (fun _ _ => ⟨rfl, rfl, htype⟩) (by simpa using hI.held ip) (fun _ _ => rfl), ?_, ?_, by simp⟩
    · intro y hl
      by_cases hy : y = ip
      · subst hy
        unfold Live at hl
        simp [hv] at hl
      · simpa [Live, hy] using hl
    · unfold Live
      simp
      omega

/-- `iupdate` of a live entry changes nothing the invariant reads. -/
theorem Inv.writeBack_agree (hI : s.Inv ex D) {ip : Fin NINODE} (hl : s.Live ip) :
    Agree s (s.writeBack ip) :=
  Agree.writeBack s ip (hI.coherent ip hl).1 (hI.coherent ip hl).2.1

theorem writeBack_modifyInode_comm (s : Fs) (ip : Fin NINODE) (f : Inode → Inode)
    (hinum : (f (s.inode ip)).inum = (s.inode ip).inum) (hd : (f (s.inode ip)).d = (s.inode ip).d) :
    (s.writeBack ip).modifyInode ip f = (s.modifyInode ip f).writeBack ip := by
  unfold writeBack modifyInode
  simp [hinum, hd]

/-- A live entry changed and written back: the invariant holds when the new
entry, if still live, has a type, and when the directory it now describes
has distinct names. -/
theorem Inv.modify_writeBack (hI : s.Inv ex D) {ip : Fin NINODE} (hl : s.Live ip) (f : Inode → Inode)
    (ex' : Fin NINODE → Int) (hinum : (f (s.inode ip)).inum = (s.inode ip).inum)
    (htype : (f (s.inode ip)).valid = true → 0 < (f (s.inode ip)).ref → (f (s.inode ip)).d.type ≠ 0)
    (hdir : D → (f (s.inode ip)).d.type = T_DIR →
      s.SlotsUnique (s.inode ip).inum ((f (s.inode ip)).d.size / DIRENT_SIZE))
    (hheld : s.holders ip + ex' ip = (f (s.inode ip)).ref) (hex : ∀ y ≠ ip, ex' y = ex y) :
    ((s.modifyInode ip f).writeBack ip).Inv ex' D where
  unique a b ha hb he := by
    simp only [writeBack_inode, modifyInode_inode] at ha hb he
    by_cases hai : a = ip <;> by_cases hbi : b = ip <;> simp only [hai, hbi, if_true, if_false] at ha hb he
    · rw [hai, hbi]
    · exact absurd (he.symm.trans hinum) (hI.inum_ne hbi hl.2 hb)
    · exact absurd (he.trans hinum) (hI.inum_ne hai hl.2 ha)
    · exact hI.unique a b ha hb he
  coherent y hly := by
    unfold Live at hly
    simp only [writeBack_inode, writeBack_dinode, modifyInode_inode, modifyInode_dinode, if_true, hinum]
      at hly ⊢
    by_cases hy : y = ip
    · simp only [hy, if_true, hinum, Function.update_self, true_and] at hly ⊢
      exact htype hly.1 hly.2
    · simp only [hy, if_false] at hly ⊢
      rw [Function.update_of_ne (hI.inum_ne hy hl.2 hly.2)]
      exact hI.coherent y hly
  files := hI.files
  held y := by
    rw [holders_writeBack, holders_modifyInode, writeBack_inode, modifyInode_inode]
    by_cases hy : y = ip
    · subst hy
      simpa using hheld
    · simp only [hy, if_false, hex y hy]
      exact hI.held y
  dirs hD d hd := by
    simp only [writeBack_dinode, modifyInode_inode, modifyInode_dinode, if_true, hinum] at hd ⊢
    by_cases hdi : d = (s.inode ip).inum
    · subst hdi
      simp only [Function.update_self] at hd ⊢
      exact hdir hD hd
    · simp only [Function.update_of_ne hdi] at hd ⊢
      exact hI.dirs hD d hd

/-- `itrunc` of a live entry keeps the invariant: a directory with no
size has no entries. -/
theorem itrunc_inv {ip : Fin NINODE} {u : Unit} (hI : s.Inv ex D) (hl : s.Live ip)
    (h : itrunc ip s = .ok (u, s')) : s'.Inv ex D ∧ KeepsLive s s' := by
  obtain ⟨s₁, hb, rfl⟩ := itrunc_spec h
  have hagree := Agree.of_blockStep hb
  have hI₁ := hI.agree hagree
  have hl₁ := (hagree.live ip).mpr hl
  refine ⟨hI₁.modify_writeBack hl₁ _ ex rfl (fun _ _ => (hI₁.coherent ip hl₁).2.2)
    (fun _ _ j hj => by simp at hj) (by have := hI₁.held ip; simp; omega) (fun _ _ => rfl), ?_⟩
  refine hagree.keepsLive.trans fun y hly => ?_
  by_cases hy : y = ip
  · subst hy
    exact ⟨by simpa [truncate, Live] using hly, by simp [truncate]⟩
  · exact ⟨by simpa [truncate, Live, hy] using hly, by simp [truncate, hy]⟩

/-- `iput` gives back one reference; when it frees the inode, the entry is
left with no reference and the inode with no type. -/
theorem iput_inv {ip : Fin NINODE} {u : Unit} (hI : s.Inv ex D) (h : iput ip s = .ok (u, s')) :
    s'.Inv (ex - Pi.single ip 1) D ∧
      ∀ y, s.Live y → (y ≠ ip ∨ 2 ≤ (s.inode y).ref) → s'.Live y ∧ (s'.inode y).inum = (s.inode y).inum := by
  have hex : ∀ y ≠ ip, (ex - Pi.single ip 1 : Fin NINODE → Int) y = ex y := fun y hy => by simp [hy]
  rcases iput_spec h with ⟨hkeep, rfl⟩ | ⟨hr, hv, -, s₁, hb, rfl⟩
  · -- one reference fewer
    refine ⟨hI.modifyInode ip _ _
      (fun hr y hy hry => hI.inum_ne hy (by simp at hr; omega) hry)
      (fun hv hr => hI.coherent ip ⟨hv, by simp at hr; omega⟩) (by have := hI.held ip; simp; omega) hex, ?_⟩
    intro y hl hy
    by_cases hyi : y = ip
    · subst hyi
      unfold Live at hl
      simp only [Live, modifyInode_inode, if_true, and_true]
      exact ⟨hl.1, by omega⟩
    · simpa [Live, hyi] using hl
  · -- truncated, typed 0, written back, released
    have hagree := Agree.of_blockStep hb
    have hI₁ := hI.agree hagree
    have hl₁ : s₁.Live ip := (hagree.live ip).mpr ⟨hv, by omega⟩
    have hr₁ : (s₁.inode ip).ref = 1 := by rw [hagree.ref]; exact hr
    have hI₂ := hI₁.modify_writeBack hl₁ (fun e => { e with d := { e.d with size := 0 } }) ex rfl
      (fun _ _ => (hI₁.coherent ip hl₁).2.2) (fun _ _ j hj => by simp at hj)
      (by have := hI₁.held ip; simp; omega) (fun _ _ => rfl)
    have hl₂ : (s₁.truncate ip).Live ip := by simpa [truncate, Live] using hl₁
    have hfree : s₁.free ip = ((s₁.truncate ip).modifyInode ip fun e =>
        { e with valid := false, ref := e.ref - 1, d := { e.d with type := 0 } }).writeBack ip := by
      unfold free
      rw [writeBack_modifyInode_comm _ _ _ rfl rfl, modifyInode_modifyInode]
    rw [hfree]
    refine ⟨hI₂.modify_writeBack hl₂ _ _ rfl (fun hv _ => by simp at hv) (fun _ ht => by simp [T_DIR] at ht)
      ?_ hex, ?_⟩
    · have := hI₁.held ip
      simp only [holders_writeBack, holders_modifyInode, writeBack_inode, modifyInode_inode, if_true,
        Pi.sub_apply, Pi.single_eq_same, hr₁] at this ⊢
      omega
    · intro y hly hy
      have hyi : y ≠ ip := by
        rintro rfl
        rcases hy with hy | hy
        · exact hy rfl
        · omega
      have := (hagree.live y).mpr hly
      simp only [Live, truncate, writeBack_inode, modifyInode_inode, hyi, if_false] at this ⊢
      exact ⟨this, hagree.inum y⟩

/-- `ialloc` writes a free inode's type on disk and takes an entry for it;
a new directory has no size and so no entries. -/
theorem ialloc_inv {type : Int16} {r : Option (Fin NINODE)} (hI : s.Inv ex D)
    (h : ialloc type s = .ok (r, s')) :
    (r = none ∧ s' = s) ∨ ∃ ip, r = some ip ∧ s'.Inv (ex + Pi.single ip 1) D ∧ KeepsLive s s' := by
  rcases ialloc_spec h with hnone | ⟨inum, ip, rfl, -, -, hfree, hget⟩
  · exact .inl hnone
  · refine .inr ⟨ip, rfl, ?_⟩
    -- no live entry holds the inode: its type on disk is `0`
    have hne : ∀ y, s.Live y → (s.inode y).inum ≠ inum := fun y hl he => by
      have := hI.coherent y hl
      rw [he, hfree] at this
      exact this.2.2 this.1.symm
    have hI₁ : ({ s with dinode := Function.update s.dinode inum { DInode.zero with type := type } } : Fs).Inv ex D :=
      { unique := hI.unique
        coherent := fun y hl => by
          simp only [Function.update_of_ne (hne y hl)]
          exact hI.coherent y hl
        files := hI.files
        held := hI.held
        dirs := fun hD d hd => by
          by_cases hd' : d = inum
          · subst hd'
            intro j hj
            simp [DInode.zero] at hj
          · simp only [Function.update_of_ne hd'] at hd ⊢
            exact hI.dirs hD d hd }
    obtain ⟨hI', hkeep, -⟩ := iget_inv hI₁ hget
    exact ⟨hI', fun y hl => hkeep y hl⟩


theorem KeepsLive.of_inode_eq (h : s'.inode = s.inode) : KeepsLive s s' := fun ip hl => by
  unfold Live at hl ⊢
  rw [h]
  exact ⟨hl, rfl⟩

/-- A change of an entry that keeps it valid, referenced and on its inode. -/
theorem KeepsLive.modifyInode (s : Fs) (ip : Fin NINODE) (f : Inode → Inode)
    (hf : (f (s.inode ip)).inum = (s.inode ip).inum ∧ (f (s.inode ip)).ref = (s.inode ip).ref ∧
      (f (s.inode ip)).valid = (s.inode ip).valid) : KeepsLive s (s.modifyInode ip f) := fun y hl => by
  by_cases hy : y = ip
  · subst hy
    unfold Live at hl ⊢
    simp only [modifyInode_inode, if_true, hf]
    exact ⟨hl, trivial⟩
  · simpa [Live, hy] using hl

/-- `iget` followed by `iput` of what it returned, as `dirlookup` and
`dirlink` do for a name that is present: the references are as they were,
and no live entry is lost. -/
theorem iget_iput_inv {inum : Nat} {ip : Fin NINODE} {u : Unit} (hI : s.Inv ex D)
    (h₁ : iget inum s = .ok (ip, s₁)) (h₂ : iput ip s₁ = .ok (u, s₂)) : s₂.Inv ex D ∧ KeepsLive s s₂ := by
  obtain ⟨hI₁, hkeep₁, -⟩ := iget_inv hI h₁
  obtain ⟨hI₂, hkeep₂⟩ := iput_inv hI₁ h₂
  refine ⟨by simpa using hI₂, fun y hl => ?_⟩
  obtain ⟨hl₁, hinum₁⟩ := hkeep₁ y hl
  -- the entry `iput` releases is either another one, or a cached one counted twice
  have hy : y ≠ ip ∨ 2 ≤ (s₁.inode y).ref := by
    by_cases hyi : y = ip
    · subst hyi
      rcases iget_spec h₁ with ⟨hr, -, rfl⟩ | ⟨-, hr, -⟩
      · right
        simp only [modifyInode_inode, if_true]
        omega
      · exact absurd hl.2 (by omega)
    · exact .inl hyi
  obtain ⟨hl₂, hinum₂⟩ := hkeep₂ y hl₁ hy
  exact ⟨hl₂, hinum₂.trans hinum₁⟩

/-! ## Writing a directory entry -/

theorem slot_writeBytes_ne (s : Fs) {d d' : Nat} (off len : Nat) (src : List UInt8) (so : Nat) (hd : d' ≠ d) :
    (s.writeBytes d off len src so).slot d' = s.slot d' := by
  funext j
  unfold slot Fs.writeBytes
  dsimp only
  rw [Function.update_of_ne hd]

/-- The sixteen bytes of an entry written at slot `k` are what slot `k`
reads, and the other slots read as before. -/
theorem slot_writeDirent (s : Fs) (d k : Nat) (de : Dirent) (hlen : de.name.length = DIRSIZ) (j : Nat) :
    (s.writeBytes d (k * DIRENT_SIZE) DIRENT_SIZE de.encode 0).slot d j =
      if j = k then de else s.slot d j := by
  unfold slot Fs.writeBytes
  simp only [Function.update_self]
  have hsz : DIRENT_SIZE = 16 := rfl
  by_cases hj : j = k
  · subst hj
    rw [if_pos rfl]
    have hbytes : ((List.range DIRENT_SIZE).map fun i =>
        if j * DIRENT_SIZE ≤ j * DIRENT_SIZE + i ∧ j * DIRENT_SIZE + i < j * DIRENT_SIZE + DIRENT_SIZE then
          de.encode.getD (0 + (j * DIRENT_SIZE + i - j * DIRENT_SIZE)) 0
        else s.data d (j * DIRENT_SIZE + i)) = de.encode := by
      apply List.ext_getElem
      · simp [Dirent.length_encode, hlen, DIRENT_SIZE]
      · intro i h₁ h₂
        simp only [List.getElem_map, List.getElem_range, List.length_map, List.length_range] at h₁ ⊢
        rw [if_pos (by omega), List.getD_eq_getElem?_getD, List.getElem?_eq_getElem (by omega)]
        simp only [Option.getD_some]
        congr 1
        omega
    rw [hbytes, Dirent.decode_encode de hlen]
  · rw [if_neg hj]
    congr 1
    apply List.map_congr_left
    intro i hi
    rw [List.mem_range] at hi
    -- slots `j` and `k` do not overlap
    rw [if_neg]
    rintro ⟨h₁, h₂⟩
    apply hj
    rw [hsz] at h₁ h₂ hi
    omega

theorem namecmp_symm {a b : List UInt8} (h : namecmp a b = 0) : namecmp b a = 0 := by
  rw [namecmp_eq_zero_iff] at h ⊢
  exact h.symm

theorem SlotsUnique.mono {d n n' : Nat} (h : s.SlotsUnique d n') (hn : n ≤ n') : s.SlotsUnique d n :=
  fun j hj k hk => h j (by omega) k (by omega)

/-- Writing an entry at slot `k ≤ n` keeps the names distinct, if a used
entry's name is not that of another used entry. -/
theorem SlotsUnique.writeDirent {d n k : Nat} {de : Dirent} (h : s.SlotsUnique d n)
    (hlen : de.name.length = DIRSIZ) (hk : k ≤ n)
    (hfresh : de.inum ≠ 0 → ∀ j < n, j ≠ k → (s.slot d j).inum ≠ 0 → namecmp de.name (s.slot d j).name ≠ 0) :
    (s.writeBytes d (k * DIRENT_SIZE) DIRENT_SIZE de.encode 0).SlotsUnique d (max n (k + 1)) := by
  intro a ha b hb hua hub hab
  simp only [slot_writeDirent _ _ _ _ hlen] at hua hub hab
  by_cases hak : a = k <;> by_cases hbk : b = k <;> simp only [hak, hbk, if_true, if_false] at hua hub hab
  · rw [hak, hbk]
  · exact absurd hab (hfresh hua b (by omega) hbk hub)
  · exact absurd (namecmp_symm hab) (hfresh hub a (by omega) hak hua)
  · exact h a (by omega) b (by omega) hua hub hab

/-- Writing bytes keeps the invariant when the directory written keeps its
names distinct. -/
theorem Inv.writeBytes (hI : s.Inv ex D) (d off len : Nat) (src : List UInt8) (so : Nat)
    (hdir : D → (s.dinode d).type = T_DIR →
      (s.writeBytes d off len src so).SlotsUnique d ((s.dinode d).size / DIRENT_SIZE)) :
    (s.writeBytes d off len src so).Inv ex D where
  unique := hI.unique
  coherent := hI.coherent
  files := hI.files
  held := hI.held
  dirs hD d' hd := by
    by_cases hd' : d' = d
    · subst hd'
      exact hdir hD hd
    · unfold SlotsUnique
      rw [slot_writeBytes_ne s off len src so hd']
      exact hI.dirs hD d' hd

/-- `writei` of one entry at slot `k` of a live entry, as `dirlink` and
`sys_unlink` do: the invariant holds if the entry, when used, names no
other used entry's name. -/
theorem writei_dirent_inv {dp : Fin NINODE} {k : Nat} {de : Dirent} {w : Int} (hI : s.Inv ex D)
    (hl : s.Live dp) (hlen : de.name.length = DIRSIZ) (hk : k ≤ (s.inode dp).d.size / DIRENT_SIZE)
    (hfresh : de.inum ≠ 0 → ∀ j < (s.inode dp).d.size / DIRENT_SIZE, j ≠ k →
      (s.slot (s.inode dp).inum j).inum ≠ 0 → namecmp de.name (s.slot (s.inode dp).inum j).name ≠ 0)
    (h : writei dp de.encode (k * DIRENT_SIZE) DIRENT_SIZE s = .ok (w, s')) :
    s'.Inv ex D ∧ KeepsLive s s' := by
  rcases writei_spec h with ⟨-, rfl⟩ | ⟨hoff, -, tot, s₁, -, -, hblock, hb, rfl⟩
  · exact ⟨hI, KeepsLive.refl _⟩
  have hagree := Agree.of_blockStep hb
  have hI₁ := hI.agree hagree
  have hl₁ := (hagree.live dp).mpr hl
  obtain ⟨hinum, -, -, htype, -, hsize⟩ := hb.entry dp
  have hslot := hb.slot
  obtain ⟨hdt, hds, hne⟩ := hI.coherent dp hl
  have hsz : DIRENT_SIZE = 16 := rfl
  have hwhole : tot = 0 ∨ tot = DIRENT_SIZE := hblock (by simp only [hsz, BSIZE]; omega)
  have hkeep : KeepsLive s₁ (((s₁.writeBytes (s.inode dp).inum (k * DIRENT_SIZE) tot de.encode 0).modifyInode dp
      fun e => { e with d := { e.d with size := max e.d.size (k * DIRENT_SIZE + tot) } }).writeBack dp) :=
    fun y hly => KeepsLive.modifyInode (s₁.writeBytes (s.inode dp).inum (k * DIRENT_SIZE) tot de.encode 0) dp
      (fun e => { e with d := { e.d with size := max e.d.size (k * DIRENT_SIZE + tot) } }) ⟨rfl, rfl, rfl⟩ y hly
  refine ⟨?_, hagree.keepsLive.trans hkeep⟩
  rcases hwhole with rfl | rfl
  · -- nothing written: the size stays
    rw [Fs.writeBytes_zero]
    refine hI₁.modify_writeBack hl₁ _ ex rfl (fun _ _ => (hI₁.coherent dp hl₁).2.2) (fun hD ht => ?_)
      (hI₁.held dp) (fun _ _ => rfl)
    have hmax : max (s₁.inode dp).d.size (k * DIRENT_SIZE + 0) = (s₁.inode dp).d.size := by
      rw [hsize]
      omega
    obtain ⟨hdt₁, hds₁, -⟩ := hI₁.coherent dp hl₁
    rw [hmax, ← hds₁]
    exact hI₁.dirs hD _ (hdt₁.trans ht)
  · -- the entry written at slot `k`
    have huniq : D → (s₁.inode dp).d.type = T_DIR →
        (s₁.writeBytes (s.inode dp).inum (k * DIRENT_SIZE) DIRENT_SIZE de.encode 0).SlotsUnique
          (s.inode dp).inum (max ((s.inode dp).d.size / DIRENT_SIZE) (k + 1)) := fun hD ht => by
      have hold := hI.dirs hD (s.inode dp).inum (hdt.trans (htype.symm.trans ht))
      rw [hds] at hold
      rw [← hslot] at hfresh
      exact SlotsUnique.writeDirent (by unfold SlotsUnique; rw [hslot]; exact hold) hlen hk hfresh
    have hI₂ := hI₁.writeBytes (s.inode dp).inum (k * DIRENT_SIZE) DIRENT_SIZE de.encode 0 fun hD ht => by
      have hdt₁ := (hI₁.coherent dp hl₁).1
      rw [hinum] at hdt₁
      refine (huniq hD (hdt₁.symm.trans ht)).mono ?_
      rw [hb.fields.2.1, hds]
      exact le_max_left _ _
    refine hI₂.modify_writeBack hl₁ _ ex rfl (fun _ _ => (hI₁.coherent dp hl₁).2.2) (fun hD ht => ?_)
      (hI₂.held dp) (fun _ _ => rfl)
    have hmax : max (s₁.inode dp).d.size (k * DIRENT_SIZE + DIRENT_SIZE) / DIRENT_SIZE =
        max ((s.inode dp).d.size / DIRENT_SIZE) (k + 1) := by
      rw [hsize, hsz]
      omega
    change (s₁.writeBytes (s.inode dp).inum (k * DIRENT_SIZE) DIRENT_SIZE de.encode 0).SlotsUnique
      (s₁.inode dp).inum (max (s₁.inode dp).d.size (k * DIRENT_SIZE + DIRENT_SIZE) / DIRENT_SIZE)
    rw [hmax, hinum]
    exact huniq hD ht


/-! ## Current directories and open files -/

/-- A current directory holds a reference. -/
theorem Inv.ref_pos_of_cwd (hI : s.Inv ex D) {p : Fin NPROC} {ip : Fin NINODE} (h : s.cwd p = some ip)
    (hex : 0 ≤ ex ip) : 0 < (s.inode ip).ref := by
  have hone : (1 : Int) ≤ ∑ q, if s.cwd q = some ip then 1 else 0 := by
    have := Finset.single_le_sum
      (fun q _ => (by split <;> omega : (0 : Int) ≤ if s.cwd q = some ip then 1 else 0)) (Finset.mem_univ p)
    simpa [h] using this
  have hfile : (0 : Int) ≤ ∑ f, if (s.file f).Holds ip then 1 else 0 :=
    Finset.sum_nonneg fun f _ => by split <;> omega
  have := hI.held ip
  unfold holders at this
  omega

/-- Setting a current directory moves its holder into or out of what the
call holds. -/
theorem Inv.setCwd (hI : s.Inv ex D) (p : Fin NPROC) (v : Option (Fin NINODE)) (ex' : Fin NINODE → Int)
    (hex : ∀ y, ex' y + (if v = some y then 1 else 0) = ex y + (if s.cwd p = some y then 1 else 0)) :
    ({ s with cwd := Function.update s.cwd p v } : Fs).Inv ex' D where
  unique := hI.unique
  coherent := hI.coherent
  files := hI.files
  held y := by
    rw [holders_setCwd]
    have := hI.held y
    have := hex y
    dsimp only
    omega
  dirs := hI.dirs

/-- Changing an open file moves its holder into or out of what the call
holds. -/
theorem Inv.modifyFile (hI : s.Inv ex D) (f : Fin NFILE) (g : File → File) (ex' : Fin NINODE → Int)
    (hfile : 0 ≤ (g (s.file f)).ref ∧ ((g (s.file f)).ref = 0 → (g (s.file f)).type = .FD_NONE))
    (hex : ∀ y, ex' y + (if (g (s.file f)).Holds y then 1 else 0) =
      ex y + (if (s.file f).Holds y then 1 else 0)) :
    (s.modifyFile f g).Inv ex' D where
  unique := hI.unique
  coherent := hI.coherent
  files x := by
    unfold Fs.modifyFile
    by_cases hx : x = f
    · subst hx
      simpa using hfile
    · simpa [Function.update_of_ne hx] using hI.files x
  held y := by
    rw [holders_modifyFile]
    have := hI.held y
    have := hex y
    change _ = (s.inode y).ref
    omega
  dirs := hI.dirs

/-- `iunlockput` is `iput` of a referenced entry. -/
theorem iunlockput_inv {ip : Fin NINODE} {u : Unit} (hI : s.Inv ex D) (h : iunlockput ip s = .ok (u, s')) :
    s'.Inv (ex - Pi.single ip 1) D ∧
      ∀ y, s.Live y → (y ≠ ip ∨ 2 ≤ (s.inode y).ref) → s'.Live y ∧ (s'.inode y).inum = (s.inode y).inum :=
  iput_inv hI (iunlockput_spec h).2

/-- `iget` changes no entry's copy of its inode. -/
theorem iget_d {inum : Nat} {ip : Fin NINODE} (h : iget inum s = .ok (ip, s')) (y : Fin NINODE) :
    (s'.inode y).d = (s.inode y).d := by
  rcases iget_spec h with ⟨-, -, rfl⟩ | ⟨-, -, rfl⟩ <;>
  · rw [modifyInode_inode]
    split <;> simp_all

/-- `ilock` leaves a valid entry as it is. -/
theorem ilock_of_valid {ip y : Fin NINODE} {u : Unit} (h : ilock ip s = .ok (u, s'))
    (hv : (s.inode y).valid = true) : s'.inode y = s.inode y := by
  obtain ⟨-, ⟨-, rfl⟩ | ⟨hv', -, rfl⟩⟩ := ilock_spec h
  · rfl
  · have hy : y ≠ ip := fun hy => by subst hy; simp [hv] at hv'
    simp [hy]


/-- `iput` leaves the current directories alone. -/
theorem iput_cwd {ip : Fin NINODE} {u : Unit} (h : iput ip s = .ok (u, s')) : s'.cwd = s.cwd := by
  rcases iput_spec h with ⟨-, rfl⟩ | ⟨-, -, -, s₁, hb, rfl⟩
  · rfl
  · exact hb.fields.2.2.2.2.1


theorem iget_cwd {inum : Nat} {ip : Fin NINODE} (h : iget inum s = .ok (ip, s')) : s'.cwd = s.cwd := by
  rcases iget_spec h with ⟨-, -, rfl⟩ | ⟨-, -, rfl⟩ <;> rfl

theorem ilock_cwd {ip : Fin NINODE} {u : Unit} (h : ilock ip s = .ok (u, s')) : s'.cwd = s.cwd := by
  obtain ⟨-, ⟨-, rfl⟩ | ⟨-, -, rfl⟩⟩ := ilock_spec h <;> rfl

/-- A change of a live entry's fields other than those the invariant reads,
written back, as `iupdate` after a change of the link count. -/
theorem Inv.agree_modify_writeBack (hI : s.Inv ex D) {ip : Fin NINODE} (hl : s.Live ip) (f : Inode → Inode)
    (hf : (f (s.inode ip)).key = (s.inode ip).key) : Agree s ((s.modifyInode ip f).writeBack ip) := by
  have h₁ := Agree.modifyInode s ip f hf
  exact h₁.trans ((hI.agree h₁).writeBack_agree ((h₁.live ip).mpr hl))

/-! ## Giving references back -/

/-- `iput` of an entry the call holds gives that reference back. -/
theorem iput_release {ip : Fin NINODE} {u : Unit} (hI : s.Inv (ex + Pi.single ip 1) D)
    (h : iput ip s = .ok (u, s')) : s'.Inv ex D := by
  have hI' := (iput_inv hI h).1
  rwa [add_sub_cancel_right] at hI'

theorem iunlockput_release {ip : Fin NINODE} {u : Unit} (hI : s.Inv (ex + Pi.single ip 1) D)
    (h : iunlockput ip s = .ok (u, s')) : s'.Inv ex D :=
  iput_release hI (iunlockput_spec h).2

/-- The last reference a call holds, given back. -/
theorem iunlockput_release_last {ip : Fin NINODE} {u : Unit} (hI : s.Inv (Pi.single ip 1) D)
    (h : iunlockput ip s = .ok (u, s')) : s'.Inv 0 D :=
  iunlockput_release (by rwa [zero_add]) h

/-- An entry the call holds after `iput` stays live: twice held if it is
the one put. -/
theorem iput_keeps_held {ip y : Fin NINODE} {u : Unit} (hI : s.Inv ex D) (h : iput ip s = .ok (u, s'))
    (hl : s.Live y) (hy : y = ip → 2 ≤ ex ip) : s'.Live y ∧ (s'.inode y).inum = (s.inode y).inum := by
  refine (iput_inv hI h).2 y hl ?_
  by_cases hyi : y = ip
  · subst hyi
    have := hI.ex_le_ref y
    have := hy rfl
    exact .inr (by omega)
  · exact .inl hyi

/-- A change of a live entry's link count or device numbers followed by
`iupdate`, as `create`, `sys_link` and `sys_unlink` make. -/
theorem modify_iupdate_agree (hI : s.Inv ex D) {ip : Fin NINODE} (hl : s.Live ip) {f : Inode → Inode}
    {u u' : Unit} (h₁ : (modify fun x => x.modifyInode ip f : FsM Unit) s = .ok (u, s₁))
    (h₂ : iupdate ip s₁ = .ok (u', s₂)) (hf : (f (s.inode ip)).key = (s.inode ip).key) : Agree s s₂ := by
  rw [modify_ok h₁, iupdate_run, Except.ok.injEq, Prod.mk.injEq] at h₂
  rw [← h₂.2]
  exact hI.agree_modify_writeBack hl f hf

end Fs

end Xv6
