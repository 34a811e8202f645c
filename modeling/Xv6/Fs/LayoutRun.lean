/-
# `Xv6.Fs.LayoutRun` — the directories' heads over every run

`mkfs` lays out the root: `.` and `..` are its first two `iappend`s, and
every later `iappend` writes past the end of the root or into a file; the
root is its only directory.  From that image, boot and every step of the
machine keep every directory laid out (`Fs.Laid`), with `HeldAlloc` and
the reference invariant carried along; a step keeps the head of every
directory but one a `mkdir` made, whose `..` names the directory
`nameiparent` found (`dir_layout`).

`isdirempty` looks at the slots from the third on: whenever it returns,
it says whether any of them is used, so on a laid-out directory it says
whether it has entries other than `.` and `..`.
-/
import Mathlib.Data.List.GetD
import Mathlib.Tactic.IntervalCases
import Xv6.Fs.LayoutCalls
import Xv6.Fs.Refs

namespace Xv6

open StateExcept

namespace Mkfs

/-! ## The image `mkfs` writes -/

theorem blockFor_type (din : DInode) (fbn : Nat) (img : Image) : (blockFor din fbn img).1.type = din.type := by
  unfold blockFor
  split_ifs <;> dsimp only <;> (try split_ifs) <;> rfl

theorem blockFor_data (din : DInode) (fbn : Nat) (img : Image) : (blockFor din fbn img).2.data = img.data := by
  unfold blockFor
  split_ifs <;> dsimp only <;> (try split_ifs) <;> rfl

theorem blockFor_dinode (din : DInode) (fbn : Nat) (img : Image) :
    (blockFor din fbn img).2.dinode = img.dinode := by
  unfold blockFor
  split_ifs <;> dsimp only <;> (try split_ifs) <;> rfl

theorem blockFor_freeinode (din : DInode) (fbn : Nat) (img : Image) :
    (blockFor din fbn img).2.freeinode = img.freeinode := by
  unfold blockFor
  split_ifs <;> dsimp only <;> (try split_ifs) <;> rfl

/-- The loop of `iappend` writes the bytes of `p` from `off` on into
`inum`, and nothing else but the block map: at least one byte a round, so
that fuel as large as the count writes them all. -/
theorem iappendLoop_spec {inum : Nat} : ∀ {fuel : Nat} {p : List UInt8} {din din' : DInode}
    {off n off' : Nat} {img img' : Image}, iappendLoop inum fuel p din off n img = some (din', off', img') →
    din'.type = din.type ∧ img'.dinode = img.dinode ∧ img'.freeinode = img.freeinode ∧
      off ≤ off' ∧ (n ≤ fuel → off' = off + n) ∧
      ∀ i k, img'.data i k = if i = inum ∧ off ≤ k ∧ k < off' then p.getD (k - off) 0 else img.data i k
  | 0, p, din, din', off, n, off', img, img', h => by
      simp only [iappendLoop, Option.some.injEq, Prod.mk.injEq] at h
      obtain ⟨rfl, rfl, rfl⟩ := h
      exact ⟨rfl, rfl, rfl, le_rfl, fun hn => by omega, fun i k => by rw [if_neg (by omega)]⟩
  | fuel + 1, p, din, din', off, n, off', img, img', h => by
      unfold iappendLoop at h
      split at h
      · simp only [Option.some.injEq, Prod.mk.injEq] at h
        obtain ⟨rfl, rfl, rfl⟩ := h
        exact ⟨rfl, rfl, rfl, le_rfl, fun _ => by omega, fun i k => by rw [if_neg (by omega)]⟩
      rename_i hn
      dsimp only at h
      split at h
      · cases h
      generalize hb : blockFor din (off / BSIZE) img = q at h
      obtain ⟨din₁, img₁⟩ := q
      dsimp only at h
      -- this round writes `n1 ≥ 1` bytes, up to the end of the block
      set n1 := min n ((off / BSIZE + 1) * BSIZE - off) with hn1
      have hbs : BSIZE = 1024 := rfl
      have hn1pos : 1 ≤ n1 := by
        rw [hn1, hbs]
        omega
      have hn1n : n1 ≤ n := min_le_left _ _
      obtain ⟨htype, hdin, hfree, hoff, hall, hdata⟩ := iappendLoop_spec h
      have htype₁ : din₁.type = din.type := by rw [← blockFor_type din (off / BSIZE) img, hb]
      have hdin₁ : img₁.dinode = img.dinode := by rw [← blockFor_dinode din (off / BSIZE) img, hb]
      have hdata₁ : img₁.data = img.data := by rw [← blockFor_data din (off / BSIZE) img, hb]
      have hfree₁ : img₁.freeinode = img.freeinode := by rw [← blockFor_freeinode din (off / BSIZE) img, hb]
      refine ⟨htype.trans htype₁, hdin.trans hdin₁, hfree.trans hfree₁, by omega, fun hfuel => ?_,
        fun i k => ?_⟩
      · have := hall (by omega)
        omega
      rw [hdata]
      dsimp only
      rw [hdata₁]
      by_cases hi : i = inum
      · subst hi
        simp only [Function.update_self, true_and]
        -- the bytes of the rounds after this one, then those of this round
        by_cases hA : off + n1 ≤ k ∧ k < off'
        · rw [if_pos hA, if_pos ⟨by omega, hA.2⟩, List.getD_eq_getElem?_getD, List.getElem?_drop,
            ← List.getD_eq_getElem?_getD]
          congr 1
          omega
        · rw [if_neg hA]
          by_cases hB : off ≤ k ∧ k < off + n1
          · rw [if_pos hB, if_pos ⟨hB.1, by omega⟩]
          · rw [if_neg hB, if_neg (by omega)]
      · simp only [Function.update_of_ne hi, hi, false_and, if_false]

/-- `iappend` writes all of `p` at the end of `inum` and grows it by as
much, leaving every other inode alone. -/
theorem iappend_spec {inum : Nat} {p : List UInt8} {img img' : Image} (h : iappend inum p img = some img') :
    (img'.dinode inum).type = (img.dinode inum).type ∧
      (img'.dinode inum).size = (img.dinode inum).size + p.length ∧
      (∀ i ≠ inum, img'.dinode i = img.dinode i) ∧ img'.freeinode = img.freeinode ∧
      ∀ i k, img'.data i k = if i = inum ∧ (img.dinode inum).size ≤ k ∧ k < (img.dinode inum).size + p.length
        then p.getD (k - (img.dinode inum).size) 0 else img.data i k := by
  unfold iappend at h
  obtain ⟨⟨din, off, img₁⟩, h₁, h⟩ := Option.bind_eq_some_iff.mp h
  obtain rfl := Option.some.inj h
  obtain ⟨htype, hdin, hfree, -, hall, hdata⟩ := iappendLoop_spec h₁
  have hoff := hall le_rfl
  subst hoff
  refine ⟨?_, ?_, fun i hi => ?_, hfree, hdata⟩
  · simp [hdin, htype]
  · simp
  · simp [Function.update_of_ne hi, hdin]

/-- Appending a file's content, `BSIZE` bytes a round, touches only that
file. -/
theorem appendContent_spec {inum : Nat} : ∀ {fuel : Nat} {content : List UInt8} {img img' : Image},
    appendContent inum fuel content img = some img' →
    (∀ i ≠ inum, img'.dinode i = img.dinode i ∧ img'.data i = img.data i) ∧
      (img'.dinode inum).type = (img.dinode inum).type ∧ img'.freeinode = img.freeinode
  | 0, content, img, img', h => by
      obtain rfl := Option.some.inj h
      exact ⟨fun _ _ => ⟨rfl, rfl⟩, rfl, rfl⟩
  | fuel + 1, content, img, img', h => by
      unfold appendContent at h
      split at h
      · obtain rfl := Option.some.inj h
        exact ⟨fun _ _ => ⟨rfl, rfl⟩, rfl, rfl⟩
      obtain ⟨img₁, h₁, h⟩ := Option.bind_eq_some_iff.mp h
      obtain ⟨htype₁, -, hdin₁, hfree₁, hdata₁⟩ := iappend_spec h₁
      obtain ⟨hrest, htype, hfree⟩ := appendContent_spec h
      refine ⟨fun i hi => ⟨(hrest i hi).1.trans (hdin₁ i hi), ?_⟩, htype.trans htype₁, hfree.trans hfree₁⟩
      funext k
      rw [(hrest i hi).2, hdata₁, if_neg fun h' => hi h'.1]

/-- The bytes of `.` and `..` naming the root, as `mkfs` appends them. -/
def rootHead : List UInt8 := (Dirent.named DOT ROOTINO).encode ++ (Dirent.named DOTDOT ROOTINO).encode

attribute [grind] rootHead

/-- What `mkfs` keeps of the root while it adds files: the root is
allocated, a directory starting with `.` and `..`, and the only one. -/
structure Image.RootLaid (img : Image) : Prop where
  free : ROOTINO < img.freeinode
  type : (img.dinode ROOTINO).type = T_DIR
  size : 2 * DIRENT_SIZE ≤ (img.dinode ROOTINO).size
  head : ∀ k < 2 * DIRENT_SIZE, img.data ROOTINO k = rootHead.getD k 0
  others : ∀ i ≠ ROOTINO, (img.dinode i).type ≠ T_DIR

/-- Adding a file allocates a plain file past the root and appends its
entry past the root's head. -/
theorem rootLaid_addFile {img img' : Image} {file : List UInt8 × List UInt8} (hR : img.RootLaid)
    (h : addFile ROOTINO img file = some img') : img'.RootLaid := by
  unfold addFile at h
  obtain ⟨name, -, h⟩ := Option.bind_eq_some_iff.mp h
  obtain ⟨img₂, h₂, h₃⟩ := Option.bind_eq_some_iff.mp h
  have hne : img.freeinode ≠ ROOTINO := (Nat.ne_of_lt hR.free).symm
  obtain ⟨htype₂, hsize₂, hdin₂, hfree₂, hdata₂⟩ := iappend_spec h₂
  obtain ⟨hdin₃, htype₃, hfree₃⟩ := appendContent_spec h₃
  simp only [Function.update_of_ne hne.symm] at htype₂ hsize₂ hdin₂ hfree₂ hdata₂ htype₃
  obtain ⟨hroot₃, hrootdata₃⟩ := hdin₃ ROOTINO hne.symm
  refine ⟨?_, ?_, ?_, fun k hk => ?_, fun i hi => ?_⟩
  · rw [hfree₃, hfree₂]
    exact Nat.lt_succ_of_lt hR.free
  · rw [hroot₃, htype₂]
    exact hR.type
  · rw [hroot₃, hsize₂]
    exact le_add_right hR.size
  · -- the entry lands at the root's old size, past its head
    rw [hrootdata₃, hdata₂, if_neg fun h' => by have := hR.size; omega]
    exact hR.head k hk
  · by_cases hi' : i = img.freeinode
    · subst hi'
      rw [htype₃, hdin₂ _ hne, Function.update_self]
      decide
    · rw [(hdin₃ i hi').1, hdin₂ i hi, Function.update_of_ne hi']
      exact hR.others i hi

theorem rootLaid_foldlM {files : List (List UInt8 × List UInt8)} :
    ∀ {img img' : Image}, img.RootLaid → files.foldlM (addFile ROOTINO) img = some img' → img'.RootLaid := by
  induction files with
  | nil =>
    intro img img' hR h
    rwa [← Option.some.inj h]
  | cons file files ih =>
    intro img img' hR h
    obtain ⟨img₁, h₁, h⟩ := Option.bind_eq_some_iff.mp h
    exact ih (rootLaid_addFile hR h₁) h

theorem length_named_encode (name : List UInt8) (inum : Nat) : (Dirent.named name inum).encode.length = DIRENT_SIZE := by
  rw [Dirent.length_encode, Dirent.length_named]
  rfl

/-- `mkfs` starts the root with `.` and `..`, and the files it adds keep
that. -/
theorem main_rootLaid {files : List (List UInt8 × List UInt8)} {img : Image} (h : main files = some img) :
    img.RootLaid := by
  unfold main at h
  simp only [ialloc, ROOTINO, ne_eq, not_true_eq_false, if_false] at h
  obtain ⟨img₁, h₁, h⟩ := Option.bind_eq_some_iff.mp h
  obtain ⟨img₂, h₂, h⟩ := Option.bind_eq_some_iff.mp h
  obtain ⟨img₃, h₃, h⟩ := Option.bind_eq_some_iff.mp h
  split_ifs at h
  · cases h
  obtain rfl := Option.some.inj h
  have hsz : DIRENT_SIZE = 16 := rfl
  have hr : ROOTINO = 1 := rfl
  have hlen := length_named_encode DOT ROOTINO
  have he (name : List UInt8) : Dirent.encode ⟨UInt16.ofNat 1, strncpy name DIRSIZ⟩ =
      (Dirent.named name ROOTINO).encode := rfl
  rw [he] at h₁ h₂
  obtain ⟨htype₁, hsize₁, hdin₁, hfree₁, hdata₁⟩ := iappend_spec h₁
  obtain ⟨htype₂, hsize₂, hdin₂, hfree₂, hdata₂⟩ := iappend_spec h₂
  have hz : DInode.zero.size = 0 := rfl
  simp only [Function.update_self, length_named_encode, hz, zero_add] at htype₁ hsize₁ hdata₁ hsize₂ hdata₂
  -- the root after `.` and `..`
  have hR₂ : img₂.RootLaid := by
    refine ⟨?_, ?_, ?_, fun k hk => ?_, fun i hi => ?_⟩
    · rw [hfree₂, hfree₁]
      decide
    · rw [hr, htype₂, htype₁]
    · rw [hr, hsize₂, hsize₁]
      omega
    · rw [hr, hdata₂, hdata₁, hsize₁]
      simp only [true_and, zero_le, Nat.sub_zero, rootHead]
      rw [hsz] at hk hlen ⊢
      by_cases hk₁ : k < 16
      · rw [if_neg (by omega), if_pos hk₁, List.getD_append _ _ _ _ (by omega)]
      · rw [if_pos ⟨by omega, by omega⟩, List.getD_append_right _ _ _ _ (by omega), hlen]
    · rw [hdin₂ i hi, hdin₁ i hi]
      dsimp only
      rw [Function.update_of_ne (show i ≠ 1 from hi)]
      decide
  have hR₃ := rootLaid_foldlM hR₂ h₃
  -- the size fix keeps everything but the root's size, which only grows
  refine ⟨hR₃.free, ?_, ?_, hR₃.head, fun i hi => ?_⟩
  · simpa [hr] using hR₃.type
  · simp only [hr, Function.update_self]
    have := hR₃.size
    have hb : BSIZE = 1024 := rfl
    rw [hb, ← hr]
    omega
  · dsimp only
    rw [Function.update_of_ne (show i ≠ 1 from hi)]
    exact hR₃.others i hi

/-! ## The disk the kernel boots from -/

/-- The root's first two slots on the disk, read back from `rootHead`. -/
theorem Image.RootLaid.heads {img : Image} (hR : img.RootLaid) : img.disk.Heads ROOTINO ROOTINO := by
  have hsz : DIRENT_SIZE = 16 := rfl
  -- a slot of the head reads only bytes `rootHead` gives
  have hslot (k : Nat) (hk : k < 2) : img.disk.slot ROOTINO k =
      Dirent.decode ((List.range DIRENT_SIZE).map fun i => rootHead.getD (k * DIRENT_SIZE + i) 0) := by
    unfold Fs.slot
    congr 1
    refine List.map_congr_left fun i hi => hR.head _ ?_
    rw [List.mem_range] at hi
    rw [hsz] at hi ⊢
    interval_cases k <;> omega
  refine ⟨⟨by decide, by decide⟩, ⟨by decide, by decide⟩, hR.size, ?_, ?_⟩
  · rw [hslot 0 (by decide)]
    rfl
  · rw [hslot 1 (by decide)]
    rfl

theorem Image.RootLaid.disk_laid {img : Image} (hR : img.RootLaid) : img.disk.Laid where
  ninodes := show NINODES ≤ 2 ^ 16 by decide
  dirs d hd := by
    by_cases hd' : d = ROOTINO
    · subst hd'
      exact ⟨ROOTINO, hR.heads⟩
    · exact absurd hd (hR.others d hd')

/-- Boot finds the root in the first entry of the table and makes it the
first process's current directory: the root, a directory, is the one
entry held. -/
theorem Image.RootLaid.boot {img : Image} {s : Fs} (hR : img.RootLaid) (h : boot img.disk = some s) :
    s.Laid ∧ s.HeldAlloc ∧ s.Heads ROOTINO ROOTINO := by
  have hn : namei 0 [SLASH] img.disk =
      .ok (some 0, img.disk.modifyInode 0 fun e => { e with inum := ROOTINO, ref := 1, valid := false }) := rfl
  unfold Xv6.boot at h
  simp only [hn, Option.some.injEq] at h
  have hk : Fs.KeepsHeads none img.disk s := by
    rw [← h]
    exact Fs.FreesOnly.keepsHeads (Fs.FreesOnly.of_disk rfl rfl rfl)
  subst h
  refine ⟨hR.disk_laid.of_keepsHeads hk, ?_, hR.heads.keep (hk.head ROOTINO (by simp)) hR.type⟩
  -- before the current directory is set nothing holds an entry
  have hA : (img.disk.modifyInode 0 fun e => { e with inum := ROOTINO, ref := 1, valid := false }).HeldAlloc :=
    fun y hy => by simp [Fs.holders, Image.disk, File.Holds, File.zero, Fs.modifyInode] at hy
  refine hA.setCwd 0 (some 0) fun ip hip => ?_
  obtain rfl := Option.some.inj hip
  have hdir : T_DIR ≠ 0 := by decide
  simpa [Fs.modifyInode, Image.disk, hR.type] using hdir

end Mkfs

namespace Fs

variable {s t : Fs} {D : Prop}

/-! ## `isdirempty`, and the entry `sys_unlink` removes -/

theorem iget_inum {inum : Nat} {ip : Fin NINODE} (h : iget inum s = .ok (ip, t)) : (t.inode ip).inum = inum := by
  rcases iget_spec h with ⟨-, hinum, rfl⟩ | ⟨-, -, rfl⟩
  · simpa [modifyInode_inode] using hinum
  · simp [modifyInode_inode]

/-- Whenever `isdirempty` returns, it says whether every slot from the
third on, within the size, is unused. -/
theorem isdirempty_spec {dp : Fin NINODE} {b : Bool} (h : isdirempty dp s = .ok (b, t)) :
    (b = true ↔ ∀ k, 2 ≤ k → (k + 1) * DIRENT_SIZE ≤ (s.inode dp).d.size →
      (s.slot (s.inode dp).inum k).inum = 0) := by
  unfold isdirempty at h
  simp only [get_bind_run] at h
  obtain ⟨⟨off, de⟩, s₁, h₁, h⟩ := bind_ok.mp h
  obtain ⟨rfl, -⟩ := pure_ok h
  obtain ⟨-, k', -, h2k, hskip, hfound, hend⟩ := dirScan_spec (show 2 * DIRENT_SIZE = 2 * DIRENT_SIZE from rfl) h₁
  have hsz : DIRENT_SIZE = 16 := rfl
  rcases de with _ | de
  · -- the scan ran past the last slot within the size, or out of fuel past it
    simp only [Option.isNone_none, true_iff]
    intro k hk hks
    have hlt : k < k' := by
      rcases hend rfl with hend | hend <;> rw [hsz] at * <;> omega
    simpa using (hskip k hk hlt).1
  · obtain ⟨rfl, hstop, hks⟩ := hfound _ rfl
    simp only [Option.isNone_some, Bool.false_eq_true, false_iff, not_forall]
    exact ⟨k', h2k, hks, by simpa using hstop⟩

/-- A whole entry written by `writei` at slot `k` of a directory replaces
that slot and no other. -/
theorem writei_dirent_slot {dp : Fin NINODE} {k : Nat} {de : Dirent} (hlen : de.name.length = DIRSIZ)
    (h : writei dp de.encode (k * DIRENT_SIZE) DIRENT_SIZE s = .ok ((DIRENT_SIZE : Int), t)) (j : Nat) :
    t.slot (s.inode dp).inum j = if j = k then de else s.slot (s.inode dp).inum j := by
  rcases writei_spec h with ⟨h16, -⟩ | ⟨-, -, tot, s₁, htot, -, -, hb, rfl⟩
  · cases h16
  have htot16 : tot = DIRENT_SIZE := by exact_mod_cast htot.symm
  subst htot16
  obtain ⟨-, -, hdata, -, -, -⟩ := hb.fields
  -- the bytes are `writeBytes`'s: `modifyInode` and `writeBack` leave them
  change (s₁.writeBytes (s.inode dp).inum (k * DIRENT_SIZE) DIRENT_SIZE de.encode 0).slot (s.inode dp).inum j = _
  rw [slot_writeDirent _ _ _ _ hlen]
  unfold slot
  rw [hdata]

/-- The release at the end of `sys_unlink` writes no byte. -/
theorem unlink_release_data {dp ip : Fin NINODE} {r : Int}
    (h : (do
      iunlockput dp
      modify (·.modifyInode ip fun e => { e with d := { e.d with nlink := e.d.nlink - 1 } })
      iupdate ip
      iunlockput ip
      return (0 : Int) : FsM Int) s = .ok (r, t)) :
    t.data = s.data := by
  obtain ⟨_, s₁, h₁, h⟩ := bind_ok.mp h
  simp only [modify_bind_run, iupdate_bind_run] at h
  obtain ⟨_, s₂, h₂, h⟩ := bind_ok.mp h
  obtain ⟨-, rfl⟩ := pure_ok h
  exact (iunlockput_frees ip _ _ _ h₂).data.trans (iunlockput_frees dp s _ s₁ h₁).data

/-- From the removal of the entry in slot `k` of `dp` on, `sys_unlink`
leaves that slot zero. -/
theorem unlink_entry_slot {dp ip : Fin NINODE} {k : Nat} {r : Int}
    (h : (do
      if (← writei dp Dirent.zero.encode (k * DIRENT_SIZE) DIRENT_SIZE) ≠ DIRENT_SIZE then
        throw "unlink: writei"
      if ((← get).inode ip).d.type = T_DIR then
        modify (·.modifyInode dp fun e => { e with d := { e.d with nlink := e.d.nlink - 1 } })
        iupdate dp
      iunlockput dp
      modify (·.modifyInode ip fun e => { e with d := { e.d with nlink := e.d.nlink - 1 } })
      iupdate ip
      iunlockput ip
      return (0 : Int) : FsM Int) s = .ok (r, t)) :
    t.slot (s.inode dp).inum k = Dirent.zero := by
  obtain ⟨w, s₁, h₁, h⟩ := bind_ok.mp h
  simp only [ite_run] at h
  split at h
  · simp at h
  rename_i hw
  rw [not_not] at hw
  subst hw
  have hlen : Dirent.zero.name.length = DIRSIZ := by simp [Dirent.zero]
  have hslot := writei_dirent_slot hlen h₁ k
  rw [if_pos rfl] at hslot
  refine Eq.trans ?_ hslot
  -- no step after the write changes a byte
  have hdata : t.data = s₁.data := by
    simp only [get_bind_run, ite_run] at h
    split at h
    · obtain ⟨_, s₂, h₂, h⟩ := bind_ok.mp h
      obtain ⟨_, s₃, h₃, h⟩ := bind_ok.mp h
      obtain ⟨-, rfl⟩ := modify_ok h₂
      obtain ⟨-, rfl⟩ := modify_ok h₃
      -- `modifyInode` and `writeBack` leave the bytes
      rw [unlink_release_data h]
      rfl
    · exact unlink_release_data h
  unfold slot
  rw [hdata]

/-- A successful `sys_unlink` zeroes a used slot past the head of a
directory; when that entry named a directory, the directory had no used
slot past its own head. -/
theorem sys_unlink_removes {cwd : Fin NINODE} {path : List UInt8}
    (hI : s.Inv 0 D) (hcwd : 0 < (s.inode cwd).ref) (hL : s.Laid) (h : sys_unlink cwd path s = .ok (0, t)) :
    ∃ d k, 2 ≤ k ∧ (s.slot d k).inum ≠ 0 ∧ t.slot d k = Dirent.zero ∧
      ((s.dinode (s.slot d k).inum.toNat).type = T_DIR →
        ∀ j, 2 ≤ j → (j + 1) * DIRENT_SIZE ≤ (s.dinode (s.slot d k).inum.toNat).size →
          (s.slot (s.slot d k).inum.toNat j).inum = 0) := by
  -- every exit but the last returns `-1`
  have hfail : ∀ {s₁ : Fs}, (pure (-1 : Int) : FsM Int) s₁ ≠ .ok (0, t) :=
    fun h' => absurd (pure_ok h').1 (by decide)
  unfold sys_unlink at h
  rw [ite_run] at h
  split at h
  · exact absurd h hfail
  obtain ⟨res, s₁, h₁, h⟩ := bind_ok.mp h
  obtain ⟨-, hsome₁, -⟩ := namex_inv hI (fun _ => hcwd) h₁
  have hf₁ := nameiparent_frees cwd path s _ s₁ h₁
  rcases res with _ | ⟨dp, name⟩
  · exact absurd h hfail
  obtain ⟨_, s₂, h₂, h⟩ := bind_ok.mp h
  obtain ⟨hI₂, -, hdp₂, -⟩ := ilock_inv (hsome₁ dp name rfl) h₂
  have hf₂ := trans_of FreesOnly hf₁ (ilock_frees dp s₁ _ s₂ h₂)
  rw [ite_run] at h
  split at h
  · obtain ⟨_, s₃, -, h⟩ := bind_ok.mp h
    exact absurd h hfail
  rename_i hname
  obtain ⟨hdot, hdotdot⟩ := not_or.mp hname
  obtain ⟨res, s₃, h₃, hrest⟩ := bind_ok.mp h
  obtain ⟨hdir₂, s₀, -, hlook⟩ := dirlookup_spec h₃
  obtain ⟨hkeep₃, -, hsome₃⟩ := dirlookup_inv hI₂ h₃
  have hf₃ := trans_of FreesOnly hf₂ (dirlookup_frees dp name s₂ _ s₃ h₃)
  rcases hlook with ⟨rfl, -⟩ | ⟨k, ip, rfl, -, hmatch, -, hget⟩
  · obtain ⟨_, s₄, -, h⟩ := bind_ok.mp hrest
    exact absurd h hfail
  -- the entry found is slot `k` of `dp`, past the head, naming `ip`'s inode
  have h2k : 2 ≤ k := by
    obtain ⟨q, hq⟩ := (hL.of_keepsHeads hf₂.keepsHeads).dirs _ ((hI₂.coherent dp hdp₂).1.trans hdir₂)
    by_contra hlt
    rw [hq.not_matches (by omega) hdot hdotdot] at hmatch
    cases hmatch
  have hslot : s.slot (s₂.inode dp).inum k = s₂.slot (s₂.inode dp).inum k := by
    unfold slot
    rw [hf₂.data]
  have hused : (s.slot (s₂.inode dp).inum k).inum ≠ 0 := by
    rw [hslot]
    unfold nameMatches at hmatch
    exact (of_decide_eq_true hmatch).1
  have hinum₃ : (s₃.inode ip).inum = (s.slot (s₂.inode dp).inum k).inum.toNat := by
    rw [iget_inum hget, hslot]
  obtain ⟨hdp₃, hdpinum₃⟩ := hkeep₃ dp hdp₂
  obtain ⟨_, s₄, h₄, h⟩ := bind_ok.mp hrest
  obtain ⟨hI₄, hkeep₄, hip₄, hinum₄⟩ := ilock_inv (hsome₃ ip _ rfl) h₄
  have hf₄ := trans_of FreesOnly hf₃ (ilock_frees ip s₃ _ s₄ h₄)
  have hdpinum₄ := (hkeep₄ dp hdp₃).2
  rw [hinum₃] at hinum₄
  -- `ip`'s inode is allocated, so it is on disk as it was in `s`
  obtain ⟨hct, hcs, hne⟩ := hI₄.coherent ip hip₄
  rw [hinum₄] at hct hcs
  have hdin : s₄.dinode (s.slot (s₂.inode dp).inum k).inum.toNat =
      s.dinode (s.slot (s₂.inode dp).inum k).inum.toNat :=
    (hf₄.dinode _).resolve_right (hct ▸ hne)
  refine ⟨(s₂.inode dp).inum, k, h2k, hused, ?_⟩
  simp only [get_bind_run, ite_run] at h
  split at h
  · simp at h
  split at h
  · -- a directory is removed only when `isdirempty` finds it empty
    rename_i htype
    obtain ⟨b, s₅, h₅, h⟩ := bind_ok.mp h
    have hempty := isdirempty_spec h₅
    have hb₅ := isdirempty_blockStep h₅
    simp only [ite_run] at h
    split at h
    · obtain ⟨_, s₆, -, h⟩ := bind_ok.mp h
      obtain ⟨_, s₇, -, h⟩ := bind_ok.mp h
      exact absurd h hfail
    rename_i hb
    have hdpinum₅ := (hb₅.entry dp).1
    have ht := unlink_entry_slot h
    rw [hdpinum₅, hdpinum₄, hdpinum₃] at ht
    refine ⟨ht, fun _ j hj hjs => ?_⟩
    have hj' := (hempty.mp (by simpa using hb)) j hj (by rw [← hcs, hdin]; exact hjs)
    rw [hinum₄] at hj'
    unfold slot at hj' ⊢
    rwa [hf₄.data] at hj'
  · rename_i htype
    have ht := unlink_entry_slot h
    rw [hdpinum₄, hdpinum₃] at ht
    refine ⟨ht, fun hdir => absurd ?_ htype⟩
    rw [← hct, hdin, hdir]

end Fs

/-! ## Every run -/

/-- From `mkfs`'s image, every reachable state keeps the reference
invariant, the entries it holds allocated, and every directory laid out. -/
theorem mkfsBoot_run_laid {files : List (List UInt8 × List UInt8)} {s₀ s : Fs}
    {hist : List (Fs × FsEvent × Int)} (h₀ : mkfsBoot files = some s₀) (hrun : Machine.Run fsStep s₀ hist s) :
    s.Inv 0 False ∧ s.HeldAlloc ∧ s.Laid := by
  obtain ⟨img, himg, hboot⟩ := Option.bind_eq_some_iff.mp h₀
  obtain ⟨hL, hA, -⟩ := (Mkfs.main_rootLaid himg).boot hboot
  refine Machine.Run.state_invariant (fun s => s.Inv 0 False ∧ s.HeldAlloc ∧ s.Laid)
    ⟨boot_inv img.disk_inv (fun _ => rfl) hboot, hA, hL⟩ (fun s e s' r hs h => ?_) hrun
  obtain ⟨hI, hA, hL⟩ := hs
  exact ⟨fsStep_inv hI h, Fs.fsStep_laid hI hA hL h⟩

/-- A step keeps the head of every directory, but for the one a `mkdir`
makes, whose `..` names the directory `nameiparent` found. -/
theorem Fs.fsStep_heads {s t : Fs} {D : Prop} {e : FsEvent} {r : Int} (hI : s.Inv 0 D) (hA : s.HeldAlloc)
    (hL : s.Laid) (h : fsStep s e = some (t, r)) (d : Nat) (hd : (t.dinode d).type = T_DIR) :
    Fs.KeepsHead s t d ∨ ∃ path cwd dp name s₁, e.call = .mkdir path ∧ s.cwd e.p = some cwd ∧
      nameiparent cwd path s = .ok (some (dp, name), s₁) ∧ t.Heads d (s₁.inode dp).inum := by
  obtain ⟨-, cwd, hcwd, hk | ⟨path, hcall, dp, name, s₁, c, hpar, hkc, hc⟩⟩ := Fs.fsStep_layout hI hA hL h
  · exact .inl (hk.head d (by simp))
  by_cases hdc : d = c
  · subst hdc
    exact .inr ⟨path, cwd, dp, name, s₁, hcall, hcwd, hpar, hc hd⟩
  · exact .inl (hkc.head d (by simpa using Ne.symm hdc))

/-- The layout of directories over every run from `mkfs`'s image: the root
opens with `.` and `..` naming itself; every directory opens with `.`
naming itself and `..` naming some directory; a step keeps those bytes of
every directory but the one a `mkdir` makes, whose `..` names the directory
the path led to; `isdirempty` looks at everything past the two; and an
entry `sys_unlink` zeroes names no directory with entries past them. -/
theorem dir_layout {files : List (List UInt8 × List UInt8)} {s₀ s : Fs} {hist : List (Fs × FsEvent × Int)}
    (h₀ : mkfsBoot files = some s₀) (hrun : Machine.Run fsStep s₀ hist s) :
    s₀.Heads ROOTINO ROOTINO ∧
    (∀ d, (s.dinode d).type = T_DIR → ∃ p, s.Heads d p) ∧
    (∀ e t r, fsStep s e = some (t, r) → ∀ d, (t.dinode d).type = T_DIR →
      Fs.KeepsHead s t d ∨ ∃ path cwd dp name s₁, e.call = .mkdir path ∧ s.cwd e.p = some cwd ∧
        nameiparent cwd path s = .ok (some (dp, name), s₁) ∧ t.Heads d (s₁.inode dp).inum) ∧
    (∀ dp b t, s.Live dp → isdirempty dp s = .ok (b, t) →
      (b = true ↔ ∀ k, 2 ≤ k → (k + 1) * DIRENT_SIZE ≤ (s.dinode (s.inode dp).inum).size →
        (s.slot (s.inode dp).inum k).inum = 0)) ∧
    (∀ p cwd path t, s.cwd p = some cwd → sys_unlink cwd path s = .ok (0, t) →
      ∃ d k, 2 ≤ k ∧ (s.slot d k).inum ≠ 0 ∧ t.slot d k = Dirent.zero ∧
        ((s.dinode (s.slot d k).inum.toNat).type = T_DIR →
          ∀ j, 2 ≤ j → (j + 1) * DIRENT_SIZE ≤ (s.dinode (s.slot d k).inum.toNat).size →
            (s.slot (s.slot d k).inum.toNat j).inum = 0)) := by
  obtain ⟨hI, hA, hL⟩ := mkfsBoot_run_laid h₀ hrun
  obtain ⟨img, himg, hboot⟩ := Option.bind_eq_some_iff.mp h₀
  refine ⟨((Mkfs.main_rootLaid himg).boot hboot).2.2, hL.dirs, fun e t r h => Fs.fsStep_heads hI hA hL h,
    fun dp b t hl h => ?_, fun p cwd path t hcwd h => ?_⟩
  · -- a live entry has the size its inode has on disk
    rw [(hI.coherent dp hl).2.1]
    exact Fs.isdirempty_spec h
  · have hpos := (Fs.holders_pos_of_cwd hcwd).trans_le (hI.covered (fun _ => le_rfl) cwd)
    exact Fs.sys_unlink_removes hI hpos hL h

/-- `d` and `d/e` made; `d` refused while `e` is in it, and `d/.` refused;
`d/e` and then `d` removed; `f` created, linked as `g` and closed. -/
def dirRun : List FsEvent :=
  [⟨0, .mkdir [100]⟩, ⟨0, .mkdir [100, 47, 101]⟩, ⟨0, .unlink [100]⟩, ⟨0, .unlink [100, 47, 46]⟩,
    ⟨0, .unlink [100, 47, 101]⟩, ⟨0, .unlink [100]⟩, ⟨0, .open [102] O_CREATE⟩, ⟨0, .link [102] [103]⟩,
    ⟨0, .close 0⟩]

theorem dir_layout_rmdir : ∃ s₀ hist s, mkfsBoot [] = some s₀ ∧ Machine.Run fsStep s₀ hist s ∧
    (hist.map fun x => x.2).reverse = dirRun.zip [0, 0, -1, -1, 0, 0, 0, 0, 0] ∧
    s₀.Heads ROOTINO ROOTINO ∧
    (∀ d, (s.dinode d).type = T_DIR → ∃ p, s.Heads d p) ∧
    (∀ e t r, fsStep s e = some (t, r) → ∀ d, (t.dinode d).type = T_DIR →
      Fs.KeepsHead s t d ∨ ∃ path cwd dp name s₁, e.call = .mkdir path ∧ s.cwd e.p = some cwd ∧
        nameiparent cwd path s = .ok (some (dp, name), s₁) ∧ t.Heads d (s₁.inode dp).inum) ∧
    (∀ dp b t, s.Live dp → isdirempty dp s = .ok (b, t) →
      (b = true ↔ ∀ k, 2 ≤ k → (k + 1) * DIRENT_SIZE ≤ (s.dinode (s.inode dp).inum).size →
        (s.slot (s.inode dp).inum k).inum = 0)) ∧
    (∀ p cwd path t, s.cwd p = some cwd → sys_unlink cwd path s = .ok (0, t) →
      ∃ d k, 2 ≤ k ∧ (s.slot d k).inum ≠ 0 ∧ t.slot d k = Dirent.zero ∧
        ((s.dinode (s.slot d k).inum.toNat).type = T_DIR →
          ∀ j, 2 ≤ j → (j + 1) * DIRENT_SIZE ≤ (s.dinode (s.slot d k).inum.toNat).size →
            (s.slot (s.slot d k).inum.toNat j).inum = 0)) := by
  obtain ⟨s₀, hist, s, h₀, hr, hev⟩ :=
    @Machine.exists_run_of_outputs_from _ _ _ fsStep (mkfsBoot []) dirRun [0, 0, -1, -1, 0, 0, 0, 0, 0]
      (by decide +kernel)
  exact ⟨s₀, hist, s, h₀, hr, hev, dir_layout h₀ hr⟩

end Xv6
