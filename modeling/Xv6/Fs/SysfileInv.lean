/-
# `Xv6.Fs.SysfileInv` — every file-system call keeps the invariant

The invariant of `Xv6.Fs.Table` holds with nothing held (`ex = 0`) before
and after each call of the machine of `Xv6.Fs.Sysfile`, and so in every
state a run from boot reaches.  Each function has a lemma saying how it
moves the references the call holds: `create` and `namei` end holding one
on the inode they return, an open file or a current directory takes one
over, `iput` and `fileclose` give one back.  Between them every step keeps
the table coherent and writes to directories only through `dirlink`,
which writes no name already present, and `sys_unlink`, which clears an
entry.
-/
import Xv6.Fs.Sysfile

namespace Xv6

open StateExcept Fs

variable {s s' : Fs} {ex : Fin NINODE → Int} {D : Prop}

/-! ## `file.c` -/

theorem filealloc_inv {r : Option (Fin NFILE)} (hI : s.Inv ex D) (h : filealloc s = .ok (r, s')) :
    s'.Inv ex D ∧ s'.inode = s.inode ∧ s'.cwd = s.cwd ∧
      (r = none → s' = s) ∧ ∀ f, r = some f → (s'.file f).ref = 1 ∧ (s'.file f).type = .FD_NONE := by
  unfold filealloc at h
  simp only [get_bind_run] at h
  cases hf : (List.finRange NFILE).find? (fun f => (s.file f).ref = 0) with
  | none =>
      simp only [hf] at h
      obtain ⟨rfl, rfl⟩ := pure_ok h
      exact ⟨hI, rfl, rfl, fun _ => rfl, fun _ h => (by cases h)⟩
  | some f =>
      simp only [hf, set_bind_run] at h
      obtain ⟨rfl, rfl⟩ := pure_ok h
      -- a free file is closed, so it holds no inode before or after
      have href : (s.file f).ref = 0 := by simpa using List.find?_some hf
      have htype := (hI.files f).2 href
      refine ⟨hI.modifyFile f _ ex ⟨by simp, by simp⟩ (fun y => ?_), rfl, rfl, fun h => (by cases h),
        fun f' h => ?_⟩
      · simp [File.Holds, htype, href]
      · cases h
        simp [modifyFile, htype]

theorem filedup_inv {f f' : Fin NFILE} (hI : s.Inv ex D) (h : filedup f s = .ok (f', s')) :
    s'.Inv ex D ∧ s'.inode = s.inode ∧ s'.cwd = s.cwd ∧ f' = f := by
  unfold filedup at h
  simp only [get_bind_run, ite_run] at h
  split at h
  · simp at h
  · rename_i hr
    simp only [modify_bind_run] at h
    obtain ⟨hf, rfl⟩ := pure_ok h
    refine ⟨hI.modifyFile f _ ex ⟨by dsimp only; omega, fun h => by exfalso; dsimp only at h; omega⟩
      (fun y => ?_), rfl, rfl, hf⟩
    -- the file held an inode before and holds the same one after
    have hholds : ({ s.file f with ref := (s.file f).ref + 1 } : File).Holds y ↔ (s.file f).Holds y := by
      simp only [File.Holds]
      exact and_congr_left fun _ => ⟨fun _ => by omega, fun _ => by omega⟩
    simp only [hholds]

/-- The file `fileclose` leaves after the last reference: closed. -/
def File.closed (x : File) : File :=
  { { x with ref := x.ref - 1 } with ref := 0, type := .FD_NONE }

attribute [grind] File.closed

/-- `fileclose` gives back the file's reference on its inode when it
drops the last reference to the file. -/
theorem fileclose_inv {f : Fin NFILE} {u : Unit} (hI : s.Inv ex D) (h : fileclose f s = .ok (u, s')) :
    s'.Inv ex D ∧ s'.cwd = s.cwd := by
  unfold fileclose at h
  simp only [get_bind_run, ite_run] at h
  split at h
  · simp at h
  · rename_i hr
    split at h
    · -- other references remain: the file still holds what it held
      obtain ⟨rfl, rfl⟩ := pure_ok h
      refine ⟨hI.modifyFile f _ ex ⟨by dsimp only; omega, fun h => by exfalso; dsimp only at h; omega⟩
        fun y => ?_, rfl⟩
      have hholds : ({ s.file f with ref := (s.file f).ref - 1 } : File).Holds y ↔ (s.file f).Holds y := by
        simp only [File.Holds]
        exact and_congr_left fun _ => ⟨fun _ => by omega, fun _ => by omega⟩
      simp only [hholds]
    · -- the last reference: the file is closed and its inode released
      simp only [modify_bind_run, modifyFile_modifyFile] at h
      have hclosed : ∀ y, ¬ (s.file f).closed.Holds y := fun y => by simp [File.closed, File.Holds]
      have hfile : 0 ≤ (s.file f).closed.ref ∧ ((s.file f).closed.ref = 0 →
          (s.file f).closed.type = .FD_NONE) := ⟨le_rfl, fun _ => rfl⟩
      cases ht : (s.file f).type <;> cases hip : (s.file f).ip <;> simp only [ht, hip] at h <;>
      first
        | (obtain ⟨rfl, rfl⟩ := pure_ok h
           refine ⟨hI.modifyFile f File.closed ex hfile fun y => ?_, rfl⟩
           -- the file held nothing
           have hno : ¬ (s.file f).Holds y := by simp [File.Holds, ht, hip]
           simp only [hclosed, hno, if_false])
        | (rename_i ip
           have hI₁ := hI.modifyFile f File.closed (ex + Pi.single ip 1) hfile fun y => by
             simp only [hclosed, if_false, Pi.add_apply]
             by_cases hy : y = ip
             · subst hy
               simp [File.Holds, ht, hip, show 0 < (s.file f).ref by omega]
             · simp [File.Holds, ht, hip, hy, Ne.symm hy]
           obtain ⟨hI', -⟩ := iput_inv hI₁ h
           exact ⟨by simpa using hI', (iput_cwd h).trans rfl⟩)

/-! ## `sysfile.c` -/

namespace Fs

/-- What a call that hands back an inode, locked and referenced, leaves:
the invariant with that one reference held and the entry live, or with
nothing held when it hands back none. -/
def InvRet (s : Fs) (D : Prop) : Option (Fin NINODE) → Prop
  | none => s.Inv 0 D
  | some ip => s.Inv (Pi.single ip 1) D ∧ s.Live ip

end Fs

theorem fdalloc_agree {p : Fin NPROC} {f : Fin NFILE} {r : Option (Fin NOFILE)} (h : fdalloc p f s = .ok (r, s')) :
    Agree s s' ∧ s'.inode = s.inode := by
  unfold fdalloc at h
  simp only [get_bind_run] at h
  cases hfd : (List.finRange NOFILE).find? (fun fd => s.ofile p fd = none) with
  | none =>
      simp only [hfd] at h
      obtain ⟨-, rfl⟩ := pure_ok h
      exact ⟨Agree.refl _, rfl⟩
  | some fd =>
      simp only [hfd, set_bind_run] at h
      obtain ⟨-, rfl⟩ := pure_ok h
      exact ⟨Agree.ofile _ _, rfl⟩

theorem sys_close_inv {p : Fin NPROC} {fd : Int32} {r : Int} (hI : s.Inv ex D) (h : sys_close p fd s = .ok (r, s')) :
    s'.Inv ex D := by
  unfold sys_close at h
  simp only [dite_run] at h
  split at h
  · rename_i hfd
    simp only [get_bind_run] at h
    cases hf : s.ofile p ⟨fd.toInt.toNat, by omega⟩ with
    | none =>
        simp only [hf] at h
        exact (pure_ok h).2 ▸ hI
    | some f =>
        simp only [hf, modify_bind_run] at h
        obtain ⟨_, s₁, h₁, h⟩ := bind_ok.mp h
        obtain ⟨-, rfl⟩ := pure_ok h
        exact (fileclose_inv (hI.agree (Agree.ofile s _)) h₁).1
  · exact (pure_ok h).2 ▸ hI

/-- `create`'s `fail:` path gives up both the new inode and the parent. -/
theorem create_fail_inv {ip dp : Fin NINODE} {r : Option (Fin NINODE)}
    (hI : s.Inv (ex + Pi.single ip 1 + Pi.single dp 1) D) (hl : s.Live ip) (h : create_fail ip dp s = .ok (r, s')) :
    s'.Inv ex D ∧ r = none := by
  unfold create_fail at h
  obtain ⟨_, s₁, h₁, h⟩ := bind_ok.mp h
  obtain ⟨_, s₂, h₂, h⟩ := bind_ok.mp h
  have hI₂ := hI.agree (modify_iupdate_agree hI hl h₁ h₂ rfl)
  obtain ⟨_, s₃, h₃, h⟩ := bind_ok.mp h
  obtain ⟨_, s₄, h₄, h⟩ := bind_ok.mp h
  obtain ⟨rfl, rfl⟩ := pure_ok h
  rw [add_right_comm] at hI₂
  exact ⟨iunlockput_release (iunlockput_release hI₂ h₃) h₄, rfl⟩

/-- The end of `create` for a new inode `ip` in `dp`: the entry is linked,
`dp` counts the new `..` of a directory, and `dp` is released. -/
theorem create_link_inv {dp ip : Fin NINODE} {name : List UInt8} {type : Int16} {r : Option (Fin NINODE)}
    (hI : s.Inv (Pi.single dp 1 + Pi.single ip 1) D) (hdp : s.Live dp) (hip : s.Live ip)
    (h : (do
      if (← dirlink dp name ((← get).inode ip).inum) < 0 then return ← create_fail ip dp
      if type = T_DIR then
        modify (·.modifyInode dp fun e => { e with d := { e.d with nlink := e.d.nlink + 1 } })
        iupdate dp
      iunlockput dp
      return some ip : FsM (Option (Fin NINODE))) s = .ok (r, s')) :
    s'.InvRet D r := by
  simp only [get_bind_run] at h
  obtain ⟨w, s₁, h₁, h⟩ := bind_ok.mp h
  obtain ⟨hI₁, hkeep₁⟩ := dirlink_inv hI hdp h₁
  have hdp₁ := (hkeep₁ dp hdp).1
  have hip₁ := (hkeep₁ ip hip).1
  simp only [ite_run] at h
  split at h
  · -- the name is taken, or the directory cannot grow
    obtain ⟨hI', rfl⟩ := create_fail_inv (by rwa [zero_add, add_comm] : s₁.Inv (0 + Pi.single ip 1 + Pi.single dp 1) D)
      hip₁ h
    exact hI'
  obtain ⟨s₂, hI₂, hip₂, h⟩ : ∃ s₂, s₂.Inv (Pi.single dp 1 + Pi.single ip 1) D ∧ s₂.Live ip ∧
      (iunlockput dp >>= fun _ => pure (some ip) : FsM (Option (Fin NINODE))) s₂ = .ok (r, s') := by
    split at h
    · obtain ⟨_, s₂, h₂, h⟩ := bind_ok.mp h
      obtain ⟨_, s₃, h₃, h⟩ := bind_ok.mp h
      have hagree := modify_iupdate_agree hI₁ hdp₁ h₂ h₃ rfl
      exact ⟨s₃, hI₁.agree hagree, (hagree.live ip).mpr hip₁, h⟩
    · exact ⟨s₁, hI₁, hip₁, h⟩
  obtain ⟨_, s₃, h₃, h⟩ := bind_ok.mp h
  obtain ⟨rfl, rfl⟩ := pure_ok h
  -- `ip` stays live: the call holds it too, twice if it is `dp`
  have hlive := iput_keeps_held hI₂ (iunlockput_spec h₃).2 hip₂ fun he => by subst he; simp
  exact ⟨iunlockput_release (by rwa [add_comm]) h₃, hlive.1⟩

theorem create_inv {cwd : Fin NINODE} {path : List UInt8} {type major minor : Int16} {r : Option (Fin NINODE)}
    (hI : s.Inv 0 D) (hcwd : 0 < (s.inode cwd).ref) (h : create cwd path type major minor s = .ok (r, s')) :
    s'.InvRet D r := by
  unfold create at h
  obtain ⟨res, s₁, h₁, h⟩ := bind_ok.mp h
  obtain ⟨hnone₁, hsome₁, -⟩ := namex_inv hI (fun _ => hcwd) h₁
  rcases res with _ | ⟨dp, name⟩
  · obtain ⟨rfl, rfl⟩ := pure_ok h
    exact hnone₁ rfl
  have hI₁ : s₁.Inv (Pi.single dp 1) D := by simpa using hsome₁ dp name rfl
  obtain ⟨_, s₂, h₂, h⟩ := bind_ok.mp h
  obtain ⟨hI₂, -, hdp₂, -⟩ := ilock_inv hI₁ h₂
  obtain ⟨res, s₃, h₃, h⟩ := bind_ok.mp h
  obtain ⟨hkeep₃, hnone₃, hsome₃⟩ := dirlookup_inv hI₂ h₃
  rcases res with _ | ⟨ip, off⟩
  · -- `name` is not in `dp`: a new inode
    have hdp₃ := (hkeep₃ dp hdp₂).1
    obtain ⟨res, s₄, h₄, hrest⟩ := bind_ok.mp h
    rcases ialloc_inv (hnone₃ rfl) h₄ with ⟨rfl, rfl⟩ | ⟨ip, rfl, hI₄, hkeep₄⟩
    · obtain ⟨_, s₅, h₅, h⟩ := bind_ok.mp hrest
      obtain ⟨rfl, rfl⟩ := pure_ok h
      exact iunlockput_release_last (hnone₃ rfl) h₅
    obtain ⟨_, s₅, h₅, h⟩ := bind_ok.mp hrest
    obtain ⟨hI₅, hkeep₅, hip₅, -⟩ := ilock_inv hI₄ h₅
    have hdp₅ := (hkeep₅ dp (hkeep₄ dp hdp₃).1).1
    obtain ⟨_, s₆, h₆, h⟩ := bind_ok.mp h
    obtain ⟨_, s₇, h₇, h⟩ := bind_ok.mp h
    have hagree := modify_iupdate_agree hI₅ hip₅ h₆ h₇ rfl
    have hI₇ := hI₅.agree hagree
    have hdp₇ := (hagree.live dp).mpr hdp₅
    have hip₇ := (hagree.live ip).mpr hip₅
    simp only [ite_run] at h
    -- the condition is decided here only: the end of `create` tests it again
    by_cases htype : type = T_DIR
    · -- a directory gets its "." and ".." first
      rw [if_pos htype] at h
      clear htype
      simp only [get_bind_run] at h
      obtain ⟨w, s₈, h₈, h⟩ := bind_ok.mp h
      obtain ⟨hI₈, hkeep₈⟩ := dirlink_inv hI₇ hip₇ h₈
      have hip₈ := (hkeep₈ ip hip₇).1
      simp only [ite_run] at h
      split at h
      · obtain ⟨hI', rfl⟩ := create_fail_inv
          (by rwa [zero_add, add_comm] : s₈.Inv (0 + Pi.single ip 1 + Pi.single dp 1) D) hip₈ h
        exact hI'
      simp only [get_bind_run] at h
      obtain ⟨w', s₉, h₉, h⟩ := bind_ok.mp h
      obtain ⟨hI₉, hkeep₉⟩ := dirlink_inv hI₈ hip₈ h₉
      simp only [ite_run] at h
      split at h
      · obtain ⟨hI', rfl⟩ := create_fail_inv
          (by rwa [zero_add, add_comm] : s₉.Inv (0 + Pi.single ip 1 + Pi.single dp 1) D) (hkeep₉ ip hip₈).1 h
        exact hI'
      · exact create_link_inv hI₉ (hkeep₉ dp (hkeep₈ dp hdp₇).1).1 (hkeep₉ ip hip₈).1 h
    · rw [if_neg htype] at h
      exact create_link_inv hI₇ hdp₇ hip₇ h
  · -- `name` is in `dp`: it is handed back if a file is asked for and it is one
    have hI₃ : s₃.Inv (Pi.single ip 1 + Pi.single dp 1) D := by
      rw [add_comm]
      exact hsome₃ ip off rfl
    obtain ⟨_, s₄, h₄, h⟩ := bind_ok.mp h
    obtain ⟨_, s₅, h₅, h⟩ := bind_ok.mp h
    obtain ⟨hI₅, -, hip₅, -⟩ := ilock_inv (iunlockput_release hI₃ h₄) h₅
    simp only [get_bind_run, ite_run] at h
    split at h
    · obtain ⟨rfl, rfl⟩ := pure_ok h
      exact ⟨hI₅, hip₅⟩
    · obtain ⟨_, s₆, h₆, h⟩ := bind_ok.mp h
      obtain ⟨rfl, rfl⟩ := pure_ok h
      exact iunlockput_release_last hI₅ h₆

theorem open_inode_inv {cwd : Fin NINODE} {path : List UInt8} {omode : Int32} {r : Option (Fin NINODE)}
    (hI : s.Inv 0 D) (hcwd : 0 < (s.inode cwd).ref) (h : open_inode cwd path omode s = .ok (r, s')) :
    s'.InvRet D r := by
  unfold open_inode at h
  simp only [ite_run] at h
  split at h
  · exact create_inv hI hcwd h
  obtain ⟨res, s₁, h₁, h⟩ := bind_ok.mp h
  obtain ⟨hnone₁, hsome₁, -⟩ := namei_inv hI (fun _ => hcwd) h₁
  rcases res with _ | ip
  · obtain ⟨rfl, rfl⟩ := pure_ok h
    exact hnone₁ rfl
  have hI₁ : s₁.Inv (Pi.single ip 1) D := by simpa using hsome₁ ip rfl
  obtain ⟨_, s₂, h₂, h⟩ := bind_ok.mp h
  obtain ⟨hI₂, -, hip₂, -⟩ := ilock_inv hI₁ h₂
  simp only [get_bind_run, ite_run] at h
  split at h
  · -- a directory is opened for reading only
    obtain ⟨_, s₃, h₃, h⟩ := bind_ok.mp h
    obtain ⟨rfl, rfl⟩ := pure_ok h
    exact iunlockput_release_last hI₂ h₃
  · obtain ⟨rfl, rfl⟩ := pure_ok h
    exact ⟨hI₂, hip₂⟩

/-- A file `sys_open` has just allocated, set to an inode type and to `ip`,
takes over the call's reference on `ip`. -/
theorem Fs.Inv.openFile {ip : Fin NINODE} {f : Fin NFILE} (hI : s.Inv (Pi.single ip 1) D)
    (hfile : (s.file f).ref = 1 ∧ (s.file f).type = .FD_NONE) {g : File → File}
    (hg : (g (s.file f)).ref = 1 ∧ ((g (s.file f)).type = .FD_INODE ∨ (g (s.file f)).type = .FD_DEVICE) ∧
      (g (s.file f)).ip = some ip) :
    (s.modifyFile f g).Inv 0 D := by
  obtain ⟨href, htype, hip⟩ := hg
  refine hI.modifyFile f g 0 ⟨by omega, fun h => by omega⟩ fun y => ?_
  have hold : ¬ (s.file f).Holds y := by simp [File.Holds, hfile.2]
  have hnew : (g (s.file f)).Holds y ↔ y = ip := by
    unfold File.Holds
    rw [href, hip, Option.some.injEq]
    exact ⟨fun h => h.2.2.symm, fun h => ⟨by omega, htype, h.symm⟩⟩
  by_cases hy : y = ip
  · subst hy
    simp [hold, hnew]
  · simp [hold, hnew, hy]

/-- The end of `sys_open` once it has a descriptor: the file is set to the
inode, which a `O_TRUNC` open of a regular file truncates. -/
theorem open_file_inv {ip : Fin NINODE} {f : Fin NFILE} {fd : Fin NOFILE} {omode : Int32} {A : File → File}
    {r : Int} (hI : s.Inv (Pi.single ip 1) D) (hl : s.Live ip)
    (hfile : (s.file f).ref = 1 ∧ (s.file f).type = .FD_NONE)
    (h : (do
      modify (·.modifyFile f A)
      modify (·.modifyFile f fun x => { x with
        ip := some ip,
        readable := omode &&& O_WRONLY = 0,
        writable := omode &&& O_WRONLY ≠ 0 ∨ omode &&& O_RDWR ≠ 0 })
      if omode &&& O_TRUNC ≠ 0 ∧ ((← get).inode ip).d.type = T_FILE then itrunc ip
      iunlock ip
      return (fd.val : Int) : FsM Int) s = .ok (r, s'))
    (hA : ∀ x, (A x).ref = x.ref ∧ ((A x).type = .FD_INODE ∨ (A x).type = .FD_DEVICE)) :
    s'.Inv 0 D := by
  obtain ⟨_, s₁, h₁, h⟩ := bind_ok.mp h
  obtain ⟨_, s₂, h₂, h⟩ := bind_ok.mp h
  have hs₂ : s₂ = s.modifyFile f fun x => { A x with
      ip := some ip,
      readable := omode &&& O_WRONLY = 0,
      writable := omode &&& O_WRONLY ≠ 0 ∨ omode &&& O_RDWR ≠ 0 } := by
    rw [modify_ok h₂, modify_ok h₁, modifyFile_modifyFile]
  have hI₂ : s₂.Inv 0 D := by
    rw [hs₂]
    exact hI.openFile hfile ⟨(hA _).1.trans hfile.1, (hA _).2, rfl⟩
  have hl₂ : s₂.Live ip := by
    rw [hs₂]
    exact hl
  obtain ⟨s₃, hI₃, h⟩ : ∃ s₃, s₃.Inv 0 D ∧
      (iunlock ip >>= fun _ => pure (fd.val : Int) : FsM Int) s₃ = .ok (r, s') := by
    simp only [get_bind_run, ite_run] at h
    split at h
    · obtain ⟨_, s₃, h₃, h⟩ := bind_ok.mp h
      exact ⟨s₃, (itrunc_inv hI₂ hl₂ h₃).1, h⟩
    · exact ⟨s₂, hI₂, h⟩
  obtain ⟨_, s₄, h₄, hret⟩ := bind_ok.mp h
  obtain ⟨-, rfl⟩ := iunlock_spec h₄
  obtain ⟨-, rfl⟩ := pure_ok hret
  exact hI₃

theorem sys_open_inv {p : Fin NPROC} {cwd : Fin NINODE} {path : List UInt8} {omode : Int32} {r : Int}
    (hI : s.Inv 0 D) (hcwd : 0 < (s.inode cwd).ref) (h : sys_open p cwd path omode s = .ok (r, s')) :
    s'.Inv 0 D := by
  unfold sys_open at h
  simp only [ite_run] at h
  split at h
  · exact (pure_ok h).2 ▸ hI
  obtain ⟨res, s₁, h₁, h⟩ := bind_ok.mp h
  have hret := open_inode_inv hI hcwd h₁
  rcases res with _ | ip
  · exact (pure_ok h).2 ▸ hret
  obtain ⟨hI₁, hip₁⟩ := hret
  simp only [get_bind_run, ite_run] at h
  split at h
  · -- a device with no driver
    obtain ⟨_, s₂, h₂, h⟩ := bind_ok.mp h
    obtain ⟨-, rfl⟩ := pure_ok h
    exact iunlockput_release_last hI₁ h₂
  obtain ⟨res, s₂, h₂, h⟩ := bind_ok.mp h
  obtain ⟨hI₂, hinode₂, -, -, hsome₂⟩ := filealloc_inv hI₁ h₂
  have hip₂ : s₂.Live ip := by
    unfold Live
    rw [hinode₂]
    exact hip₁
  rcases res with _ | f
  · -- the file table is full
    obtain ⟨_, s₃, h₃, h⟩ := bind_ok.mp h
    obtain ⟨-, rfl⟩ := pure_ok h
    exact iunlockput_release_last hI₂ h₃
  obtain ⟨res, s₃, h₃, h⟩ := bind_ok.mp h
  obtain ⟨hagree₃, hinode₃⟩ := fdalloc_agree h₃
  have hI₃ := hI₂.agree hagree₃
  rcases res with _ | fd
  · -- no free descriptor: the file is closed again and the inode released
    obtain ⟨_, s₄, h₄, h⟩ := bind_ok.mp h
    obtain ⟨_, s₅, h₅, h⟩ := bind_ok.mp h
    obtain ⟨-, rfl⟩ := pure_ok h
    exact iunlockput_release_last (fileclose_inv hI₃ h₄).1 h₅
  have hip₃ : s₃.Live ip := by
    unfold Live
    rw [hinode₃]
    exact hip₂
  have hf₃ : (s₃.file f).ref = 1 ∧ (s₃.file f).type = .FD_NONE := by
    rw [hagree₃.file]
    exact hsome₂ f rfl
  simp only [get_bind_run, ite_run] at h
  split at h <;> exact open_file_inv hI₃ hip₃ hf₃ h fun x => ⟨rfl, by simp⟩

/-- `sys_mkdir` and `sys_mknod` after their argument check: `create`, then
the reference it hands back is given up. -/
theorem create_put_inv {cwd : Fin NINODE} {path : List UInt8} {type major minor : Int16} {r : Int}
    (hI : s.Inv 0 D) (hcwd : 0 < (s.inode cwd).ref)
    (h : (do
      let some ip ← create cwd path type major minor | return (-1 : Int)
      iunlockput ip
      return 0 : FsM Int) s = .ok (r, s')) :
    s'.Inv 0 D := by
  obtain ⟨res, s₁, h₁, h⟩ := bind_ok.mp h
  have hret := create_inv hI hcwd h₁
  rcases res with _ | ip
  · exact (pure_ok h).2 ▸ hret
  obtain ⟨_, s₂, h₂, h⟩ := bind_ok.mp h
  obtain ⟨-, rfl⟩ := pure_ok h
  exact iunlockput_release_last hret.1 h₂

theorem sys_mkdir_inv {cwd : Fin NINODE} {path : List UInt8} {r : Int}
    (hI : s.Inv 0 D) (hcwd : 0 < (s.inode cwd).ref) (h : sys_mkdir cwd path s = .ok (r, s')) :
    s'.Inv 0 D := by
  unfold sys_mkdir at h
  simp only [ite_run] at h
  split at h
  · exact (pure_ok h).2 ▸ hI
  · exact create_put_inv hI hcwd h

theorem sys_mknod_inv {cwd : Fin NINODE} {path : List UInt8} {major minor : Int32} {r : Int}
    (hI : s.Inv 0 D) (hcwd : 0 < (s.inode cwd).ref) (h : sys_mknod cwd path major minor s = .ok (r, s')) :
    s'.Inv 0 D := by
  unfold sys_mknod at h
  simp only [ite_run] at h
  split at h
  · exact (pure_ok h).2 ▸ hI
  · exact create_put_inv hI hcwd h

/-- `sys_link`'s `bad:` path gives back the link count it took and the
reference on `ip`. -/
theorem sys_link_bad_inv {ip : Fin NINODE} {r : Int} (hI : s.Inv (ex + Pi.single ip 1) D)
    (h : sys_link_bad ip s = .ok (r, s')) : s'.Inv ex D := by
  unfold sys_link_bad at h
  obtain ⟨_, s₁, h₁, h⟩ := bind_ok.mp h
  obtain ⟨hI₁, -, hip₁, -⟩ := ilock_inv hI h₁
  obtain ⟨_, s₂, h₂, h⟩ := bind_ok.mp h
  obtain ⟨_, s₃, h₃, h⟩ := bind_ok.mp h
  have hI₃ := hI₁.agree (modify_iupdate_agree hI₁ hip₁ h₂ h₃ rfl)
  obtain ⟨_, s₄, h₄, h⟩ := bind_ok.mp h
  obtain ⟨-, rfl⟩ := pure_ok h
  exact iunlockput_release hI₃ h₄

theorem sys_link_inv {p : Fin NPROC} {cwd : Fin NINODE} {old new : List UInt8} {r : Int}
    (hI : s.Inv 0 D) (hcwd : s.cwd p = some cwd) (h : sys_link cwd old new s = .ok (r, s')) :
    s'.Inv 0 D := by
  unfold sys_link at h
  simp only [ite_run] at h
  split at h
  · exact (pure_ok h).2 ▸ hI
  obtain ⟨res, s₁, h₁, h⟩ := bind_ok.mp h
  obtain ⟨hnone₁, hsome₁, hcwd₁⟩ := namei_inv hI (fun _ => hI.ref_pos_of_cwd hcwd le_rfl) h₁
  rcases res with _ | ip
  · exact (pure_ok h).2 ▸ hnone₁ rfl
  have hI₁ : s₁.Inv (Pi.single ip 1) D := by simpa using hsome₁ ip rfl
  obtain ⟨_, s₂, h₂, h⟩ := bind_ok.mp h
  obtain ⟨hI₂, -, hip₂, -⟩ := ilock_inv hI₁ h₂
  simp only [get_bind_run, ite_run] at h
  split at h
  · -- directories are not linked
    obtain ⟨_, s₃, h₃, h⟩ := bind_ok.mp h
    obtain ⟨-, rfl⟩ := pure_ok h
    exact iunlockput_release_last hI₂ h₃
  obtain ⟨_, s₃, h₃, h⟩ := bind_ok.mp h
  obtain ⟨_, s₄, h₄, h⟩ := bind_ok.mp h
  have hagree := modify_iupdate_agree hI₂ hip₂ h₃ h₄ rfl
  have hI₄ := hI₂.agree hagree
  obtain ⟨_, s₅, h₅, h⟩ := bind_ok.mp h
  obtain ⟨-, hs₅⟩ := iunlock_spec h₅
  rw [hs₅] at h
  -- the caller's current directory is still held for the second lookup
  have hcwd₄ : s₄.cwd p = some cwd := by rw [hagree.cwd, ilock_cwd h₂, hcwd₁, hcwd]
  have hpos₄ := hI₄.ref_pos_of_cwd hcwd₄ (by rw [Pi.single_apply]; split_ifs <;> omega)
  obtain ⟨res, s₆, h₆, hrest⟩ := bind_ok.mp h
  obtain ⟨hnone₆, hsome₆, -⟩ := namex_inv hI₄ (fun _ => hpos₄) h₆
  rcases res with _ | ⟨dp, name⟩
  · exact sys_link_bad_inv (by rw [zero_add]; exact hnone₆ rfl) hrest
  obtain ⟨_, s₇, h₇, h⟩ := bind_ok.mp hrest
  obtain ⟨hI₇, -, hdp₇, -⟩ := ilock_inv (hsome₆ dp name rfl) h₇
  simp only [get_bind_run] at h
  obtain ⟨w, s₈, h₈, h⟩ := bind_ok.mp h
  obtain ⟨hI₈, -⟩ := dirlink_inv hI₇ hdp₇ h₈
  simp only [ite_run] at h
  split at h
  · -- the name is taken: the link count goes back
    obtain ⟨_, s₉, h₉, h⟩ := bind_ok.mp h
    exact sys_link_bad_inv (by rw [zero_add]; exact iunlockput_release hI₈ h₉) h
  · obtain ⟨_, s₉, h₉, h⟩ := bind_ok.mp h
    obtain ⟨_, s₁₀, h₁₀, h⟩ := bind_ok.mp h
    obtain ⟨-, rfl⟩ := pure_ok h
    exact iput_release (by rw [zero_add]; exact iunlockput_release hI₈ h₉) h₁₀

/-- The end of `sys_unlink`: `dp` and `ip` are released, `ip` with one
link fewer. -/
theorem unlink_release_inv {dp ip : Fin NINODE} {r : Int}
    (hI : s.Inv (Pi.single dp 1 + Pi.single ip 1) D) (hip : s.Live ip)
    (h : (do
      iunlockput dp
      modify (·.modifyInode ip fun e => { e with d := { e.d with nlink := e.d.nlink - 1 } })
      iupdate ip
      iunlockput ip
      return (0 : Int) : FsM Int) s = .ok (r, s')) :
    s'.Inv 0 D := by
  obtain ⟨_, s₁, h₁, h⟩ := bind_ok.mp h
  have hI₁ : s₁.Inv (Pi.single ip 1) D := iunlockput_release (by rwa [add_comm]) h₁
  -- `ip` is still live: the call holds it too, twice if it is `dp`
  have hip₁ := (iput_keeps_held hI (iunlockput_spec h₁).2 hip fun he => by subst he; simp).1
  obtain ⟨_, s₂, h₂, h⟩ := bind_ok.mp h
  obtain ⟨_, s₃, h₃, h⟩ := bind_ok.mp h
  have hI₃ := hI₁.agree (modify_iupdate_agree hI₁ hip₁ h₂ h₃ rfl)
  obtain ⟨_, s₄, h₄, h⟩ := bind_ok.mp h
  obtain ⟨-, rfl⟩ := pure_ok h
  exact iunlockput_release_last hI₃ h₄

/-- The end of `sys_unlink` from the removal of the entry in slot `k` of
`dp`. -/
theorem unlink_entry_inv {dp ip : Fin NINODE} {k : Nat} {r : Int}
    (hI : s.Inv (Pi.single dp 1 + Pi.single ip 1) D) (hdp : s.Live dp) (hip : s.Live ip)
    (hk : k < (s.inode dp).d.size / DIRENT_SIZE)
    (h : (do
      if (← writei dp Dirent.zero.encode (k * DIRENT_SIZE) DIRENT_SIZE) ≠ DIRENT_SIZE then
        throw "unlink: writei"
      if ((← get).inode ip).d.type = T_DIR then
        modify (·.modifyInode dp fun e => { e with d := { e.d with nlink := e.d.nlink - 1 } })
        iupdate dp
      iunlockput dp
      modify (·.modifyInode ip fun e => { e with d := { e.d with nlink := e.d.nlink - 1 } })
      iupdate ip
      iunlockput ip
      return (0 : Int) : FsM Int) s = .ok (r, s')) :
    s'.Inv 0 D := by
  obtain ⟨w, s₁, h₁, h⟩ := bind_ok.mp h
  obtain ⟨hI₁, hkeep₁⟩ := writei_dirent_inv hI hdp (by simp [Dirent.zero]) hk.le (fun hz => absurd rfl hz) h₁
  have hdp₁ := (hkeep₁ dp hdp).1
  have hip₁ := (hkeep₁ ip hip).1
  simp only [ite_run] at h
  split at h
  · simp at h
  simp only [get_bind_run, ite_run] at h
  split at h
  · -- a directory's ".." no longer counts as a link of `dp`
    obtain ⟨_, s₂, h₂, h⟩ := bind_ok.mp h
    obtain ⟨_, s₃, h₃, h⟩ := bind_ok.mp h
    have hagree := modify_iupdate_agree hI₁ hdp₁ h₂ h₃ rfl
    exact unlink_release_inv (hI₁.agree hagree) ((hagree.live ip).mpr hip₁) h
  · exact unlink_release_inv hI₁ hip₁ h

theorem sys_unlink_inv {cwd : Fin NINODE} {path : List UInt8} {r : Int}
    (hI : s.Inv 0 D) (hcwd : 0 < (s.inode cwd).ref) (h : sys_unlink cwd path s = .ok (r, s')) :
    s'.Inv 0 D := by
  -- the join points of the body are unfolded one at a time, as they are reached
  unfold sys_unlink at h
  rw [ite_run] at h
  split at h
  · exact (pure_ok h).2 ▸ hI
  obtain ⟨res, s₁, h₁, h⟩ := bind_ok.mp h
  obtain ⟨hnone₁, hsome₁, -⟩ := namex_inv hI (fun _ => hcwd) h₁
  rcases res with _ | ⟨dp, name⟩
  · exact (pure_ok h).2 ▸ hnone₁ rfl
  have hI₁ : s₁.Inv (Pi.single dp 1) D := by simpa using hsome₁ dp name rfl
  obtain ⟨_, s₂, h₂, h⟩ := bind_ok.mp h
  obtain ⟨hI₂, -, hdp₂, -⟩ := ilock_inv hI₁ h₂
  rw [ite_run] at h
  split at h
  · -- "." and ".." are never unlinked
    obtain ⟨_, s₃, h₃, h⟩ := bind_ok.mp h
    obtain ⟨-, rfl⟩ := pure_ok h
    exact iunlockput_release_last hI₂ h₃
  obtain ⟨res, s₃, h₃, hrest⟩ := bind_ok.mp h
  obtain ⟨-, s₀, hb₀, hlook⟩ := dirlookup_spec h₃
  obtain ⟨hkeep₃, hnone₃, hsome₃⟩ := dirlookup_inv hI₂ h₃
  rcases res with _ | ⟨ip, off⟩
  · obtain ⟨_, s₄, h₄, h⟩ := bind_ok.mp hrest
    obtain ⟨-, rfl⟩ := pure_ok h
    exact iunlockput_release_last (hnone₃ rfl) h₄
  -- the entry found lies within `dp`, whose size the lookup left alone
  obtain ⟨k, hoff, hk⟩ : ∃ k, off = k * DIRENT_SIZE ∧ k < (s₃.inode dp).d.size / DIRENT_SIZE := by
    rcases hlook with ⟨hr, -⟩ | ⟨k, ip', hr, hk, -, -, hget⟩
    · cases hr
    · obtain ⟨-, hoff⟩ := Prod.mk.inj (Option.some.inj hr)
      refine ⟨k, hoff, ?_⟩
      rw [iget_d hget dp, (hb₀.entry dp).2.2.2.2.2]
      exact hk
  subst hoff
  have hdp₃ := (hkeep₃ dp hdp₂).1
  obtain ⟨_, s₄, h₄, h⟩ := bind_ok.mp hrest
  obtain ⟨hI₄, hkeep₄, hip₄, -⟩ := ilock_inv (hsome₃ ip _ rfl) h₄
  have hdp₄ := (hkeep₄ dp hdp₃).1
  have hk₄ : k < (s₄.inode dp).d.size / DIRENT_SIZE := by
    rw [ilock_of_valid h₄ hdp₃.1]
    exact hk
  simp only [get_bind_run, ite_run] at h
  split at h
  · simp at h
  split at h
  · -- a directory is removed only when empty
    obtain ⟨b, s₅, h₅, h⟩ := bind_ok.mp h
    have hb₅ := isdirempty_blockStep h₅
    obtain ⟨hI₅, hlive₅⟩ := isdirempty_inv hI₄ h₅
    simp only [ite_run] at h
    split at h
    · obtain ⟨_, s₆, h₆, h⟩ := bind_ok.mp h
      obtain ⟨_, s₇, h₇, h⟩ := bind_ok.mp h
      obtain ⟨-, rfl⟩ := pure_ok h
      exact iunlockput_release_last (iunlockput_release hI₅ h₆) h₇
    · have hk₅ : k < (s₅.inode dp).d.size / DIRENT_SIZE := by
        rw [(hb₅.entry dp).2.2.2.2.2]
        exact hk₄
      exact unlink_entry_inv hI₅ (hlive₅ dp hdp₄).1 (hlive₅ ip hip₄).1 hk₅ h
  · exact unlink_entry_inv hI₄ hdp₄ hip₄ hk₄ h

theorem sys_chdir_inv {p : Fin NPROC} {cwd : Fin NINODE} {path : List UInt8} {r : Int}
    (hI : s.Inv 0 D) (hcwd : s.cwd p = some cwd) (h : sys_chdir p cwd path s = .ok (r, s')) :
    s'.Inv 0 D := by
  unfold sys_chdir at h
  simp only [ite_run] at h
  split at h
  · exact (pure_ok h).2 ▸ hI
  obtain ⟨res, s₁, h₁, h⟩ := bind_ok.mp h
  obtain ⟨hnone₁, hsome₁, hcwd₁⟩ := namei_inv hI (fun _ => hI.ref_pos_of_cwd hcwd le_rfl) h₁
  rcases res with _ | ip
  · exact (pure_ok h).2 ▸ hnone₁ rfl
  have hI₁ : s₁.Inv (Pi.single ip 1) D := by simpa using hsome₁ ip rfl
  obtain ⟨_, s₂, h₂, h⟩ := bind_ok.mp h
  obtain ⟨hI₂, -, -, -⟩ := ilock_inv hI₁ h₂
  simp only [get_bind_run, ite_run] at h
  split at h
  · -- not a directory
    obtain ⟨_, s₃, h₃, h⟩ := bind_ok.mp h
    obtain ⟨-, rfl⟩ := pure_ok h
    exact iunlockput_release_last hI₂ h₃
  obtain ⟨_, s₃, h₃, h⟩ := bind_ok.mp h
  obtain ⟨-, hs₃⟩ := iunlock_spec h₃
  rw [hs₃] at h
  obtain ⟨_, s₄, h₄, h⟩ := bind_ok.mp h
  have hI₄ := (iput_inv hI₂ h₄).1
  have hcwd₄ : s₄.cwd p = some cwd := by rw [iput_cwd h₄, ilock_cwd h₂, hcwd₁, hcwd]
  simp only [modify_bind_run] at h
  obtain ⟨-, rfl⟩ := pure_ok h
  -- the process's holder moves from `cwd` to `ip`
  refine hI₄.setCwd p (some ip) 0 fun y => ?_
  rw [hcwd₄]
  simp only [Pi.zero_apply, Pi.sub_apply, Pi.single_apply, Option.some.injEq]
  split_ifs <;> omega

/-! ## `exec` -/

theorem readi_blockStep (ip : Fin NINODE) (off n : Nat) : Guarantees Fs.BlockStep (readi ip off n) :=
  fun _ _ _ h => (readi_spec h).1

theorem loadsegLoop_blockStep (ip : Fin NINODE) (offset sz : Nat) :
    ∀ fuel i, Guarantees Fs.BlockStep (loadsegLoop ip offset sz fuel i)
  | 0, _ => Guarantees.pure _
  | fuel + 1, i => by
      rw [loadsegLoop]
      refine Guarantees.ite ((readi_blockStep ip _ _).bind fun ⟨r, _⟩ => ?_) (Guarantees.pure _)
      exact Guarantees.ite (Guarantees.pure _) (loadsegLoop_blockStep ip offset sz fuel _)

/-- The program-header loop reads the inode and changes no entry of the
table: every step is a `readi`. -/
theorem execLoop_blockStep (ip : Fin NINODE) (mem : ExecMem) (phnum : Nat) :
    ∀ fuel i off k, Guarantees Fs.BlockStep (execLoop ip mem phnum fuel i off k)
  | 0, _, _, _ => Guarantees.pure _
  | fuel + 1, i, off, k => by
      rw [execLoop]
      refine Guarantees.ite ((readi_blockStep ip _ _).bind fun ⟨r, ph⟩ => ?_) (Guarantees.pure _)
      refine Guarantees.ite (Guarantees.pure _) (Guarantees.ite
        (execLoop_blockStep ip mem phnum fuel _ _ _) ?_)
      -- a loadable segment: the checks, then `loadseg` and the next header
      repeat refine Guarantees.ite (Guarantees.pure _) ?_
      exact (loadsegLoop_blockStep ip _ _ _ _).bind fun ok =>
        Guarantees.ite (Guarantees.pure _) (execLoop_blockStep ip mem phnum fuel _ _ _)

/-- What `exec` does to the file system: a failed `namei`, or `namei`,
`ilock`, reads of the inode, and `iunlockput` of what `namei` returned. -/
theorem exec_spec {cwd : Fin NINODE} {path : List UInt8} {argc : Nat} {mem : ExecMem} {r : Int}
    (h : exec cwd path argc mem s = .ok (r, s')) :
    namei cwd path s = .ok (none, s') ∨
      ∃ ip s₁ s₂ s₃, namei cwd path s = .ok (some ip, s₁) ∧ ilock ip s₁ = .ok ((), s₂) ∧
        Fs.BlockStep s₂ s₃ ∧ iunlockput ip s₃ = .ok ((), s') := by
  unfold exec at h
  obtain ⟨res, s₁, h₁, h⟩ := bind_ok.mp h
  rcases res with _ | ip
  · exact .inl ((pure_ok h).2 ▸ h₁)
  obtain ⟨_, s₂, h₂, h⟩ := bind_ok.mp h
  obtain ⟨⟨n, elf⟩, s₃, h₃, h⟩ := bind_ok.mp h
  have hb₃ := (readi_spec h₃).1
  simp only [ite_run] at h
  split at h
  · -- `bad` at the ELF header or `proc_pagetable`
    obtain ⟨_, s₄, h₄, h⟩ := bind_ok.mp h
    obtain ⟨-, rfl⟩ := pure_ok h
    exact .inr ⟨ip, s₁, s₂, s₃, h₁, h₂, hb₃, h₄⟩
  obtain ⟨_, s₄, h₄, h⟩ := bind_ok.mp h
  obtain ⟨_, s₅, h₅, h⟩ := bind_ok.mp h
  obtain ⟨-, rfl⟩ := pure_ok h
  exact .inr ⟨ip, s₁, s₂, s₄, h₁, h₂, hb₃.trans (execLoop_blockStep ip mem _ _ _ _ _ _ _ _ h₄), h₅⟩

theorem sys_exec_spec {cwd : Fin NINODE} {path : List UInt8} {argv : Option Nat} {mem : ExecMem} {r : Int}
    (h : sys_exec cwd path argv mem s = .ok (r, s')) :
    s' = s ∨ ∃ argc, exec cwd path argc mem s = .ok (r, s') := by
  unfold sys_exec at h
  simp only [ite_run] at h
  split at h
  · exact .inl (pure_ok h).2
  rcases argv with _ | argc
  · exact .inl (pure_ok h).2
  · exact .inr ⟨argc, h⟩

theorem sys_exec_inv {cwd : Fin NINODE} {path : List UInt8} {argv : Option Nat} {mem : ExecMem} {r : Int}
    (hI : s.Inv 0 D) (hcwd : 0 < (s.inode cwd).ref) (h : sys_exec cwd path argv mem s = .ok (r, s')) :
    s'.Inv 0 D := by
  rcases sys_exec_spec h with rfl | ⟨argc, h⟩
  · exact hI
  rcases exec_spec h with h₁ | ⟨ip, s₁, s₂, s₃, h₁, h₂, hb₃, h₄⟩
  · exact (namei_inv hI (fun _ => hcwd) h₁).1 rfl
  -- the reference `namei` took is the one `iunlockput` gives back
  have hI₁ : s₁.Inv (Pi.single ip 1) D := by simpa using (namei_inv hI (fun _ => hcwd) h₁).2.1 ip rfl
  have hI₃ := (ilock_inv hI₁ h₂).1.agree (Agree.of_blockStep hb₃)
  exact iunlockput_release_last hI₃ h₄

/-! ## `fork`, `exit` and the machine -/

/-- A pass over a list whose every step keeps the invariant and the current
directories keeps them. -/
theorem forM_inv {γ : Type} {xs : List γ} {body : γ → FsM PUnit} {u : PUnit}
    (hbody : ∀ x ∈ xs, ∀ s s' u, s.Inv 0 D → body x s = .ok (u, s') → s'.Inv 0 D ∧ s'.cwd = s.cwd)
    (hI : s.Inv 0 D) (h : xs.forM body s = .ok (u, s')) : s'.Inv 0 D ∧ s'.cwd = s.cwd :=
  Guarantees.forM (R := Under (fun s : Fs => s.Inv 0 D) (Fixes Fs.cwd))
    (fun x hx s₀ a s₀' hb hI₀ => hbody x hx s₀ s₀' a hI₀ hb) s u s' h hI

theorem fork_files_inv {p c : Fin NPROC} {cwd : Fin NINODE} {u : Unit}
    (hI : s.Inv 0 D) (hcwd : s.cwd p = some cwd) (hc : s.cwd c = none)
    (h : fork_files p c cwd s = .ok (u, s')) : s'.Inv 0 D := by
  unfold fork_files at h
  obtain ⟨_, s₁, h₁, h⟩ := bind_ok.mp h
  -- every open descriptor is duplicated into the child
  obtain ⟨hI₁, hcwd₁⟩ := forM_inv (fun i _ s₀ s₀' a hI₀ hb => by
      simp only [get_bind_run] at hb
      cases hf : s₀.ofile p i with
      | none =>
          simp only [hf] at hb
          obtain ⟨-, rfl⟩ := pure_ok hb
          exact ⟨hI₀, rfl⟩
      | some f =>
          simp only [hf] at hb
          obtain ⟨f', s₂, h₂, hb⟩ := bind_ok.mp hb
          obtain ⟨hI₂, -, hcwd₂, -⟩ := filedup_inv hI₀ h₂
          rw [modify_ok hb]
          exact ⟨hI₂.agree (Agree.ofile _ _), hcwd₂⟩) hI h₁
  have hpos := hI₁.ref_pos_of_cwd (by rw [hcwd₁]; exact hcwd) le_rfl
  obtain ⟨ip, s₂, h₂, h⟩ := bind_ok.mp h
  rw [idup_run, Except.ok.injEq, Prod.mk.injEq] at h₂
  obtain ⟨rfl, rfl⟩ := h₂
  rw [modify_ok h]
  -- the child's current directory takes over the reference `idup` took
  refine (idup_inv hI₁ hpos).setCwd c (some cwd) 0 fun y => ?_
  rw [modifyInode_cwd, hcwd₁, hc]
  by_cases hy : y = cwd
  · subst hy
    simp
  · simp [hy, Ne.symm hy]

theorem exit_files_inv {p : Fin NPROC} {cwd : Fin NINODE} {u : Unit}
    (hI : s.Inv 0 D) (hcwd : s.cwd p = some cwd) (h : exit_files p cwd s = .ok (u, s')) :
    s'.Inv 0 D := by
  unfold exit_files at h
  simp only [ite_run] at h
  split at h
  · simp at h
  obtain ⟨_, s₁, h₁, h⟩ := bind_ok.mp h
  -- every open descriptor is closed
  obtain ⟨hI₁, hcwd₁⟩ := forM_inv (fun fd _ s₀ s₀' a hI₀ hb => by
      simp only [get_bind_run] at hb
      cases hf : s₀.ofile p fd with
      | none =>
          simp only [hf] at hb
          obtain ⟨-, rfl⟩ := pure_ok hb
          exact ⟨hI₀, rfl⟩
      | some f =>
          simp only [hf] at hb
          obtain ⟨_, s₂, h₂, hb⟩ := bind_ok.mp hb
          obtain ⟨hI₂, hcwd₂⟩ := fileclose_inv hI₀ h₂
          rw [modify_ok hb]
          exact ⟨hI₂.agree (Agree.ofile _ _), hcwd₂⟩) hI h₁
  obtain ⟨_, s₂, h₂, h⟩ := bind_ok.mp h
  have hI₂ := (iput_inv hI₁ h₂).1
  have hcwd₂ : s₂.cwd p = some cwd := by rw [iput_cwd h₂, hcwd₁, hcwd]
  rw [modify_ok h]
  -- the process's current directory gives back its reference
  refine hI₂.setCwd p none 0 fun y => ?_
  rw [hcwd₂]
  by_cases hy : y = cwd
  · subst hy
    simp
  · simp [hy, Ne.symm hy]

/-- One call of a process with current directory `cwd` keeps the invariant;
a `fork` is made into a free slot. -/
theorem FsCall.run_inv {p : Fin NPROC} {cwd : Fin NINODE} {call : FsCall} {r : Int}
    (hI : s.Inv 0 D) (hcwd : s.cwd p = some cwd) (hfree : ∀ c, call = .fork c → s.cwd c = none)
    (h : call.run p cwd s = .ok (r, s')) : s'.Inv 0 D := by
  have hpos := hI.ref_pos_of_cwd hcwd le_rfl
  cases call with
  | «open» path omode => exact sys_open_inv hI hpos h
  | close fd => exact sys_close_inv hI h
  | mkdir path => exact sys_mkdir_inv hI hpos h
  | mknod path major minor => exact sys_mknod_inv hI hpos h
  | link old new => exact sys_link_inv hI hcwd h
  | unlink path => exact sys_unlink_inv hI hpos h
  | chdir path => exact sys_chdir_inv hI hcwd h
  | exec path argv mem => exact sys_exec_inv hI hpos h
  | fork c =>
      obtain ⟨_, s₁, h₁, h⟩ := bind_ok.mp h
      obtain ⟨-, rfl⟩ := pure_ok h
      exact fork_files_inv hI hcwd (hfree c rfl) h₁
  | exit =>
      obtain ⟨_, s₁, h₁, h⟩ := bind_ok.mp h
      obtain ⟨-, rfl⟩ := pure_ok h
      exact exit_files_inv hI hcwd h₁

/-- Every step of the machine keeps the invariant. -/
theorem fsStep_inv {e : FsEvent} {r : Int} (hI : s.Inv 0 D) (h : fsStep s e = some (s', r)) :
    s'.Inv 0 D := by
  unfold fsStep at h
  split at h
  · cases h
  rename_i cwd hcwd
  split at h
  · cases h
  rename_i hfork
  split at h
  · rename_i r' s'' hrun
    obtain ⟨rfl, rfl⟩ := Prod.mk.inj (Option.some.inj h)
    refine FsCall.run_inv hI hcwd (fun c hc => ?_) hrun
    -- a fork into a slot that has a current directory has no step
    cases hcc : s.cwd c with
    | none => rfl
    | some _ => exact absurd ⟨c, hc, by simp [hcc]⟩ hfork
  · cases h

/-- The invariant holds in every state a run reaches from one where it
holds. -/
theorem Run.fs_inv {s₀ : Fs} {hist : List (Fs × FsEvent × Int)} (h₀ : s₀.Inv 0 D)
    (hrun : Machine.Run fsStep s₀ hist s) : s.Inv 0 D :=
  Machine.Run.state_invariant (fun s => s.Inv 0 D) h₀ (fun _ _ _ _ hI h => fsStep_inv hI h) hrun

end Xv6
