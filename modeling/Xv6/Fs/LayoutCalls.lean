/-
# `Xv6.Fs.LayoutCalls` — every call keeps the directories laid out

Each call of `FsCall` is walked through with three facts at every state
it passes: the reference invariant `Fs.Inv` (from `Xv6.Fs.SysfileInv`),
`HeldAlloc`, and how the heads of the directories so far relate to those
at the call's start.

**What the calls do to the heads.**

    close, chdir, fork, exit    write nothing but the type 0 of inodes they
                                free (`FreesOnly`)
    open, mknod, link, unlink   keep the head of every directory
    mkdir                       keeps the head of every directory but the
                                inode `ialloc` hands it; that one, if it is
                                still a directory at the end, opens with `.`
                                naming itself and `..` naming the directory
                                `nameiparent` found

`create` is where the new head is written: two `dirlink`s into the new,
empty directory append `.` at slot 0 and `..` at slot 1
(`dirlink_append`).  When one of its `dirlink`s fails, `create` frees the
new inode again; that it is the last reference it drops is what
`ialloc_fresh` says, from `HeldAlloc`.
-/
import Xv6.Fs.Layout

namespace Xv6

open StateExcept

namespace Fs

variable {s t : Fs} {ex : Fin NINODE → Int} {D : Prop}

/-! ## Steps on the inode table -/

/-- A live entry of a coherent table names an allocated inode. -/
theorem Inv.alloc_of_live (hI : s.Inv ex D) {ip : Fin NINODE} (hl : s.Live ip) :
    (s.dinode (s.inode ip).inum).type ≠ 0 := by
  rw [(hI.coherent ip hl).1]
  exact (hI.coherent ip hl).2.2

/-- A step that agrees with the disk on every type, size and byte keeps
every head. -/
theorem KeepsHeads.of_agree (h : Agree s t) (hsb : t.sb = s.sb) : KeepsHeads none s t :=
  ⟨hsb, fun d _ ht => ⟨(h.type d).symm.trans ht, (h.size d).ge, fun i _ => by rw [h.data]⟩⟩

/-- An inode that is not a directory at the end needs no head. -/
theorem KeepsHeads.of_not_dir {c : Nat} (h : KeepsHeads (some c) s t) (hc : (t.dinode c).type ≠ T_DIR) :
    KeepsHeads none s t := by
  refine ⟨h.sb, fun d _ ht => ?_⟩
  by_cases hd : d = c
  · subst hd
    exact absurd ht hc
  · exact h.head d (fun h' => hd (Option.some.inj h').symm) ht

/-- A change of an entry that keeps what the invariant reads of it, written
back: `iupdate` after a change of the link count or the device numbers. -/
theorem modify_iupdate_keeps (hI : s.Inv ex D) {ip : Fin NINODE} (hl : s.Live ip) {f : Inode → Inode}
    {s₁ s₂ : Fs} {u u' : Unit} (h₁ : (modify fun x => x.modifyInode ip f : FsM Unit) s = .ok (u, s₁))
    (h₂ : iupdate ip s₁ = .ok (u', s₂)) (hf : (f (s.inode ip)).key = (s.inode ip).key) :
    Agree s s₂ ∧ KeepsHeads none s s₂ := by
  have hagree := modify_iupdate_agree hI hl h₁ h₂ hf
  rw [modify_ok h₁, iupdate_run, Except.ok.injEq, Prod.mk.injEq] at h₂
  rw [← h₂.2] at hagree ⊢
  exact ⟨hagree, KeepsHeads.of_agree hagree rfl⟩

/-- `iput` of the last reference to a valid inode with no links frees it. -/
theorem iput_last_frees {ip : Fin NINODE} {u : Unit} (hr : (s.inode ip).ref = 1)
    (hv : (s.inode ip).valid = true) (hn : (s.inode ip).d.nlink = 0) (h : iput ip s = .ok (u, t)) :
    (t.dinode (s.inode ip).inum).type = 0 := by
  rcases iput_spec h with ⟨hne, -⟩ | ⟨-, -, -, s₁, hb, rfl⟩
  · exact absurd ⟨hr, hv, hn⟩ hne
  · rw [← (hb.entry ip).1]
    simp [Fs.free, Fs.truncate]

/-- What `ialloc` leaves when it hands back an entry: the inode it took was
free and is in range, it now has the type asked for and size `0`, and
every other inode keeps its head. -/
theorem ialloc_new {type : Int16} {ip : Fin NINODE} (h : ialloc type s = .ok (some ip, t)) :
    1 ≤ (t.inode ip).inum ∧ (t.inode ip).inum < s.sb.ninodes ∧ (s.dinode (t.inode ip).inum).type = 0 ∧
      (t.dinode (t.inode ip).inum).type = type ∧ (t.dinode (t.inode ip).inum).size = 0 ∧
      KeepsHeads (some (t.inode ip).inum) s t := by
  rcases ialloc_spec h with ⟨h0, -⟩ | ⟨inum, ip', hr, h1, hlt, hfree, hget⟩
  · cases h0
  cases hr
  -- `iget` names the entry `inum` and leaves the disk as `ialloc` set it
  have hkeep := (iget_frees inum _ ip t hget).keepsHeads (c := some inum)
  have hinum : (t.inode ip).inum = inum := by
    rcases iget_spec hget with ⟨-, hinum, rfl⟩ | ⟨-, -, rfl⟩
    · simpa using hinum
    · simp
  have hdin : t.dinode = Function.update s.dinode inum { DInode.zero with type := type } := by
    rcases iget_spec hget with ⟨-, -, rfl⟩ | ⟨-, -, rfl⟩ <;> rfl
  rw [hinum, hdin, Function.update_self]
  exact ⟨h1, hlt, hfree, rfl, rfl, trans_of (KeepsHeads (some inum)) (KeepsHeads.setType s inum _) hkeep⟩

/-- The entry `ialloc` hands back is one nobody referenced: the inode it
takes is free, and every entry that is held or that the call references
names an allocated inode. -/
theorem ialloc_fresh {type : Int16} {ip : Fin NINODE} (hI : s.Inv ex D) (hA : s.HeldAlloc)
    (hex : ∀ y, 0 < ex y → (s.dinode (s.inode y).inum).type ≠ 0) (h : ialloc type s = .ok (some ip, t)) :
    (t.inode ip).ref = 1 := by
  rcases ialloc_spec h with ⟨h0, -⟩ | ⟨inum, ip', hr, -, -, hfree, hget⟩
  · cases h0
  cases hr
  rcases iget_spec hget with ⟨hpos, hinum, -⟩ | ⟨-, -, rfl⟩
  · -- a referenced entry naming the free inode would be held, or the call's
    exfalso
    change 0 < (s.inode ip).ref at hpos
    change (s.inode ip).inum = inum at hinum
    have hheld := hI.held ip
    have hfree' : (s.dinode (s.inode ip).inum).type = 0 := by rw [hinum]; exact hfree
    by_cases hh : 0 < s.holders ip
    · exact hA ip hh hfree'
    · exact hex ip (by omega) hfree'
  · simp

/-! ## `dirlink` into a full directory -/

@[simp] theorem writeBytes_inode (s : Fs) (inum off len : Nat) (src : List UInt8) (so : Nat) :
    (s.writeBytes inum off len src so).inode = s.inode := rfl

@[simp] theorem writeBytes_dinode (s : Fs) (inum off len : Nat) (src : List UInt8) (so : Nat) :
    (s.writeBytes inum off len src so).dinode = s.dinode := rfl

/-- A `dirlink` that succeeds into a directory of `n` slots, all used,
appends the entry as slot `n`. -/
theorem dirlink_append {dp : Fin NINODE} {name : List UInt8} {inum n : Nat} {r : Int}
    (hsz : (s.inode dp).d.size = n * DIRENT_SIZE)
    (hfull : ∀ k < n, (s.slot (s.inode dp).inum k).inum ≠ 0) (h : dirlink dp name inum s = .ok (r, t))
    (hr : ¬ r < 0) :
    (∀ k, t.slot (s.inode dp).inum k =
      if k = n then Dirent.named name inum else s.slot (s.inode dp).inum k) ∧
    (t.dinode (s.inode dp).inum).size = (n + 1) * DIRENT_SIZE ∧
    (t.dinode (s.inode dp).inum).type = (s.inode dp).d.type := by
  have hsz16 : DIRENT_SIZE = 16 := rfl
  obtain ⟨-, s₁, hb, ⟨k, ip, s₂, -, -, hr', -⟩ | ⟨-, k, w, hk, hfree, hw, hr'⟩⟩ := dirlink_spec h
  · subst hr'
    exact absurd (by decide) hr
  -- the first free slot is the one past the end
  have hkn : k = n := by
    rw [hsz, hsz16, Nat.mul_div_cancel _ (by decide)] at hk hfree
    by_contra hne
    exact hfull k (by omega) (hfree (by omega))
  subst hkn
  have hw16 : w = DIRENT_SIZE := by
    by_contra hne
    rw [if_pos hne] at hr'
    subst hr'
    exact hr (by decide)
  subst hw16
  obtain ⟨hinum, -, -, htype, -, hsize⟩ := hb.entry dp
  obtain ⟨-, -, hdata, -, -, -⟩ := hb.fields
  rcases writei_spec hw with ⟨h16, -⟩ | ⟨-, -, tot, s₂, htot, -, -, hb₂, rfl⟩
  · cases h16
  have htot16 : tot = DIRENT_SIZE := by exact_mod_cast htot.symm
  subst htot16
  obtain ⟨hinum₂, -, -, htype₂, -, hsize₂⟩ := hb₂.entry dp
  obtain ⟨-, -, hdata₂, -, -, -⟩ := hb₂.fields
  rw [hinum] at hinum₂
  refine ⟨fun j => ?_, ?_, ?_⟩
  · -- the bytes are `writeBytes`'s: `modifyInode` and `writeBack` leave them
    change (s₂.writeBytes (s₁.inode dp).inum (k * DIRENT_SIZE) DIRENT_SIZE
      (Dirent.encode ⟨UInt16.ofNat inum, strncpy name DIRSIZ⟩) 0).slot (s.inode dp).inum j = _
    rw [hinum, slot_writeDirent _ _ _ _ (length_strncpy _ _)]
    unfold slot
    rw [hdata₂, hdata]
    rfl
  · simp only [writeBack_dinode, modifyInode_inode, if_true, writeBytes_inode, hinum₂, Function.update_self]
    rw [hsize₂, hsize, hsz, hsz16]
    omega
  · simp only [writeBack_dinode, modifyInode_inode, if_true, writeBytes_inode, hinum₂, Function.update_self]
    rw [htype₂, htype]

/-- `.` and `..` appended to an empty directory make its head. -/
theorem dirlinks_heads {ip : Fin NINODE} {p : Nat} {s₁ : Fs} {r₁ r₂ : Int} (hI : s.Inv ex D) (hl : s.Live ip)
    (hc : Nameable (s.inode ip).inum) (hp : Nameable p) (hsize : (s.inode ip).d.size = 0)
    (h₁ : dirlink ip DOT (s.inode ip).inum s = .ok (r₁, s₁)) (hr₁ : ¬ r₁ < 0)
    (h₂ : dirlink ip DOTDOT p s₁ = .ok (r₂, t)) (hr₂ : ¬ r₂ < 0) :
    t.Heads (s.inode ip).inum p := by
  obtain ⟨hI₁, hkeep₁⟩ := dirlink_inv hI hl h₁
  obtain ⟨hl₁, hinum₁⟩ := hkeep₁ ip hl
  -- "." goes to slot 0 of the empty directory
  obtain ⟨hslot₁, hsize₁, -⟩ := dirlink_append (n := 0) (by rw [hsize, Nat.zero_mul])
    (fun _ hk => absurd hk (Nat.not_lt_zero _)) h₁ hr₁
  have hdot : s₁.slot (s.inode ip).inum 0 = Dirent.named DOT (s.inode ip).inum := by
    rw [hslot₁ 0, if_pos rfl]
  -- ".." goes to slot 1: the entry's size is the disk's, one slot
  have hsz₁ : (s₁.inode ip).d.size = 1 * DIRENT_SIZE := by
    rw [← (hI₁.coherent ip hl₁).2.1, hinum₁, hsize₁]
  obtain ⟨hslot₂, hsize₂, -⟩ := dirlink_append (n := 1) hsz₁ (fun k hk => by
    rw [show k = 0 by omega, hinum₁, hdot]
    exact hc.ofNat_ne_zero) h₂ hr₂
  rw [hinum₁] at hslot₂ hsize₂
  refine ⟨hc, hp, by rw [hsize₂], ?_, ?_⟩
  · rw [hslot₂ 0, if_neg (by decide), hdot]
  · rw [hslot₂ 1, if_pos rfl]

/-- `dirlink` into a live entry of a laid-out state writes past the head of
the directory it checked. -/
theorem dirlink_keeps_laid {dp : Fin NINODE} {name : List UInt8} {inum : Nat} {r : Int}
    (hI : s.Inv ex D) (hl : s.Live dp) (hL : s.Laid) (h : dirlink dp name inum s = .ok (r, t)) :
    KeepsHeads none s t := by
  refine dirlink_keeps hI hl (fun _ => ?_) h
  obtain ⟨q, hq⟩ := hL.dirs _ ((hI.coherent dp hl).1.trans (dirlink_spec h).1)
  rw [← (hI.coherent dp hl).2.1]
  exact ⟨hq.size, fun k hk => hq.used hk⟩

/-! ## `create` -/

/-- The heads after a step that may have made a new directory: every head
but that of an inode `c` is kept, and `c`, if it is a directory at the
end, opens with `.` and with `..` naming the directory `nameiparent cwd
path` found from the state the step started in. -/
def MadeDir (cwd : Fin NINODE) (path : List UInt8) (s t : Fs) : Prop :=
  ∃ dp name s₁ c, nameiparent cwd path s = .ok (some (dp, name), s₁) ∧ KeepsHeads (some c) s t ∧
    ((t.dinode c).type = T_DIR → t.Heads c (s₁.inode dp).inum)

theorem MadeDir.keeps {u : Fs} {cwd : Fin NINODE} {path : List UInt8} (h : MadeDir cwd path s t)
    (hk : KeepsHeads none t u) : MadeDir cwd path s u := by
  obtain ⟨dp, name, s₁, c, hn, hkc, hc⟩ := h
  exact ⟨dp, name, s₁, c, hn, trans_of (KeepsHeads (some c)) hkc hk.mono,
    fun ht => (hc ((hk.head c (by simp) ht).1)).keep (hk.head c (by simp)) ht⟩

theorem iget_holders {inum : Nat} {ip : Fin NINODE} (h : iget inum s = .ok (ip, t)) : t.holders = s.holders := by
  rcases iget_spec h with ⟨-, -, rfl⟩ | ⟨-, -, rfl⟩ <;> rfl

theorem ilock_holders {ip : Fin NINODE} {u : Unit} (h : ilock ip s = .ok (u, t)) : t.holders = s.holders := by
  obtain ⟨-, ⟨-, rfl⟩ | ⟨-, -, rfl⟩⟩ := ilock_spec h <;> rfl

theorem ilock_dinode {ip : Fin NINODE} {u : Unit} (h : ilock ip s = .ok (u, t)) : t.dinode = s.dinode := by
  obtain ⟨-, ⟨-, rfl⟩ | ⟨-, -, rfl⟩⟩ := ilock_spec h <;> rfl

theorem dirlink_holders {dp : Fin NINODE} {name : List UInt8} {inum : Nat} {r : Int}
    (h : dirlink dp name inum s = .ok (r, t)) : t.holders = s.holders := by
  obtain ⟨-, s₁, hb, ⟨k, ip, s₂, -, -, -, hget, hput⟩ | ⟨-, k, w, -, -, hw, -⟩⟩ := dirlink_spec h
  · rw [iput_holders hput, iget_holders hget, (Agree.of_blockStep hb).holders]
  · rcases writei_spec hw with ⟨-, rfl⟩ | ⟨-, -, tot, s₂, -, -, -, hb₂, rfl⟩
    · exact (Agree.of_blockStep hb).holders
    · rw [holders_writeBack, holders_modifyInode]
      exact ((Agree.of_blockStep hb₂).holders).trans (Agree.of_blockStep hb).holders

/-- The entry `ialloc` handed back: referenced once, by the call, held by
no one and not the parent's. -/
theorem Inv.fresh_of_ref_one {ip dp : Fin NINODE} (hI : s.Inv (Pi.single dp 1 + Pi.single ip 1) D)
    (hone : (s.inode ip).ref = 1) : s.holders ip = 0 ∧ ip ≠ dp := by
  have hheld := hI.held ip
  have h0 := s.holders_nonneg ip
  by_cases hne : ip = dp
  · subst hne
    simp only [Pi.add_apply, Pi.single_eq_same] at hheld
    omega
  · simp only [Pi.add_apply, Pi.single_eq_same, Pi.single_eq_of_ne hne] at hheld
    exact ⟨by omega, hne⟩

theorem Inv.ref_one {ip dp : Fin NINODE} (hI : s.Inv (Pi.single dp 1 + Pi.single ip 1) D)
    (hh : s.holders ip = 0) (hne : ip ≠ dp) : (s.inode ip).ref = 1 := by
  have hheld := hI.held ip
  simp only [Pi.add_apply, Pi.single_eq_same, Pi.single_eq_of_ne hne] at hheld
  omega

/-- `create`'s `fail:` path, when the call holds the only reference to the
new inode `ip`, frees it. -/
theorem create_fail_layout {ip dp : Fin NINODE} {r : Option (Fin NINODE)}
    (hI : s.Inv (Pi.single dp 1 + Pi.single ip 1) D) (hl : s.Live ip) (hA : s.HeldAlloc)
    (hone : (s.inode ip).ref = 1) (h : create_fail ip dp s = .ok (r, t)) :
    t.HeldAlloc ∧ KeepsHeads (some (s.inode ip).inum) s t ∧ (t.dinode (s.inode ip).inum).type = 0 := by
  unfold create_fail at h
  obtain ⟨_, s₁, h₁, h⟩ := bind_ok.mp h
  obtain ⟨_, s₂, h₂, h⟩ := bind_ok.mp h
  obtain ⟨hagree, hk₂⟩ := modify_iupdate_keeps hI hl h₁ h₂ rfl
  have hs₂ : s₂ = (s.modifyInode ip fun e => { e with d := { e.d with nlink := 0 } }).writeBack ip := by
    rw [modify_ok h₁, iupdate_run, Except.ok.injEq, Prod.mk.injEq] at h₂
    exact h₂.2.symm
  have hI₂ := hI.agree hagree
  obtain ⟨_, s₃, h₃, h⟩ := bind_ok.mp h
  obtain ⟨_, s₄, h₄, h⟩ := bind_ok.mp h
  obtain ⟨-, rfl⟩ := pure_ok h
  -- the only reference to a valid entry with no links: `iput` frees it
  have hput := (iunlockput_spec h₃).2
  have hfree₃ : (s₃.dinode (s.inode ip).inum).type = 0 := by
    subst hs₂
    simpa using iput_last_frees (by simpa using hone) (by simpa using hl.1) (by simp) hput
  have hf₄ := trans_of FreesOnly (iput_frees ip _ _ _ hput) (iunlockput_frees dp s₃ _ _ h₄)
  have hI₃ : s₃.Inv (0 + Pi.single dp 1) D := by rw [zero_add]; exact iunlockput_release hI₂ h₃
  have hA₃ := iunlockput_release_held hI₂ (single_nonneg dp) (hA.agree hagree) h₃
  refine ⟨iunlockput_release_held hI₃ (fun _ => le_rfl) hA₃ h₄,
    trans_of (KeepsHeads _) hk₂.mono hf₄.keepsHeads, ?_⟩
  rcases (iunlockput_frees dp s₃ _ _ h₄).dinode (s.inode ip).inum with hd | hd
  · rw [hd]
    exact hfree₃
  · exact hd

/-- One `dirlink` of `create` into its new directory `ip`, of inode `c`,
whose one reference is `create`'s: the invariant, that reference and the
heads of every inode but `c` carry over. -/
theorem create_dirlink_step {s₀ : Fs} {ip dp : Fin NINODE} {c : Nat} {name : List UInt8} {inum : Nat}
    {w : Int} (hI : s.Inv (Pi.single dp 1 + Pi.single ip 1) D) (hip : s.Live ip) (hA : s.HeldAlloc)
    (hh : s.holders ip = 0) (hinum : (s.inode ip).inum = c) (hk : KeepsHeads (some c) s₀ s)
    (h : dirlink ip name inum s = .ok (w, t)) :
    t.Inv (Pi.single dp 1 + Pi.single ip 1) D ∧ KeepsLive s t ∧ t.HeldAlloc ∧ t.holders ip = 0 ∧
      (t.inode ip).inum = c ∧ KeepsHeads (some c) s₀ t := by
  obtain ⟨hI', hkeep⟩ := dirlink_inv hI hip h
  have hA' := dirlink_held hI (fun y => add_nonneg (single_nonneg dp y) (single_nonneg ip y)) hip hA h
  refine ⟨hI', hkeep, hA', by rw [dirlink_holders h]; exact hh, by rw [(hkeep ip hip).2, hinum], ?_⟩
  -- the new directory's writes are its own
  exact trans_of (KeepsHeads (some c)) hk (dirlink_keeps hI hip (fun hne => absurd (by rw [hinum]) hne) h)

/-- Where a `dirlink` into the new directory fails, `create_fail` gives
its inode `c` back: the type on disk is `0` again, so every head is kept. -/
theorem create_fail_keeps {s₀ : Fs} {ip dp : Fin NINODE} {c : Nat} {r : Option (Fin NINODE)}
    (hI : s.Inv (Pi.single dp 1 + Pi.single ip 1) D) (hip : s.Live ip) (hA : s.HeldAlloc)
    (hh : s.holders ip = 0) (hne : ip ≠ dp) (hinum : (s.inode ip).inum = c) (hk : KeepsHeads (some c) s₀ s)
    (h : create_fail ip dp s = .ok (r, t)) : t.HeldAlloc ∧ KeepsHeads none s₀ t := by
  obtain ⟨hA', hk', hfree⟩ := create_fail_layout hI hip hA (hI.ref_one hh hne) h
  rw [hinum] at hk' hfree
  exact ⟨hA', (trans_of (KeepsHeads (some c)) hk hk').of_not_dir (by rw [hfree]; decide)⟩

/-- The end of `create` for a new inode `ip` in `dp`: `dp` is a laid-out
directory, and `dirlink` writes past its head. -/
theorem create_link_layout {dp ip : Fin NINODE} {name : List UInt8} {type : Int16} {r : Option (Fin NINODE)}
    (hI : s.Inv (Pi.single dp 1 + Pi.single ip 1) D) (hdp : s.Live dp) (hip : s.Live ip) (hA : s.HeldAlloc)
    (hL : s.Laid) (hh : s.holders ip = 0) (hne : ip ≠ dp)
    (h : (do
      if (← dirlink dp name ((← get).inode ip).inum) < 0 then return ← create_fail ip dp
      if type = T_DIR then
        modify (·.modifyInode dp fun e => { e with d := { e.d with nlink := e.d.nlink + 1 } })
        iupdate dp
      iunlockput dp
      return some ip : FsM (Option (Fin NINODE))) s = .ok (r, t)) :
    t.HeldAlloc ∧ KeepsHeads none s t := by
  simp only [get_bind_run] at h
  obtain ⟨w, s₁, h₁, h⟩ := bind_ok.mp h
  obtain ⟨hI₁, hkeep₁⟩ := dirlink_inv hI hdp h₁
  have hA₁ := dirlink_held hI (fun y => add_nonneg (single_nonneg dp y) (single_nonneg ip y)) hdp hA h₁
  have hk₁ := dirlink_keeps_laid hI hdp hL h₁
  have hdp₁ := (hkeep₁ dp hdp).1
  have hh₁ : s₁.holders ip = 0 := by rw [dirlink_holders h₁]; exact hh
  simp only [ite_run] at h
  split at h
  · -- the name is taken, or `dp` cannot grow: the new inode is freed
    exact create_fail_keeps hI₁ (hkeep₁ ip hip).1 hA₁ hh₁ hne rfl hk₁.mono h
  obtain ⟨s₂, hI₂, hA₂, hk₂, h⟩ : ∃ s₂, s₂.Inv (Pi.single ip 1 + Pi.single dp 1) D ∧ s₂.HeldAlloc ∧
      KeepsHeads none s₁ s₂ ∧ (iunlockput dp >>= fun _ => pure (some ip) : FsM (Option (Fin NINODE))) s₂ =
        .ok (r, t) := by
    split at h
    · obtain ⟨_, s₂, h₂, h⟩ := bind_ok.mp h
      obtain ⟨_, s₃, h₃, h⟩ := bind_ok.mp h
      obtain ⟨hagree, hk⟩ := modify_iupdate_keeps hI₁ hdp₁ h₂ h₃ rfl
      exact ⟨s₃, by rw [add_comm]; exact hI₁.agree hagree, hA₁.agree hagree, hk, h⟩
    · exact ⟨s₁, by rwa [add_comm], hA₁, refl_of _ _, h⟩
  obtain ⟨_, s₃, h₃, h⟩ := bind_ok.mp h
  obtain ⟨-, rfl⟩ := pure_ok h
  exact ⟨iunlockput_release_held hI₂ (single_nonneg ip) hA₂ h₃,
    trans_of (KeepsHeads none) hk₁ (trans_of (KeepsHeads none) hk₂ (iunlockput_frees dp s₂ _ _ h₃).keepsHeads)⟩

/-- What `create` does to the heads of the directories: all are kept, or
all but the one of the inode `ialloc` handed a new directory, which, if
it is still a directory at the end, opens with `.` and with `..` naming
the directory `nameiparent` found. -/
theorem create_layout {cwd : Fin NINODE} {path : List UInt8} {type major minor : Int16} {r : Option (Fin NINODE)}
    (hI : s.Inv 0 D) (hcwd : 0 < (s.inode cwd).ref) (hA : s.HeldAlloc) (hL : s.Laid) (htype : type ≠ 0)
    (h : create cwd path type major minor s = .ok (r, t)) :
    t.HeldAlloc ∧ (KeepsHeads none s t ∨ type = T_DIR ∧ MadeDir cwd path s t) := by
  unfold create at h
  obtain ⟨res, s₁, h₁, h⟩ := bind_ok.mp h
  obtain ⟨hnone₁, hsome₁, -⟩ := namex_inv hI (fun _ => hcwd) h₁
  have hA₁ := namex_held hI (fun _ => le_rfl) hA (fun _ => hcwd) h₁
  have hf₁ := nameiparent_frees cwd path s _ s₁ h₁
  rcases res with _ | ⟨dp, name⟩
  · obtain ⟨-, rfl⟩ := pure_ok h
    exact ⟨hA₁, .inl hf₁.keepsHeads⟩
  have hI₁ : s₁.Inv (Pi.single dp 1) D := by simpa using hsome₁ dp name rfl
  obtain ⟨_, s₂, h₂, h⟩ := bind_ok.mp h
  obtain ⟨hI₂, -, hdp₂, hinum₂⟩ := ilock_inv hI₁ h₂
  obtain ⟨res, s₃, h₃, h⟩ := bind_ok.mp h
  obtain ⟨hkeep₃, hnone₃, hsome₃⟩ := dirlookup_inv hI₂ h₃
  have hA₃ := dirlookup_held hI₂ (single_nonneg dp) (ilock_held hA₁ h₂) h₃
  have hdir₂ := (dirlookup_spec h₃).1
  have hf₂ := trans_of FreesOnly hf₁ (ilock_frees dp s₁ _ s₂ h₂)
  have hf₃ := trans_of FreesOnly hf₂ (dirlookup_frees dp name s₂ _ s₃ h₃)
  rcases res with _ | ⟨ip, off⟩
  swap
  · -- `name` is in `dp`: nothing is written
    have hI₃ : s₃.Inv (Pi.single ip 1 + Pi.single dp 1) D := by
      rw [add_comm]
      exact hsome₃ ip off rfl
    obtain ⟨_, s₄, h₄, h⟩ := bind_ok.mp h
    obtain ⟨_, s₅, h₅, h⟩ := bind_ok.mp h
    have hI₄ : s₄.Inv (0 + Pi.single ip 1) D := by rw [zero_add]; exact iunlockput_release hI₃ h₄
    have hA₅ := ilock_held (iunlockput_release_held hI₃ (single_nonneg ip) hA₃ h₄) h₅
    have hf₅ := trans_of FreesOnly hf₃ (trans_of FreesOnly (iunlockput_frees dp s₃ _ s₄ h₄)
      (ilock_frees ip s₄ _ s₅ h₅))
    simp only [get_bind_run, ite_run] at h
    split at h
    · obtain ⟨-, rfl⟩ := pure_ok h
      exact ⟨hA₅, .inl hf₅.keepsHeads⟩
    · obtain ⟨_, s₆, h₆, h⟩ := bind_ok.mp h
      obtain ⟨-, rfl⟩ := pure_ok h
      exact ⟨iunlockput_release_held (ilock_inv hI₄ h₅).1 (fun _ => le_rfl) hA₅ h₆,
        .inl (trans_of FreesOnly hf₅ (iunlockput_frees ip s₅ _ _ h₆)).keepsHeads⟩
  -- `name` is not in `dp`: a new inode
  have hdp₃ := (hkeep₃ dp hdp₂).1
  have hI₃ := hnone₃ rfl
  have hL₃ := hL.of_keepsHeads hf₃.keepsHeads
  obtain ⟨res, s₄, h₄, hrest⟩ := bind_ok.mp h
  rcases res with _ | ip
  · obtain ⟨_, s₅, h₅, h⟩ := bind_ok.mp hrest
    obtain ⟨-, rfl⟩ := pure_ok h
    rcases ialloc_spec h₄ with ⟨-, hs₄⟩ | ⟨_, _, h0, -⟩
    · rw [hs₄] at h₅
      have hI₃' : s₃.Inv (0 + Pi.single dp 1) D := by rwa [zero_add]
      exact ⟨iunlockput_release_held hI₃' (fun _ => le_rfl) hA₃ h₅,
        .inl (trans_of FreesOnly hf₃ (iunlockput_frees dp s₃ _ _ h₅)).keepsHeads⟩
    · cases h0
  obtain ⟨hI₄, hkeep₄⟩ : s₄.Inv (Pi.single dp 1 + Pi.single ip 1) D ∧ KeepsLive s₃ s₄ := by
    rcases ialloc_inv hI₃ h₄ with ⟨h0, -⟩ | ⟨ip', h0, hI₄, hkeep₄⟩
    · cases h0
    · cases h0
      exact ⟨hI₄, hkeep₄⟩
  obtain ⟨hc1, hclt, hcfree, hctype, hcsize, hk₄⟩ := ialloc_new h₄
  have hone₄ := ialloc_fresh hI₃ hA₃ (fun y hy => by
    have hy' : y = dp := by
      by_contra hne
      simp [hne] at hy
    subst hy'
    exact hI₃.alloc_of_live hdp₃) h₄
  obtain ⟨hh₄, hne⟩ := hI₄.fresh_of_ref_one hone₄
  have hA₄ := ialloc_held hI₃ (single_nonneg dp) hA₃ htype h₄
  obtain ⟨_, s₅, h₅, h⟩ := bind_ok.mp hrest
  obtain ⟨hI₅, hkeep₅, hip₅, hinum₅⟩ := ilock_inv hI₄ h₅
  have hdp₅ := (hkeep₅ dp (hkeep₄ dp hdp₃).1).1
  obtain ⟨_, s₆, h₆, h⟩ := bind_ok.mp h
  obtain ⟨_, s₇, h₇, h⟩ := bind_ok.mp h
  obtain ⟨hagree₇, hk₇⟩ := modify_iupdate_keeps hI₅ hip₅ h₆ h₇ rfl
  have hI₇ := hI₅.agree hagree₇
  have hA₇ := (ilock_held hA₄ h₅).agree hagree₇
  have hdp₇ := (hagree₇.live dp).mpr hdp₅
  have hip₇ := (hagree₇.live ip).mpr hip₅
  have hh₇ : s₇.holders ip = 0 := by rw [hagree₇.holders, ilock_holders h₅]; exact hh₄
  have hk₅ := trans_of (KeepsHeads none) (ilock_frees ip s₄ _ s₅ h₅).keepsHeads hk₇
  simp only [ite_run] at h
  by_cases htd : type = T_DIR
  swap
  · -- not a directory: `ialloc` keeps every head too
    rw [if_neg htd] at h
    have hk₇' := trans_of (KeepsHeads none) hf₃.keepsHeads
      (trans_of (KeepsHeads none) (ialloc_keeps htd s₃ _ s₄ h₄) hk₅)
    obtain ⟨hA', hk'⟩ := create_link_layout hI₇ hdp₇ hip₇ hA₇ (hL.of_keepsHeads hk₇') hh₇ hne h
    exact ⟨hA', .inl (trans_of (KeepsHeads none) hk₇' hk')⟩
  -- a directory: "." and ".." first
  rw [if_pos htd] at h
  obtain ⟨c, hc⟩ : ∃ c, (s₄.inode ip).inum = c := ⟨_, rfl⟩
  rw [hc] at hc1 hclt hcsize hk₄
  have hinum₇ : (s₇.inode ip).inum = c := by rw [hagree₇.inum, hinum₅, hc]
  have hp : Nameable (s₁.inode dp).inum := by
    obtain ⟨q, hq⟩ := (hL.of_keepsHeads hf₂.keepsHeads).dirs _ ((hI₂.coherent dp hdp₂).1.trans hdir₂)
    rw [← hinum₂]
    exact hq.self
  have hsize₇ : (s₇.inode ip).d.size = 0 := by
    rw [← (hI₇.coherent ip hip₇).2.1, hinum₇, hagree₇.size, ilock_dinode h₅, hcsize]
  have hk₇c : KeepsHeads (some c) s s₇ := trans_of (KeepsHeads (some c)) hf₃.keepsHeads
    (trans_of (KeepsHeads (some c)) hk₄ hk₅.mono)
  -- kept aside, or `split` would decide `create`'s second test of the type with it
  revert htd
  -- `.` and then `..`; where either fails, `create_fail` frees the new inode
  simp only [get_bind_run] at h
  obtain ⟨w, s₈, h₈, h⟩ := bind_ok.mp h
  obtain ⟨hI₈, hkeep₈, hA₈, hh₈, hinum₈, hk₈⟩ := create_dirlink_step hI₇ hip₇ hA₇ hh₇ hinum₇ hk₇c h₈
  have hip₈ := (hkeep₈ ip hip₇).1
  simp only [ite_run] at h
  split at h
  · obtain ⟨hA', hk'⟩ := create_fail_keeps hI₈ hip₈ hA₈ hh₈ hne hinum₈ hk₈ h
    exact fun _ => ⟨hA', .inl hk'⟩
  rename_i hw
  have hdp₈ := (hkeep₈ dp hdp₇).1
  simp only [get_bind_run] at h
  obtain ⟨w', s₉, h₉, h⟩ := bind_ok.mp h
  obtain ⟨hI₉, hkeep₉, hA₉, hh₉, hinum₉, hk₉⟩ := create_dirlink_step hI₈ hip₈ hA₈ hh₈ hinum₈ hk₈ h₉
  simp only [ite_run] at h
  split at h
  · obtain ⟨hA', hk'⟩ := create_fail_keeps hI₉ (hkeep₉ ip hip₈).1 hA₉ hh₉ hne hinum₉ hk₉ h
    exact fun _ => ⟨hA', .inl hk'⟩
  rename_i hw'
  -- the head of the new directory, and the parent's own inode number
  have hpinum : (s₈.inode dp).inum = (s₁.inode dp).inum := by
    rw [(hkeep₈ dp hdp₇).2, hagree₇.inum, (hkeep₅ dp (hkeep₄ dp hdp₃).1).2, (hkeep₄ dp hdp₃).2,
      (hkeep₃ dp hdp₂).2, hinum₂]
  have hheads : s₉.Heads c (s₁.inode dp).inum := by
    have hcn : Nameable (s₇.inode ip).inum := by
      rw [hinum₇]
      exact ⟨hc1, lt_of_lt_of_le hclt hL₃.ninodes⟩
    have := dirlinks_heads hI₇ hip₇ hcn (hpinum ▸ hp) hsize₇ h₈ hw h₉ hw'
    rwa [hinum₇, hpinum] at this
  have hL₉ : s₉.Laid := by
    refine ⟨hk₉.sb ▸ hL.ninodes, fun d hd => ?_⟩
    by_cases hdc : d = c
    · subst hdc
      exact ⟨_, hheads⟩
    · exact hL.keep hk₉ (fun h' => hdc (Option.some.inj h').symm) hd
  obtain ⟨hA', hk'⟩ := create_link_layout hI₉ (hkeep₉ dp hdp₈).1 (hkeep₉ ip hip₈).1 hA₉ hL₉ hh₉ hne h
  intro htd
  exact ⟨hA', .inr ⟨htd, dp, name, s₁, c, h₁, trans_of (KeepsHeads (some c)) hk₉ hk'.mono,
    fun ht => hheads.keep (hk'.head c (by simp)) ht⟩⟩

/-! ## The calls that make an inode -/

/-- `sys_mkdir` and `sys_mknod` after their argument check: `create`, then
the reference it hands back is given up. -/
theorem create_put_layout {cwd : Fin NINODE} {path : List UInt8} {type major minor : Int16} {r : Int}
    (hI : s.Inv 0 D) (hcwd : 0 < (s.inode cwd).ref) (hA : s.HeldAlloc) (hL : s.Laid) (htype : type ≠ 0)
    (h : (do
      let some ip ← create cwd path type major minor | return (-1 : Int)
      iunlockput ip
      return 0 : FsM Int) s = .ok (r, t)) :
    t.HeldAlloc ∧ (KeepsHeads none s t ∨ type = T_DIR ∧ MadeDir cwd path s t) := by
  obtain ⟨res, s₁, h₁, h⟩ := bind_ok.mp h
  have hret := create_inv hI hcwd h₁
  obtain ⟨hA₁, hk₁⟩ := create_layout hI hcwd hA hL htype h₁
  rcases res with _ | ip
  · obtain ⟨-, rfl⟩ := pure_ok h
    exact ⟨hA₁, hk₁⟩
  obtain ⟨_, s₂, h₂, h⟩ := bind_ok.mp h
  obtain ⟨-, rfl⟩ := pure_ok h
  have hI₁ : s₁.Inv (0 + Pi.single ip 1) D := by rw [zero_add]; exact hret.1
  have hk₂ := (iunlockput_frees ip s₁ _ _ h₂).keepsHeads (c := none)
  refine ⟨iunlockput_release_held hI₁ (fun _ => le_rfl) hA₁ h₂, ?_⟩
  rcases hk₁ with hk₁ | ⟨htd, hmade⟩
  · exact .inl (trans_of (KeepsHeads none) hk₁ hk₂)
  · exact .inr ⟨htd, hmade.keeps hk₂⟩

theorem sys_mkdir_layout {cwd : Fin NINODE} {path : List UInt8} {r : Int}
    (hI : s.Inv 0 D) (hcwd : 0 < (s.inode cwd).ref) (hA : s.HeldAlloc) (hL : s.Laid)
    (h : sys_mkdir cwd path s = .ok (r, t)) : t.HeldAlloc ∧ (KeepsHeads none s t ∨ MadeDir cwd path s t) := by
  unfold sys_mkdir at h
  simp only [ite_run] at h
  split at h
  · obtain ⟨-, rfl⟩ := pure_ok h
    exact ⟨hA, .inl (refl_of _ _)⟩
  · obtain ⟨hA', hk⟩ := create_put_layout hI hcwd hA hL (by decide) h
    exact ⟨hA', hk.imp id And.right⟩

theorem sys_mknod_layout {cwd : Fin NINODE} {path : List UInt8} {major minor : Int32} {r : Int}
    (hI : s.Inv 0 D) (hcwd : 0 < (s.inode cwd).ref) (hA : s.HeldAlloc) (hL : s.Laid)
    (h : sys_mknod cwd path major minor s = .ok (r, t)) : t.HeldAlloc ∧ KeepsHeads none s t := by
  unfold sys_mknod at h
  simp only [ite_run] at h
  split at h
  · obtain ⟨-, rfl⟩ := pure_ok h
    exact ⟨hA, refl_of _ _⟩
  · obtain ⟨hA', hk⟩ := create_put_layout hI hcwd hA hL (by decide) h
    -- a device is not a directory
    exact ⟨hA', hk.resolve_right fun h' => absurd h'.1 (by decide)⟩

/-! ## `sys_open` -/

theorem open_inode_layout {cwd : Fin NINODE} {path : List UInt8} {omode : Int32} {r : Option (Fin NINODE)}
    (hI : s.Inv 0 D) (hcwd : 0 < (s.inode cwd).ref) (hA : s.HeldAlloc) (hL : s.Laid)
    (h : open_inode cwd path omode s = .ok (r, t)) : t.HeldAlloc ∧ KeepsHeads none s t := by
  unfold open_inode at h
  simp only [ite_run] at h
  split at h
  · -- `O_CREATE` makes a regular file, not a directory
    obtain ⟨hA', hk⟩ := create_layout hI hcwd hA hL (by decide) h
    exact ⟨hA', hk.resolve_right fun h' => absurd h'.1 (by decide)⟩
  obtain ⟨res, s₁, h₁, h⟩ := bind_ok.mp h
  obtain ⟨-, hsome₁, -⟩ := namei_inv hI (fun _ => hcwd) h₁
  have hA₁ := namei_held hI (fun _ => le_rfl) hA (fun _ => hcwd) h₁
  have hf₁ := namei_frees cwd path s _ s₁ h₁
  rcases res with _ | ip
  · obtain ⟨-, rfl⟩ := pure_ok h
    exact ⟨hA₁, hf₁.keepsHeads⟩
  obtain ⟨_, s₂, h₂, h⟩ := bind_ok.mp h
  have hI₂ := (ilock_inv (hsome₁ ip rfl) h₂).1
  have hA₂ := ilock_held hA₁ h₂
  have hf₂ := trans_of FreesOnly hf₁ (ilock_frees ip s₁ _ s₂ h₂)
  simp only [get_bind_run, ite_run] at h
  split at h
  · obtain ⟨_, s₃, h₃, h⟩ := bind_ok.mp h
    obtain ⟨-, rfl⟩ := pure_ok h
    exact ⟨iunlockput_release_held hI₂ (fun _ => le_rfl) hA₂ h₃,
      (trans_of FreesOnly hf₂ (iunlockput_frees ip s₂ _ _ h₃)).keepsHeads⟩
  · obtain ⟨-, rfl⟩ := pure_ok h
    exact ⟨hA₂, hf₂.keepsHeads⟩

/-- The end of `sys_open` once it has a descriptor: the file now holds
`ip`, which is allocated, and only a regular file is truncated. -/
theorem open_file_layout {ip : Fin NINODE} {f : Fin NFILE} {fd : Fin NOFILE} {omode : Int32}
    {A : File → File} {r : Int} (hI : s.Inv (Pi.single ip 1) D) (hl : s.Live ip) (hA : s.HeldAlloc)
    (hfile : (s.file f).ref = 1 ∧ (s.file f).type = .FD_NONE)
    (h : (do
      modify (·.modifyFile f A)
      modify (·.modifyFile f fun x => { x with
        ip := some ip,
        readable := omode &&& O_WRONLY = 0,
        writable := omode &&& O_WRONLY ≠ 0 ∨ omode &&& O_RDWR ≠ 0 })
      if omode &&& O_TRUNC ≠ 0 ∧ ((← get).inode ip).d.type = T_FILE then itrunc ip
      iunlock ip
      return (fd.val : Int) : FsM Int) s = .ok (r, t))
    (hAf : ∀ x, (A x).ref = x.ref ∧ ((A x).type = .FD_INODE ∨ (A x).type = .FD_DEVICE)) :
    t.HeldAlloc ∧ KeepsHeads none s t := by
  obtain ⟨_, s₁, h₁, h⟩ := bind_ok.mp h
  obtain ⟨_, s₂, h₂, h⟩ := bind_ok.mp h
  have hs₂ : s₂ = s.modifyFile f fun x => { A x with
      ip := some ip,
      readable := omode &&& O_WRONLY = 0,
      writable := omode &&& O_WRONLY ≠ 0 ∨ omode &&& O_RDWR ≠ 0 } := by
    rw [modify_ok h₂, modify_ok h₁, modifyFile_modifyFile]
  have hI₂ : s₂.Inv 0 D := by
    rw [hs₂]
    exact hI.openFile hfile ⟨(hAf _).1.trans hfile.1, (hAf _).2, rfl⟩
  have hl₂ : s₂.Live ip := by
    rw [hs₂]
    exact hl
  have hA₂ : s₂.HeldAlloc := by
    rw [hs₂]
    -- the one inode the file now holds is live
    refine hA.modifyFile f _ fun y hy => ?_
    cases Option.some.inj hy.2.2
    exact hI.alloc_of_live hl
  have hk₂ : KeepsHeads none s s₂ := by
    rw [hs₂]
    exact (FreesOnly.modifyFile s f _).keepsHeads
  obtain ⟨s₃, hA₃, hk₃, h⟩ : ∃ s₃, s₃.HeldAlloc ∧ KeepsHeads none s s₃ ∧
      (iunlock ip >>= fun _ => pure (fd.val : Int) : FsM Int) s₃ = .ok (r, t) := by
    simp only [get_bind_run, ite_run] at h
    split at h
    · rename_i htrunc
      obtain ⟨_, s₃, h₃, h⟩ := bind_ok.mp h
      exact ⟨s₃, itrunc_held hI₂ hl₂ hA₂ h₃,
        trans_of (KeepsHeads none) hk₂ (itrunc_keeps (by rw [htrunc.2]; decide) h₃), h⟩
    · exact ⟨s₂, hA₂, hk₂, h⟩
  obtain ⟨_, s₄, h₄, hret⟩ := bind_ok.mp h
  obtain ⟨-, rfl⟩ := iunlock_spec h₄
  obtain ⟨-, rfl⟩ := pure_ok hret
  exact ⟨hA₃, hk₃⟩

theorem sys_open_layout {p : Fin NPROC} {cwd : Fin NINODE} {path : List UInt8} {omode : Int32} {r : Int}
    (hI : s.Inv 0 D) (hcwd : 0 < (s.inode cwd).ref) (hA : s.HeldAlloc) (hL : s.Laid)
    (h : sys_open p cwd path omode s = .ok (r, t)) : t.HeldAlloc ∧ KeepsHeads none s t := by
  unfold sys_open at h
  simp only [ite_run] at h
  split at h
  · obtain ⟨-, rfl⟩ := pure_ok h
    exact ⟨hA, refl_of _ _⟩
  obtain ⟨res, s₁, h₁, h⟩ := bind_ok.mp h
  have hret := open_inode_inv hI hcwd h₁
  obtain ⟨hA₁, hk₁⟩ := open_inode_layout hI hcwd hA hL h₁
  rcases res with _ | ip
  · obtain ⟨-, rfl⟩ := pure_ok h
    exact ⟨hA₁, hk₁⟩
  obtain ⟨hI₁, hip₁⟩ := hret
  have hI₁' : s₁.Inv (0 + Pi.single ip 1) D := by rwa [zero_add]
  simp only [get_bind_run, ite_run] at h
  split at h
  · -- a device with no driver
    obtain ⟨_, s₂, h₂, h⟩ := bind_ok.mp h
    obtain ⟨-, rfl⟩ := pure_ok h
    exact ⟨iunlockput_release_held hI₁' (fun _ => le_rfl) hA₁ h₂,
      trans_of (KeepsHeads none) hk₁ (iunlockput_frees ip s₁ _ _ h₂).keepsHeads⟩
  obtain ⟨res, s₂, h₂, h⟩ := bind_ok.mp h
  obtain ⟨hI₂, hinode₂, -, -, hsome₂⟩ := filealloc_inv hI₁ h₂
  have hI₂' : s₂.Inv (0 + Pi.single ip 1) D := by rwa [zero_add]
  have hA₂ := filealloc_held hI₁ hA₁ h₂
  have hk₂ := trans_of (KeepsHeads none) hk₁ (filealloc_frees s₁ _ s₂ h₂).keepsHeads
  have hip₂ : s₂.Live ip := by
    unfold Live
    rw [hinode₂]
    exact hip₁
  rcases res with _ | f
  · -- the file table is full
    obtain ⟨_, s₃, h₃, h⟩ := bind_ok.mp h
    obtain ⟨-, rfl⟩ := pure_ok h
    exact ⟨iunlockput_release_held hI₂' (fun _ => le_rfl) hA₂ h₃,
      trans_of (KeepsHeads none) hk₂ (iunlockput_frees ip s₂ _ _ h₃).keepsHeads⟩
  obtain ⟨res, s₃, h₃, h⟩ := bind_ok.mp h
  obtain ⟨hagree₃, hinode₃⟩ := fdalloc_agree h₃
  have hI₃ := hI₂.agree hagree₃
  have hA₃ := hA₂.agree hagree₃
  have hk₃ := trans_of (KeepsHeads none) hk₂ (fdalloc_frees p f s₂ _ s₃ h₃).keepsHeads
  rcases res with _ | fd
  · -- no free descriptor: the file is closed again and the inode released
    obtain ⟨_, s₄, h₄, h⟩ := bind_ok.mp h
    obtain ⟨_, s₅, h₅, h⟩ := bind_ok.mp h
    obtain ⟨-, rfl⟩ := pure_ok h
    have hI₄ : s₄.Inv (0 + Pi.single ip 1) D := by rw [zero_add]; exact (fileclose_inv hI₃ h₄).1
    have hA₄ := fileclose_held hI₃ (single_nonneg ip) hA₃ h₄
    exact ⟨iunlockput_release_held hI₄ (fun _ => le_rfl) hA₄ h₅,
      trans_of (KeepsHeads none) hk₃ ((trans_of FreesOnly (fileclose_frees f s₃ _ s₄ h₄)
        (iunlockput_frees ip s₄ _ _ h₅)).keepsHeads)⟩
  have hip₃ : s₃.Live ip := by
    unfold Live
    rw [hinode₃]
    exact hip₂
  have hf₃ : (s₃.file f).ref = 1 ∧ (s₃.file f).type = .FD_NONE := by
    rw [hagree₃.file]
    exact hsome₂ f rfl
  simp only [get_bind_run, ite_run] at h
  split at h <;>
  · obtain ⟨hA', hk'⟩ := open_file_layout hI₃ hip₃ hA₃ hf₃ h fun x => ⟨rfl, by simp⟩
    exact ⟨hA', trans_of (KeepsHeads none) hk₃ hk'⟩

/-! ## `sys_link` -/

/-- `sys_link`'s `bad:` path writes back a link count. -/
theorem sys_link_bad_layout {ip : Fin NINODE} {r : Int} (hI : s.Inv (ex + Pi.single ip 1) D)
    (hex : ∀ y, 0 ≤ ex y) (hA : s.HeldAlloc) (h : sys_link_bad ip s = .ok (r, t)) :
    t.HeldAlloc ∧ KeepsHeads none s t := by
  unfold sys_link_bad at h
  obtain ⟨_, s₁, h₁, h⟩ := bind_ok.mp h
  obtain ⟨hI₁, -, hip₁, -⟩ := ilock_inv hI h₁
  obtain ⟨_, s₂, h₂, h⟩ := bind_ok.mp h
  obtain ⟨_, s₃, h₃, h⟩ := bind_ok.mp h
  obtain ⟨hagree, hk₃⟩ := modify_iupdate_keeps hI₁ hip₁ h₂ h₃ rfl
  obtain ⟨_, s₄, h₄, h⟩ := bind_ok.mp h
  obtain ⟨-, rfl⟩ := pure_ok h
  exact ⟨iunlockput_release_held (hI₁.agree hagree) hex ((ilock_held hA h₁).agree hagree) h₄,
    trans_of (KeepsHeads none) (ilock_frees ip s _ s₁ h₁).keepsHeads
      (trans_of (KeepsHeads none) hk₃ (iunlockput_frees ip s₃ _ _ h₄).keepsHeads)⟩

theorem sys_link_layout {p : Fin NPROC} {cwd : Fin NINODE} {old new : List UInt8} {r : Int}
    (hI : s.Inv 0 D) (hcwd : s.cwd p = some cwd) (hA : s.HeldAlloc) (hL : s.Laid)
    (h : sys_link cwd old new s = .ok (r, t)) : t.HeldAlloc ∧ KeepsHeads none s t := by
  unfold sys_link at h
  simp only [ite_run] at h
  split at h
  · obtain ⟨-, rfl⟩ := pure_ok h
    exact ⟨hA, refl_of _ _⟩
  have hpos := hI.ref_pos_of_cwd hcwd le_rfl
  obtain ⟨res, s₁, h₁, h⟩ := bind_ok.mp h
  obtain ⟨-, hsome₁, hcwd₁⟩ := namei_inv hI (fun _ => hpos) h₁
  have hA₁ := namei_held hI (fun _ => le_rfl) hA (fun _ => hpos) h₁
  have hf₁ := namei_frees cwd old s _ s₁ h₁
  rcases res with _ | ip
  · obtain ⟨-, rfl⟩ := pure_ok h
    exact ⟨hA₁, hf₁.keepsHeads⟩
  obtain ⟨_, s₂, h₂, h⟩ := bind_ok.mp h
  obtain ⟨hI₂, -, hip₂, -⟩ := ilock_inv (hsome₁ ip rfl) h₂
  have hA₂ := ilock_held hA₁ h₂
  have hf₂ := trans_of FreesOnly hf₁ (ilock_frees ip s₁ _ s₂ h₂)
  simp only [get_bind_run, ite_run] at h
  split at h
  · -- directories are not linked
    obtain ⟨_, s₃, h₃, h⟩ := bind_ok.mp h
    obtain ⟨-, rfl⟩ := pure_ok h
    exact ⟨iunlockput_release_held hI₂ (fun _ => le_rfl) hA₂ h₃,
      (trans_of FreesOnly hf₂ (iunlockput_frees ip s₂ _ _ h₃)).keepsHeads⟩
  obtain ⟨_, s₃, h₃, h⟩ := bind_ok.mp h
  obtain ⟨_, s₄, h₄, h⟩ := bind_ok.mp h
  obtain ⟨hagree, hk₄⟩ := modify_iupdate_keeps hI₂ hip₂ h₃ h₄ rfl
  have hI₄ := hI₂.agree hagree
  have hA₄ := hA₂.agree hagree
  have hk₄' := trans_of (KeepsHeads none) hf₂.keepsHeads hk₄
  obtain ⟨_, s₅, h₅, h⟩ := bind_ok.mp h
  obtain ⟨-, hs₅⟩ := iunlock_spec h₅
  rw [hs₅] at h
  -- the caller's current directory is still held for the second lookup
  have hcwd₄ : s₄.cwd p = some cwd := by rw [hagree.cwd, ilock_cwd h₂, hcwd₁, hcwd]
  have hex₄ : ∀ y, 0 ≤ (0 + Pi.single ip 1 : Fin NINODE → Int) y := add_single_nonneg (fun _ => le_rfl) ip
  have hpos₄ := hI₄.ref_pos_of_cwd hcwd₄ (hex₄ cwd)
  obtain ⟨res, s₆, h₆, hrest⟩ := bind_ok.mp h
  obtain ⟨hnone₆, hsome₆, -⟩ := namex_inv hI₄ (fun _ => hpos₄) h₆
  have hA₆ := namex_held hI₄ hex₄ hA₄ (fun _ => hpos₄) h₆
  have hk₆ := trans_of (KeepsHeads none) hk₄' (nameiparent_frees cwd new s₄ _ s₆ h₆).keepsHeads
  rcases res with _ | ⟨dp, name⟩
  · obtain ⟨hA', hk'⟩ := sys_link_bad_layout (hnone₆ rfl) (fun _ => le_rfl) hA₆ hrest
    exact ⟨hA', trans_of (KeepsHeads none) hk₆ hk'⟩
  obtain ⟨_, s₇, h₇, h⟩ := bind_ok.mp hrest
  obtain ⟨hI₇, -, hdp₇, -⟩ := ilock_inv (hsome₆ dp name rfl) h₇
  have hA₇ := ilock_held hA₆ h₇
  have hk₇ := trans_of (KeepsHeads none) hk₆ (ilock_frees dp s₆ _ s₇ h₇).keepsHeads
  simp only [get_bind_run] at h
  obtain ⟨w, s₈, h₈, h⟩ := bind_ok.mp h
  obtain ⟨hI₈, -⟩ := dirlink_inv hI₇ hdp₇ h₈
  have hA₈ := dirlink_held hI₇ (add_single_nonneg hex₄ dp) hdp₇ hA₇ h₈
  have hk₈ := trans_of (KeepsHeads none) hk₇ (dirlink_keeps_laid hI₇ hdp₇ (hL.of_keepsHeads hk₇) h₈)
  simp only [ite_run] at h
  split at h
  · -- the name is taken: the link count goes back
    obtain ⟨_, s₉, h₉, h⟩ := bind_ok.mp h
    have hA₉ := iunlockput_release_held hI₈ hex₄ hA₈ h₉
    obtain ⟨hA', hk'⟩ := sys_link_bad_layout (iunlockput_release hI₈ h₉) (fun _ => le_rfl) hA₉ h
    exact ⟨hA', trans_of (KeepsHeads none) hk₈
      (trans_of (KeepsHeads none) (iunlockput_frees dp s₈ _ _ h₉).keepsHeads hk')⟩
  · obtain ⟨_, s₉, h₉, h⟩ := bind_ok.mp h
    obtain ⟨_, s₁₀, h₁₀, h⟩ := bind_ok.mp h
    obtain ⟨-, rfl⟩ := pure_ok h
    have hA₉ := iunlockput_release_held hI₈ hex₄ hA₈ h₉
    exact ⟨iput_release_held (iunlockput_release hI₈ h₉) (fun _ => le_rfl) hA₉ h₁₀,
      trans_of (KeepsHeads none) hk₈ ((trans_of FreesOnly (iunlockput_frees dp s₈ _ _ h₉)
        (iput_frees ip _ _ _ h₁₀)).keepsHeads)⟩

/-! ## `sys_unlink` -/

/-- No name but `.` and `..` (under `namecmp`) is found in the head of a
directory. -/
theorem Heads.not_matches {d p k : Nat} {name : List UInt8} (h : s.Heads d p) (hk : k < 2)
    (hdot : namecmp name DOT ≠ 0) (hdotdot : namecmp name DOTDOT ≠ 0) :
    nameMatches name (s.slot d k) = false := by
  have hname : ∀ (x : List UInt8) (i : Nat), namecmp name x ≠ 0 →
      nameMatches name (Dirent.named x i) = false := fun x i hx => by
    unfold nameMatches Dirent.named
    refine decide_eq_false fun ⟨_, hcmp⟩ => hx ?_
    rwa [namecmp_eq_zero_iff, nameKey_strncpy, ← namecmp_eq_zero_iff] at hcmp
  rcases (by omega : k = 0 ∨ k = 1) with rfl | rfl
  · rw [h.dot]
    exact hname DOT d hdot
  · rw [h.dotdot]
    exact hname DOTDOT p hdotdot

/-- The end of `sys_unlink`: `dp` and `ip` are released, `ip` with one
link fewer. -/
theorem unlink_release_layout {dp ip : Fin NINODE} {r : Int}
    (hI : s.Inv (Pi.single dp 1 + Pi.single ip 1) D) (hip : s.Live ip) (hA : s.HeldAlloc)
    (h : (do
      iunlockput dp
      modify (·.modifyInode ip fun e => { e with d := { e.d with nlink := e.d.nlink - 1 } })
      iupdate ip
      iunlockput ip
      return (0 : Int) : FsM Int) s = .ok (r, t)) :
    t.HeldAlloc ∧ KeepsHeads none s t := by
  obtain ⟨_, s₁, h₁, h⟩ := bind_ok.mp h
  have hI' : s.Inv (Pi.single ip 1 + Pi.single dp 1) D := by rwa [add_comm]
  have hI₁ : s₁.Inv (0 + Pi.single ip 1) D := by rw [zero_add]; exact iunlockput_release hI' h₁
  have hA₁ := iunlockput_release_held hI' (single_nonneg ip) hA h₁
  -- `ip` is still live: the call holds it too, twice if it is `dp`
  have hip₁ := (iput_keeps_held hI (iunlockput_spec h₁).2 hip fun he => by subst he; simp).1
  obtain ⟨_, s₂, h₂, h⟩ := bind_ok.mp h
  obtain ⟨_, s₃, h₃, h⟩ := bind_ok.mp h
  obtain ⟨hagree, hk₃⟩ := modify_iupdate_keeps hI₁ hip₁ h₂ h₃ rfl
  obtain ⟨_, s₄, h₄, h⟩ := bind_ok.mp h
  obtain ⟨-, rfl⟩ := pure_ok h
  exact ⟨iunlockput_release_held (hI₁.agree hagree) (fun _ => le_rfl) (hA₁.agree hagree) h₄,
    trans_of (KeepsHeads none) (iunlockput_frees dp s _ s₁ h₁).keepsHeads
      (trans_of (KeepsHeads none) hk₃ (iunlockput_frees ip s₃ _ _ h₄).keepsHeads)⟩

/-- The end of `sys_unlink` from the removal of the entry in slot `k` of
`dp`, past the head. -/
theorem unlink_entry_layout {dp ip : Fin NINODE} {k : Nat} {r : Int}
    (hI : s.Inv (Pi.single dp 1 + Pi.single ip 1) D) (hdp : s.Live dp) (hip : s.Live ip) (hA : s.HeldAlloc)
    (hk : k < (s.inode dp).d.size / DIRENT_SIZE) (hk2 : 2 ≤ k)
    (h : (do
      if (← writei dp Dirent.zero.encode (k * DIRENT_SIZE) DIRENT_SIZE) ≠ DIRENT_SIZE then
        throw "unlink: writei"
      if ((← get).inode ip).d.type = T_DIR then
        modify (·.modifyInode dp fun e => { e with d := { e.d with nlink := e.d.nlink - 1 } })
        iupdate dp
      iunlockput dp
      modify (·.modifyInode ip fun e => { e with d := { e.d with nlink := e.d.nlink - 1 } })
      iupdate ip
      iunlockput ip
      return (0 : Int) : FsM Int) s = .ok (r, t)) :
    t.HeldAlloc ∧ KeepsHeads none s t := by
  obtain ⟨w, s₁, h₁, h⟩ := bind_ok.mp h
  obtain ⟨hI₁, hkeep₁⟩ := writei_dirent_inv hI hdp (by simp [Dirent.zero]) hk.le (fun hz => absurd rfl hz) h₁
  have hA₁ := writei_held hI hdp hA h₁
  have hk₁ : KeepsHeads none s s₁ := writei_keeps hI hdp (fun _ _ _ => by
    have hsz16 : DIRENT_SIZE = 16 := rfl
    rw [hsz16]
    omega) h₁
  have hdp₁ := (hkeep₁ dp hdp).1
  have hip₁ := (hkeep₁ ip hip).1
  simp only [ite_run] at h
  split at h
  · simp at h
  simp only [get_bind_run, ite_run] at h
  split at h
  · -- a directory's ".." no longer counts as a link of `dp`
    obtain ⟨_, s₂, h₂, h⟩ := bind_ok.mp h
    obtain ⟨_, s₃, h₃, h⟩ := bind_ok.mp h
    obtain ⟨hagree, hk₃⟩ := modify_iupdate_keeps hI₁ hdp₁ h₂ h₃ rfl
    obtain ⟨hA', hk'⟩ := unlink_release_layout (hI₁.agree hagree) ((hagree.live ip).mpr hip₁)
      (hA₁.agree hagree) h
    exact ⟨hA', trans_of (KeepsHeads none) hk₁ (trans_of (KeepsHeads none) hk₃ hk')⟩
  · obtain ⟨hA', hk'⟩ := unlink_release_layout hI₁ hip₁ hA₁ h
    exact ⟨hA', trans_of (KeepsHeads none) hk₁ hk'⟩

theorem sys_unlink_layout {cwd : Fin NINODE} {path : List UInt8} {r : Int}
    (hI : s.Inv 0 D) (hcwd : 0 < (s.inode cwd).ref) (hA : s.HeldAlloc) (hL : s.Laid)
    (h : sys_unlink cwd path s = .ok (r, t)) : t.HeldAlloc ∧ KeepsHeads none s t := by
  unfold sys_unlink at h
  rw [ite_run] at h
  split at h
  · obtain ⟨-, rfl⟩ := pure_ok h
    exact ⟨hA, refl_of _ _⟩
  obtain ⟨res, s₁, h₁, h⟩ := bind_ok.mp h
  obtain ⟨-, hsome₁, -⟩ := namex_inv hI (fun _ => hcwd) h₁
  have hA₁ := namex_held hI (fun _ => le_rfl) hA (fun _ => hcwd) h₁
  have hf₁ := nameiparent_frees cwd path s _ s₁ h₁
  rcases res with _ | ⟨dp, name⟩
  · obtain ⟨-, rfl⟩ := pure_ok h
    exact ⟨hA₁, hf₁.keepsHeads⟩
  obtain ⟨_, s₂, h₂, h⟩ := bind_ok.mp h
  obtain ⟨hI₂, -, hdp₂, -⟩ := ilock_inv (hsome₁ dp name rfl) h₂
  have hA₂ := ilock_held hA₁ h₂
  have hf₂ := trans_of FreesOnly hf₁ (ilock_frees dp s₁ _ s₂ h₂)
  rw [ite_run] at h
  split at h
  · -- "." and ".." are never unlinked
    obtain ⟨_, s₃, h₃, h⟩ := bind_ok.mp h
    obtain ⟨-, rfl⟩ := pure_ok h
    exact ⟨iunlockput_release_held hI₂ (fun _ => le_rfl) hA₂ h₃,
      (trans_of FreesOnly hf₂ (iunlockput_frees dp s₂ _ _ h₃)).keepsHeads⟩
  rename_i hname
  obtain ⟨hdot, hdotdot⟩ := not_or.mp hname
  obtain ⟨res, s₃, h₃, hrest⟩ := bind_ok.mp h
  obtain ⟨hdir₂, s₀, hb₀, hlook⟩ := dirlookup_spec h₃
  obtain ⟨hkeep₃, hnone₃, hsome₃⟩ := dirlookup_inv hI₂ h₃
  have hA₃ := dirlookup_held hI₂ (add_single_nonneg (fun _ => le_rfl) dp) hA₂ h₃
  have hf₃ := trans_of FreesOnly hf₂ (dirlookup_frees dp name s₂ _ s₃ h₃)
  rcases res with _ | ⟨ip, off⟩
  · obtain ⟨_, s₄, h₄, h⟩ := bind_ok.mp hrest
    obtain ⟨-, rfl⟩ := pure_ok h
    exact ⟨iunlockput_release_held (hnone₃ rfl) (fun _ => le_rfl) hA₃ h₄,
      (trans_of FreesOnly hf₃ (iunlockput_frees dp s₃ _ _ h₄)).keepsHeads⟩
  -- the entry found lies within `dp`, past its head
  obtain ⟨k, hoff, hk, hk2⟩ : ∃ k, off = k * DIRENT_SIZE ∧ k < (s₃.inode dp).d.size / DIRENT_SIZE ∧ 2 ≤ k := by
    rcases hlook with ⟨hr, -⟩ | ⟨k, ip', hr, hk, hmatch, -, hget⟩
    · cases hr
    · obtain ⟨-, hoff⟩ := Prod.mk.inj (Option.some.inj hr)
      refine ⟨k, hoff, ?_, ?_⟩
      · rw [iget_d hget dp, (hb₀.entry dp).2.2.2.2.2]
        exact hk
      · obtain ⟨q, hq⟩ := (hL.of_keepsHeads hf₂.keepsHeads).dirs _ ((hI₂.coherent dp hdp₂).1.trans hdir₂)
        by_contra hlt
        rw [hq.not_matches (by omega) hdot hdotdot] at hmatch
        cases hmatch
  subst hoff
  have hdp₃ := (hkeep₃ dp hdp₂).1
  obtain ⟨_, s₄, h₄, h⟩ := bind_ok.mp hrest
  obtain ⟨hI₄, hkeep₄, hip₄, -⟩ := ilock_inv (hsome₃ ip _ rfl) h₄
  have hA₄ := ilock_held hA₃ h₄
  have hf₄ := trans_of FreesOnly hf₃ (ilock_frees ip s₃ _ s₄ h₄)
  have hdp₄ := (hkeep₄ dp hdp₃).1
  have hk₄ : k < (s₄.inode dp).d.size / DIRENT_SIZE := by
    rw [ilock_of_valid h₄ hdp₃.1]
    exact hk
  simp only [get_bind_run, ite_run] at h
  split at h
  · simp at h
  split at h
  · -- a directory is removed only when empty
    obtain ⟨b, s₅, h₅, h⟩ := bind_ok.mp h
    have hb₅ := isdirempty_blockStep h₅
    have hagree₅ := Agree.of_blockStep hb₅
    have hI₅ := hI₄.agree hagree₅
    have hA₅ := hA₄.agree hagree₅
    have hf₅ := trans_of FreesOnly hf₄ (FreesOnly.of_blockStep hb₅)
    simp only [ite_run] at h
    split at h
    · obtain ⟨_, s₆, h₆, h⟩ := bind_ok.mp h
      obtain ⟨_, s₇, h₇, h⟩ := bind_ok.mp h
      obtain ⟨-, rfl⟩ := pure_ok h
      have hI₆ := iunlockput_release hI₅ h₆
      have hA₆ := iunlockput_release_held hI₅ (add_single_nonneg (fun _ => le_rfl) dp) hA₅ h₆
      exact ⟨iunlockput_release_held hI₆ (fun _ => le_rfl) hA₆ h₇,
        (trans_of FreesOnly hf₅ (trans_of FreesOnly (iunlockput_frees ip s₅ _ _ h₆)
          (iunlockput_frees dp s₆ _ _ h₇))).keepsHeads⟩
    · have hk₅ : k < (s₅.inode dp).d.size / DIRENT_SIZE := by
        rw [(hb₅.entry dp).2.2.2.2.2]
        exact hk₄
      have hI₅' : s₅.Inv (Pi.single dp 1 + Pi.single ip 1) D := by simpa using hI₅
      obtain ⟨hA', hk'⟩ := unlink_entry_layout hI₅' ((hagree₅.live dp).mpr hdp₄) ((hagree₅.live ip).mpr hip₄)
        hA₅ hk₅ hk2 h
      exact ⟨hA', trans_of (KeepsHeads none) hf₅.keepsHeads hk'⟩
  · have hI₄' : s₄.Inv (Pi.single dp 1 + Pi.single ip 1) D := by simpa using hI₄
    obtain ⟨hA', hk'⟩ := unlink_entry_layout hI₄' hdp₄ hip₄ hA₄ hk₄ hk2 h
    exact ⟨hA', trans_of (KeepsHeads none) hf₄.keepsHeads hk'⟩

/-! ## The calls that write nothing -/

theorem sys_close_held {p : Fin NPROC} {fd : Int32} {r : Int} (hI : s.Inv 0 D) (hA : s.HeldAlloc)
    (h : sys_close p fd s = .ok (r, t)) : t.HeldAlloc := by
  unfold sys_close at h
  simp only [dite_run] at h
  split at h
  · rename_i hfd
    simp only [get_bind_run] at h
    cases hf : s.ofile p ⟨fd.toInt.toNat, by omega⟩ with
    | none =>
        simp only [hf] at h
        exact (pure_ok h).2 ▸ hA
    | some f =>
        simp only [hf, modify_bind_run] at h
        obtain ⟨_, s₁, h₁, h⟩ := bind_ok.mp h
        obtain ⟨-, rfl⟩ := pure_ok h
        exact fileclose_held (hI.agree (Agree.ofile s _)) (fun _ => le_rfl) (hA.agree (Agree.ofile s _)) h₁
  · exact (pure_ok h).2 ▸ hA

theorem sys_exec_held {cwd : Fin NINODE} {path : List UInt8} {argv : Option Nat} {mem : ExecMem} {r : Int}
    (hI : s.Inv 0 D) (hcwd : 0 < (s.inode cwd).ref) (hA : s.HeldAlloc)
    (h : sys_exec cwd path argv mem s = .ok (r, t)) : t.HeldAlloc := by
  rcases sys_exec_spec h with rfl | ⟨argc, h⟩
  · exact hA
  rcases exec_spec h with h₁ | ⟨ip, s₁, s₂, s₃, h₁, h₂, hb₃, h₄⟩
  · exact namei_held hI (fun _ => le_rfl) hA (fun _ => hcwd) h₁
  have hI₁ : s₁.Inv (0 + Pi.single ip 1) D := by
    simpa using (namei_inv hI (fun _ => hcwd) h₁).2.1 ip rfl
  have hA₁ := namei_held hI (fun _ => le_rfl) hA (fun _ => hcwd) h₁
  -- the reads change no entry; `iunlockput` gives back what `namei` took
  have hagree := Agree.of_blockStep hb₃
  exact iunlockput_release_held ((ilock_inv hI₁ h₂).1.agree hagree) (fun _ => le_rfl)
    ((ilock_held hA₁ h₂).agree hagree) h₄

theorem sys_chdir_held {p : Fin NPROC} {cwd : Fin NINODE} {path : List UInt8} {r : Int}
    (hI : s.Inv 0 D) (hcwd : s.cwd p = some cwd) (hA : s.HeldAlloc)
    (h : sys_chdir p cwd path s = .ok (r, t)) : t.HeldAlloc := by
  unfold sys_chdir at h
  simp only [ite_run] at h
  split at h
  · exact (pure_ok h).2 ▸ hA
  have hpos := hI.ref_pos_of_cwd hcwd le_rfl
  obtain ⟨res, s₁, h₁, h⟩ := bind_ok.mp h
  obtain ⟨-, hsome₁, hcwd₁⟩ := namei_inv hI (fun _ => hpos) h₁
  have hA₁ := namei_held hI (fun _ => le_rfl) hA (fun _ => hpos) h₁
  rcases res with _ | ip
  · exact (pure_ok h).2 ▸ hA₁
  obtain ⟨_, s₂, h₂, h⟩ := bind_ok.mp h
  obtain ⟨hI₂, -, hip₂, -⟩ := ilock_inv (hsome₁ ip rfl) h₂
  have hA₂ := ilock_held hA₁ h₂
  have hex₂ : ∀ y, 0 ≤ (0 + Pi.single ip 1 : Fin NINODE → Int) y := add_single_nonneg (fun _ => le_rfl) ip
  simp only [get_bind_run, ite_run] at h
  split at h
  · -- not a directory
    obtain ⟨_, s₃, h₃, h⟩ := bind_ok.mp h
    obtain ⟨-, rfl⟩ := pure_ok h
    exact iunlockput_release_held hI₂ (fun _ => le_rfl) hA₂ h₃
  obtain ⟨_, s₃, h₃, h⟩ := bind_ok.mp h
  obtain ⟨-, hs₃⟩ := iunlock_spec h₃
  rw [hs₃] at h
  obtain ⟨_, s₄, h₄, h⟩ := bind_ok.mp h
  have hcwd₂ : s₂.cwd p = some cwd := by rw [ilock_cwd h₂, hcwd₁, hcwd]
  simp only [modify_bind_run] at h
  obtain ⟨-, rfl⟩ := pure_ok h
  -- `ip` outlives the `iput` of the old directory: if it is that directory,
  -- the process held it too
  have hip₄ : s₄.Live ip := by
    refine ((iput_inv hI₂ h₄).2 ip hip₂ ?_).1
    by_cases hic : ip = cwd
    · subst hic
      have hheld := hI₂.held ip
      have := holders_pos_of_cwd hcwd₂
      simp only [Pi.add_apply, Pi.zero_apply, Pi.single_eq_same] at hheld
      exact .inr (by omega)
    · exact .inl hic
  exact iput_setCwd_held hI₂ hex₂ hA₂ hcwd₂ h₄ fun y hy => by
    cases Option.some.inj hy
    exact (iput_inv hI₂ h₄).1.alloc_of_live hip₄

/-- A pass over a list whose every step keeps the invariant, `HeldAlloc`
and the current directories keeps them. -/
theorem forM_held {γ : Type} {xs : List γ} {body : γ → FsM PUnit} {u : PUnit}
    (hbody : ∀ x ∈ xs, ∀ s s' u, s.Inv 0 D → s.HeldAlloc → body x s = .ok (u, s') →
      s'.Inv 0 D ∧ s'.HeldAlloc ∧ s'.cwd = s.cwd)
    (hI : s.Inv 0 D) (hA : s.HeldAlloc) (h : xs.forM body s = .ok (u, t)) :
    t.Inv 0 D ∧ t.HeldAlloc ∧ t.cwd = s.cwd := by
  obtain ⟨⟨hI', hA'⟩, hcwd⟩ := Guarantees.forM (R := Under (fun s : Fs => s.Inv 0 D ∧ s.HeldAlloc) (Fixes Fs.cwd))
    (fun x hx s₀ a s₀' hb hs₀ => by
      obtain ⟨h₁, h₂, h₃⟩ := hbody x hx s₀ s₀' a hs₀.1 hs₀.2 hb
      exact ⟨⟨h₁, h₂⟩, h₃⟩) s u t h ⟨hI, hA⟩
  exact ⟨hI', hA', hcwd⟩

theorem fork_files_held {p c : Fin NPROC} {cwd : Fin NINODE} {u : Unit}
    (hI : s.Inv 0 D) (hcwd : s.cwd p = some cwd) (hA : s.HeldAlloc)
    (h : fork_files p c cwd s = .ok (u, t)) : t.HeldAlloc := by
  unfold fork_files at h
  obtain ⟨_, s₁, h₁, h⟩ := bind_ok.mp h
  -- every open descriptor is duplicated into the child
  obtain ⟨-, hA₁, hcwd₁⟩ := forM_held (fun i _ s₀ s₀' a hI₀ hA₀ hb => by
      simp only [get_bind_run] at hb
      cases hf : s₀.ofile p i with
      | none =>
          simp only [hf] at hb
          obtain ⟨-, rfl⟩ := pure_ok hb
          exact ⟨hI₀, hA₀, rfl⟩
      | some f =>
          simp only [hf] at hb
          obtain ⟨f', s₂, h₂, hb⟩ := bind_ok.mp hb
          obtain ⟨hI₂, -, hcwd₂, -⟩ := filedup_inv hI₀ h₂
          rw [modify_ok hb]
          exact ⟨hI₂.agree (Agree.ofile _ _), (filedup_held hA₀ h₂).agree (Agree.ofile _ _), hcwd₂⟩) hI hA h₁
  obtain ⟨ip, s₂, h₂, h⟩ := bind_ok.mp h
  rw [idup_run, Except.ok.injEq, Prod.mk.injEq] at h₂
  obtain ⟨rfl, rfl⟩ := h₂
  rw [modify_ok h]
  -- the child's directory is the parent's, held and so allocated
  have hheld : 0 < s₁.holders cwd := holders_pos_of_cwd (by rw [hcwd₁]; exact hcwd)
  exact (hA₁.modifyInode cwd _ rfl).setCwd c (some cwd) fun y hy => by
    cases Option.some.inj hy
    simpa using hA₁ cwd hheld

theorem exit_files_held {p : Fin NPROC} {cwd : Fin NINODE} {u : Unit}
    (hI : s.Inv 0 D) (hcwd : s.cwd p = some cwd) (hA : s.HeldAlloc)
    (h : exit_files p cwd s = .ok (u, t)) : t.HeldAlloc := by
  unfold exit_files at h
  simp only [ite_run] at h
  split at h
  · simp at h
  obtain ⟨_, s₁, h₁, h⟩ := bind_ok.mp h
  -- every open descriptor is closed
  obtain ⟨hI₁, hA₁, hcwd₁⟩ := forM_held (fun fd _ s₀ s₀' a hI₀ hA₀ hb => by
      simp only [get_bind_run] at hb
      cases hf : s₀.ofile p fd with
      | none =>
          simp only [hf] at hb
          obtain ⟨-, rfl⟩ := pure_ok hb
          exact ⟨hI₀, hA₀, rfl⟩
      | some f =>
          simp only [hf] at hb
          obtain ⟨_, s₂, h₂, hb⟩ := bind_ok.mp hb
          obtain ⟨hI₂, hcwd₂⟩ := fileclose_inv hI₀ h₂
          rw [modify_ok hb]
          exact ⟨hI₂.agree (Agree.ofile _ _),
            (fileclose_held hI₀ (fun _ => le_rfl) hA₀ h₂).agree (Agree.ofile _ _), hcwd₂⟩) hI hA h₁
  obtain ⟨_, s₂, h₂, h⟩ := bind_ok.mp h
  rw [modify_ok h]
  exact iput_setCwd_held hI₁ (fun _ => le_rfl) hA₁ (by rw [hcwd₁]; exact hcwd) h₂ fun _ h' => by cases h'

/-! ## One step of the machine -/

/-- A step that may have made a directory keeps every directory laid out. -/
theorem MadeDir.laid {cwd : Fin NINODE} {path : List UInt8} (hL : s.Laid) (h : MadeDir cwd path s t) :
    t.Laid := by
  obtain ⟨dp, name, s₁, c, -, hk, hc⟩ := h
  refine ⟨hk.sb ▸ hL.ninodes, fun d hd => ?_⟩
  by_cases hdc : d = c
  · subst hdc
    exact ⟨_, hc hd⟩
  · exact hL.keep hk (fun h' => hdc (Option.some.inj h').symm) hd

theorem FsCall.run_layout {p : Fin NPROC} {cwd : Fin NINODE} {call : FsCall} {r : Int}
    (hI : s.Inv 0 D) (hcwd : s.cwd p = some cwd) (hfree : ∀ c, call = .fork c → s.cwd c = none)
    (hA : s.HeldAlloc) (hL : s.Laid) (h : call.run p cwd s = .ok (r, t)) :
    t.HeldAlloc ∧ (KeepsHeads none s t ∨ ∃ path, call = .mkdir path ∧ MadeDir cwd path s t) := by
  have hpos := hI.ref_pos_of_cwd hcwd le_rfl
  cases call with
  | «open» path omode =>
      obtain ⟨hA', hk⟩ := sys_open_layout hI hpos hA hL h
      exact ⟨hA', .inl hk⟩
  | close fd => exact ⟨sys_close_held hI hA h, .inl (sys_close_frees p fd s _ t h).keepsHeads⟩
  | mkdir path =>
      obtain ⟨hA', hk⟩ := sys_mkdir_layout hI hpos hA hL h
      exact ⟨hA', hk.imp id fun hm => ⟨path, rfl, hm⟩⟩
  | mknod path major minor =>
      obtain ⟨hA', hk⟩ := sys_mknod_layout hI hpos hA hL h
      exact ⟨hA', .inl hk⟩
  | link old new =>
      obtain ⟨hA', hk⟩ := sys_link_layout hI hcwd hA hL h
      exact ⟨hA', .inl hk⟩
  | unlink path =>
      obtain ⟨hA', hk⟩ := sys_unlink_layout hI hpos hA hL h
      exact ⟨hA', .inl hk⟩
  | chdir path => exact ⟨sys_chdir_held hI hcwd hA h, .inl (sys_chdir_frees p cwd path s _ t h).keepsHeads⟩
  | exec path argv mem =>
      exact ⟨sys_exec_held hI hpos hA h, .inl (sys_exec_frees cwd path argv mem s _ t h).keepsHeads⟩
  | fork c =>
      obtain ⟨_, s₁, h₁, h⟩ := bind_ok.mp h
      obtain ⟨-, rfl⟩ := pure_ok h
      exact ⟨fork_files_held hI hcwd hA h₁, .inl (fork_files_frees p c cwd s _ _ h₁).keepsHeads⟩
  | exit =>
      obtain ⟨_, s₁, h₁, h⟩ := bind_ok.mp h
      obtain ⟨-, rfl⟩ := pure_ok h
      exact ⟨exit_files_held hI hcwd hA h₁, .inl (exit_files_frees p cwd s _ _ h₁).keepsHeads⟩

/-- One step of the machine: `HeldAlloc` is kept, and every head but that
of a directory a `mkdir` made. -/
theorem fsStep_layout {e : FsEvent} {r : Int} (hI : s.Inv 0 D) (hA : s.HeldAlloc) (hL : s.Laid)
    (h : fsStep s e = some (t, r)) :
    t.HeldAlloc ∧ ∃ cwd, s.cwd e.p = some cwd ∧
      (KeepsHeads none s t ∨ ∃ path, e.call = .mkdir path ∧ MadeDir cwd path s t) := by
  unfold fsStep at h
  split at h
  · cases h
  rename_i cwd hcwd
  split at h
  · cases h
  rename_i hfork
  split at h
  · rename_i r' s'' hrun
    obtain ⟨rfl, rfl⟩ := Prod.mk.inj (Option.some.inj h)
    -- a fork into a slot that has a current directory has no step
    have hfree : ∀ c, e.call = .fork c → s.cwd c = none := fun c hc => by
      cases hcc : s.cwd c with
      | none => rfl
      | some _ => exact absurd ⟨c, hc, by simp [hcc]⟩ hfork
    obtain ⟨hA', hk⟩ := FsCall.run_layout hI hcwd hfree hA hL hrun
    exact ⟨hA', cwd, hcwd, hk⟩
  · cases h

theorem fsStep_laid {e : FsEvent} {r : Int} (hI : s.Inv 0 D) (hA : s.HeldAlloc) (hL : s.Laid)
    (h : fsStep s e = some (t, r)) : t.HeldAlloc ∧ t.Laid := by
  obtain ⟨hA', cwd, -, hk | ⟨path, -, hm⟩⟩ := fsStep_layout hI hA hL h
  · exact ⟨hA', hL.of_keepsHeads hk⟩
  · exact ⟨hA', hm.laid hL⟩

end Fs

end Xv6
