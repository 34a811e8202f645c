/-
# `Xv6.Fs.Namei` — directories and path names (`kernel/fs.c`)

`dirlookup`, `dirlink` and `namex`, with `isdirempty` of `sysfile.c`.
Three loops of the source walk a directory the same way,

    for(off = start; off < dp->size; off += sizeof(de)){
      if(readi(dp, 0, (uint64)&de, off, sizeof(de)) != sizeof(de))
        panic(msg);
      if(<test de>) <stop>;
    }

and are one definition here, `dirScan`, applied to each one's start,
test and message.  It returns where it stopped and the entry that stopped
it, or the offset past the last entry.  Its fuel is the directory's size:
each round moves `off` forward and nothing in the loop changes the size.
-/
import Xv6.Fs.Table

namespace Xv6

/-- `"."`. -/
def DOT : List UInt8 := [46]

/-- `".."`. -/
def DOTDOT : List UInt8 := [46, 46]

/-- The directory loop shared by `dirlookup`, `dirlink` and `isdirempty`:
the first entry at or after `off` that satisfies `stop`, with its offset,
or `none` with the offset where the loop ended. -/
def dirScan (dp : Fin NINODE) (stop : Dirent → Bool) (msg : String) :
    (fuel off : Nat) → FsM (Nat × Option Dirent)
  | 0, off => return (off, none)
  | fuel + 1, off => do
      if off < ((← get).inode dp).d.size then
        let (r, bytes) ← readi dp off DIRENT_SIZE
        if r ≠ DIRENT_SIZE then throw msg
        let de := Dirent.decode bytes
        if stop de then return (off, some de)
        dirScan dp stop msg fuel (off + DIRENT_SIZE)
      else return (off, none)

/-- The test of `dirlookup`: a used entry whose name matches. -/
def nameMatches (name : List UInt8) (de : Dirent) : Bool :=
  de.inum ≠ 0 ∧ namecmp name de.name = 0

/-- `dirlookup(dp, name, poff)`: the entry named `name`, as an inode
reference from `iget`, with its offset. -/
def dirlookup (dp : Fin NINODE) (name : List UInt8) : FsM (Option (Fin NINODE × Nat)) := do
  let e := (← get).inode dp
  if e.d.type ≠ T_DIR then throw "dirlookup not DIR"
  match ← dirScan dp (nameMatches name) "dirlookup read" e.d.size 0 with
  | (off, some de) =>
      let ip ← iget de.inum.toNat
      return some (ip, off)
  | (_, none) => return none

/-- `dirlink(dp, name, inum)`: `0`, or `-1` when `name` is present or the
entry could not be written. -/
def dirlink (dp : Fin NINODE) (name : List UInt8) (inum : Nat) : FsM Int := do
  -- check that name is not present
  match ← dirlookup dp name with
  | some (ip, _) =>
      iput ip
      return -1
  | none =>
      -- look for an empty dirent
      let (off, _) ← dirScan dp (fun de => de.inum = 0) "dirlink read"
        ((← get).inode dp).d.size 0
      let de : Dirent := ⟨UInt16.ofNat inum, strncpy name DIRSIZ⟩
      if (← writei dp de.encode off DIRENT_SIZE) ≠ DIRENT_SIZE then return -1
      return 0

/-- `isdirempty(dp)`: no used entry after `.` and `..`. -/
def isdirempty (dp : Fin NINODE) : FsM Bool := do
  let (_, de) ← dirScan dp (fun de => de.inum ≠ 0) "isdirempty: readi"
    ((← get).inode dp).d.size (2 * DIRENT_SIZE)
  return de.isNone

/-- The loop of `namex`: `ip` is referenced and unlocked, `path` is what is
left of the path, `name` the element last copied out.  The fuel is the
path's length: `skipelem` takes at least one byte each round. -/
def namexLoop (nameiparent : Bool) :
    (fuel : Nat) → Fin NINODE → List UInt8 → List UInt8 → FsM (Option (Fin NINODE × List UInt8))
  | fuel, ip, path, name =>
      match fuel, skipelem path with
      | fuel + 1, some (elem, rest) => do
          ilock ip
          if ((← get).inode ip).d.type ≠ T_DIR then
            iunlockput ip
            return none
          if nameiparent = true ∧ rest.headD NUL = NUL then
            -- stop one level early
            iunlock ip
            return some (ip, elem)
          match ← dirlookup ip elem with
          | none =>
              iunlockput ip
              return none
          | some (next, _) =>
              iunlockput ip
              namexLoop nameiparent fuel next rest elem
      | _, _ => do
          if nameiparent then
            iput ip
            return none
          return some (ip, name)

/-- `namex(path, nameiparent, name)`, from the calling process's `cwd`:
the inode of `path` (or of its parent, with the last element), referenced
and unlocked. -/
def namex (cwd : Fin NINODE) (path : List UInt8) (nameiparent : Bool) :
    FsM (Option (Fin NINODE × List UInt8)) := do
  let ip ← if path.headD NUL = SLASH then iget ROOTINO else idup cwd
  namexLoop nameiparent (path.length + 1) ip path []

/-- `namei(path)`. -/
def namei (cwd : Fin NINODE) (path : List UInt8) : FsM (Option (Fin NINODE)) := do
  match ← namex cwd path false with
  | some (ip, _) => return some ip
  | none => return none

/-- `nameiparent(path, name)`. -/
def nameiparent (cwd : Fin NINODE) (path : List UInt8) : FsM (Option (Fin NINODE × List UInt8)) :=
  namex cwd path true


attribute [grind] dirScan nameMatches namex

/-! ## What the directory functions do -/

section Specs

open StateExcept

variable {s s' : Fs} {ex : Fin NINODE → Int} {D : Prop}

/-- `dirScan` from slot `k`: every slot it passes fails the test and lies
below the size; it returns a slot that passes the test, or ends past the
last slot or with its fuel spent. -/
theorem dirScan_spec {dp : Fin NINODE} {stop : Dirent → Bool} {msg : String} :
    ∀ {fuel k off : Nat} {r : Nat × Option Dirent} {s s' : Fs}, off = k * DIRENT_SIZE →
      dirScan dp stop msg fuel off s = .ok (r, s') →
      Fs.BlockStep s s' ∧ ∃ k', r.1 = k' * DIRENT_SIZE ∧ k ≤ k' ∧
        (∀ j, k ≤ j → j < k' → stop (s.slot (s.inode dp).inum j) = false ∧
          (j + 1) * DIRENT_SIZE ≤ (s.inode dp).d.size) ∧
        (∀ de, r.2 = some de → de = s.slot (s.inode dp).inum k' ∧ stop de = true ∧
          (k' + 1) * DIRENT_SIZE ≤ (s.inode dp).d.size) ∧
        (r.2 = none → (s.inode dp).d.size ≤ k' * DIRENT_SIZE ∨ k' = k + fuel)
  | 0, k, off, r, s, s', hoff, h => by
      obtain ⟨rfl, rfl⟩ := pure_ok h
      exact ⟨.refl _, k, hoff, le_rfl, fun j h₁ h₂ => absurd h₂ (by omega), fun _ h => (by cases h),
        fun _ => .inr rfl⟩
  | fuel + 1, k, off, r, s, s', hoff, h => by
      subst hoff
      simp only [dirScan, get_bind_run, ite_run] at h
      split at h
      · obtain ⟨⟨n, bytes⟩, s₁, h₁, h⟩ := bind_ok.mp h
        obtain ⟨hb₁, -, hn, rfl⟩ := readi_spec h₁
        simp only [ite_run] at h
        split at h
        · simp at h
        · rename_i hread
          have hn16 : n = DIRENT_SIZE := by simpa using hread
          subst hn16
          -- the sixteen bytes read are slot `k`, whole below the size
          have hfit : (k + 1) * DIRENT_SIZE ≤ (s.inode dp).d.size := by
            rcases hn with hn | hn
            · simp [DIRENT_SIZE] at hn
            · rw [Nat.succ_mul]
              exact hn
          split at h
          · rename_i hstop
            obtain ⟨rfl, rfl⟩ := pure_ok h
            refine ⟨hb₁, k, rfl, le_rfl, fun j h₁ h₂ => absurd h₂ (by omega), fun de hde => ?_,
              fun h => (by cases h)⟩
            cases hde
            exact ⟨rfl, hstop, hfit⟩
          · rename_i hstop
            obtain ⟨hb₂, k', hr, hle, hpass, hsome, hnone⟩ := dirScan_spec (Nat.succ_mul k DIRENT_SIZE).symm h
            obtain ⟨hinum, -, -, -, -, hsize⟩ := hb₁.entry dp
            rw [hb₁.slot, hinum, hsize] at hpass hsome
            rw [hsize] at hnone
            refine ⟨hb₁.trans hb₂, k', hr, by omega, fun j h₁ h₂ => ?_, hsome, fun h => ?_⟩
            · rcases Nat.eq_or_lt_of_le h₁ with rfl | h₁
              · exact ⟨Bool.eq_false_iff.mpr hstop, hfit⟩
              · exact hpass j h₁ h₂
            · rcases hnone h with h | h
              · exact .inl h
              · exact .inr (by omega)
      · rename_i hge
        obtain ⟨rfl, rfl⟩ := pure_ok h
        exact ⟨.refl _, k, rfl, le_rfl, fun j h₁ h₂ => absurd h₂ (by omega), fun _ h => (by cases h),
          fun _ => .inl (by omega)⟩

/-- A scan of the whole directory from slot `k`, with the size as fuel,
that finds nothing has passed every slot from `k` below the size. -/
theorem dirScan_none_passes {size k k' fuel : Nat} (hfuel : size ≤ fuel)
    (hnone : size ≤ k' * DIRENT_SIZE ∨ k' = k + fuel) {j : Nat} (hj : j < size / DIRENT_SIZE) : j < k' := by
  have hsz : DIRENT_SIZE = 16 := rfl
  rw [hsz] at hnone hj
  omega

/-- `dirlookup` reads the directory up to the first used entry named
`name`, and takes a reference on that entry's inode. -/
theorem dirlookup_spec {dp : Fin NINODE} {name : List UInt8} {r : Option (Fin NINODE × Nat)}
    (h : dirlookup dp name s = .ok (r, s')) :
    (s.inode dp).d.type = T_DIR ∧ ∃ s₁, Fs.BlockStep s s₁ ∧
      ((r = none ∧ s' = s₁ ∧
          ∀ j < (s.inode dp).d.size / DIRENT_SIZE, nameMatches name (s.slot (s.inode dp).inum j) = false) ∨
       (∃ k ip, r = some (ip, k * DIRENT_SIZE) ∧ k < (s.inode dp).d.size / DIRENT_SIZE ∧
          nameMatches name (s.slot (s.inode dp).inum k) = true ∧
          (∀ j < k, nameMatches name (s.slot (s.inode dp).inum j) = false) ∧
          iget (s.slot (s.inode dp).inum k).inum.toNat s₁ = .ok (ip, s'))) := by
  unfold dirlookup at h
  simp only [get_bind_run, ite_run] at h
  split at h
  · simp at h
  · rename_i htype
    refine ⟨by simpa using htype, ?_⟩
    obtain ⟨⟨off, res⟩, s₁, h₁, h⟩ := bind_ok.mp h
    obtain ⟨hb, k', hr, -, hpass, hsome, hnone⟩ :=
      dirScan_spec (show (0 : Nat) = 0 * DIRENT_SIZE from rfl) h₁
    refine ⟨s₁, hb, ?_⟩
    cases res with
    | none =>
        obtain ⟨rfl, rfl⟩ := pure_ok h
        refine .inl ⟨rfl, rfl, fun j hj => ?_⟩
        exact (hpass j (Nat.zero_le _) (dirScan_none_passes le_rfl (hnone rfl) hj)).1
    | some de =>
        obtain ⟨rfl, hmatch, hfit⟩ := hsome de rfl
        obtain ⟨ip, s₂, h₂, h⟩ := bind_ok.mp h
        obtain ⟨rfl, rfl⟩ := pure_ok h
        dsimp only at hr
        subst hr
        refine .inr ⟨k', ip, rfl, ?_, hmatch, fun j hj => (hpass j (Nat.zero_le _) hj).1, h₂⟩
        have hsz : DIRENT_SIZE = 16 := rfl
        rw [hsz] at hfit ⊢
        omega

/-- `dirlink` finds `name` and gives back the reference it took, or
writes the entry at the first free slot, or at the end. -/
theorem dirlink_spec {dp : Fin NINODE} {name : List UInt8} {inum : Nat} {r : Int}
    (h : dirlink dp name inum s = .ok (r, s')) :
    (s.inode dp).d.type = T_DIR ∧ ∃ s₁, Fs.BlockStep s s₁ ∧
      ((∃ k ip s₂, k < (s.inode dp).d.size / DIRENT_SIZE ∧
          nameMatches name (s.slot (s.inode dp).inum k) = true ∧ r = -1 ∧
          iget (s.slot (s.inode dp).inum k).inum.toNat s₁ = .ok (ip, s₂) ∧ iput ip s₂ = .ok ((), s')) ∨
       ((∀ j < (s.inode dp).d.size / DIRENT_SIZE, nameMatches name (s.slot (s.inode dp).inum j) = false) ∧
        ∃ k w, k ≤ (s.inode dp).d.size / DIRENT_SIZE ∧
          (k < (s.inode dp).d.size / DIRENT_SIZE → (s.slot (s.inode dp).inum k).inum = 0) ∧
          writei dp (Dirent.encode ⟨UInt16.ofNat inum, strncpy name DIRSIZ⟩) (k * DIRENT_SIZE) DIRENT_SIZE s₁ =
            .ok (w, s') ∧
          r = if w ≠ DIRENT_SIZE then -1 else 0)) := by
  unfold dirlink at h
  obtain ⟨res, s₁, h₁, h⟩ := bind_ok.mp h
  obtain ⟨htype, s₀, hb₀, hlook⟩ := dirlookup_spec h₁
  refine ⟨htype, ?_⟩
  rcases hlook with ⟨rfl, rfl, hnone⟩ | ⟨k, ip, rfl, hk, hmatch, -, hget⟩
  · -- not present: find a free slot and write the entry there
    simp only [get_bind_run] at h
    obtain ⟨⟨off, res⟩, s₂, h₂, h⟩ := bind_ok.mp h
    obtain ⟨hinum, -, -, -, -, hsize⟩ := hb₀.entry dp
    obtain ⟨hb₂, k', hr, -, hpass, hsome, hnone'⟩ :=
      dirScan_spec (show (0 : Nat) = 0 * DIRENT_SIZE from rfl) h₂
    rw [hb₀.slot, hinum, hsize] at hpass hsome
    rw [hsize] at hnone'
    dsimp only at hr
    subst hr
    obtain ⟨w, s₃, h₃, hret⟩ := bind_ok.mp h
    obtain ⟨hw, rfl⟩ : (r = if w ≠ DIRENT_SIZE then -1 else 0) ∧ s₃ = s' := by
      split at hret
      · rename_i hne
        obtain ⟨rfl, rfl⟩ := pure_ok hret
        simp [hne]
      · rename_i hne
        obtain ⟨rfl, rfl⟩ := pure_ok hret
        simp [hne]
    refine ⟨s₂, hb₀.trans hb₂, .inr ⟨hnone, k', w, ?_, ?_, h₃, hw⟩⟩
    · cases res with
      | none =>
          have hsz : DIRENT_SIZE = 16 := rfl
          rcases Nat.eq_zero_or_pos k' with hk' | hk'
          · subst hk'
            exact Nat.zero_le _
          · have := (hpass (k' - 1) (Nat.zero_le _) (by omega)).2
            rw [hsz] at this ⊢
            rw [Nat.sub_add_cancel hk'] at this
            omega
      | some de =>
          have := (hsome de rfl).2.2
          have hsz : DIRENT_SIZE = 16 := rfl
          rw [hsz] at this ⊢
          omega
    · intro hk'
      cases res with
      | none =>
          have := dirScan_none_passes le_rfl (hnone' rfl) hk'
          omega
      | some de =>
          obtain ⟨rfl, hfree, -⟩ := hsome de rfl
          simpa using hfree
  · -- present: the reference `dirlookup` took is given back
    obtain ⟨u, s₂, h₂, h⟩ := bind_ok.mp h
    obtain ⟨rfl, rfl⟩ := pure_ok h
    exact ⟨s₀, hb₀, .inl ⟨k, ip, s₁, hk, hmatch, rfl, hget, h₂⟩⟩

/-- `isdirempty` changes the block map only. -/
theorem isdirempty_blockStep {dp : Fin NINODE} {b : Bool} (h : isdirempty dp s = .ok (b, s')) :
    Fs.BlockStep s s' := by
  unfold isdirempty at h
  simp only [get_bind_run] at h
  obtain ⟨⟨off, de⟩, s₁, h₁, h⟩ := bind_ok.mp h
  obtain ⟨-, rfl⟩ := pure_ok h
  exact (dirScan_spec (show 2 * DIRENT_SIZE = 2 * DIRENT_SIZE from rfl) h₁).1

/-! ### The invariant -/

theorem dirlookup_inv {dp : Fin NINODE} {name : List UInt8} {r : Option (Fin NINODE × Nat)}
    (hI : s.Inv ex D) (h : dirlookup dp name s = .ok (r, s')) :
    Fs.KeepsLive s s' ∧ (r = none → s'.Inv ex D) ∧
      ∀ ip off, r = some (ip, off) → s'.Inv (ex + Pi.single ip 1) D := by
  obtain ⟨-, s₁, hb, hlook⟩ := dirlookup_spec h
  have hagree := Fs.Agree.of_blockStep hb
  have hI₁ := hI.agree hagree
  rcases hlook with ⟨rfl, rfl, -⟩ | ⟨k, ip, rfl, -, -, -, hget⟩
  · exact ⟨hagree.keepsLive, fun _ => hI₁, fun _ _ h => (by cases h)⟩
  · obtain ⟨hI', hkeep, -⟩ := Fs.iget_inv hI₁ hget
    refine ⟨hagree.keepsLive.trans hkeep, fun h => (by cases h), fun ip' off h => ?_⟩
    obtain ⟨rfl, -⟩ := Prod.mk.inj (Option.some.inj h)
    exact hI'

theorem dirlookup_cwd {dp : Fin NINODE} {name : List UInt8} {r : Option (Fin NINODE × Nat)}
    (h : dirlookup dp name s = .ok (r, s')) : s'.cwd = s.cwd := by
  obtain ⟨-, s₁, hb, hlook⟩ := dirlookup_spec h
  rcases hlook with ⟨-, rfl, -⟩ | ⟨k, ip, -, -, -, -, hget⟩
  · exact hb.fields.2.2.2.2.1
  · exact (Fs.iget_cwd hget).trans hb.fields.2.2.2.2.1

/-- `dirlink` into a live directory keeps the invariant: it writes only a
name no used entry has. -/
theorem dirlink_inv {dp : Fin NINODE} {name : List UInt8} {inum : Nat} {r : Int}
    (hI : s.Inv ex D) (hl : s.Live dp) (h : dirlink dp name inum s = .ok (r, s')) :
    s'.Inv ex D ∧ Fs.KeepsLive s s' := by
  obtain ⟨-, s₁, hb, hlink⟩ := dirlink_spec h
  have hagree := Fs.Agree.of_blockStep hb
  have hI₁ := hI.agree hagree
  rcases hlink with ⟨k, ip, s₂, -, -, -, hget, hput⟩ | ⟨hnone, k, w, hk, -, hw, -⟩
  · obtain ⟨hI', hkeep⟩ := Fs.iget_iput_inv hI₁ hget hput
    exact ⟨hI', hagree.keepsLive.trans hkeep⟩
  · obtain ⟨hinum, -, -, -, -, hsize⟩ := hb.entry dp
    have hslot := hb.slot
    refine (Fs.writei_dirent_inv hI₁ ((hagree.live dp).mpr hl) (length_strncpy _ _)
      (by rw [hsize]; exact hk) (fun _ j hj _ hused hcmp => ?_) hw).imp id (hagree.keepsLive.trans ·)
    -- the name written is no used entry's name
    rw [hsize] at hj
    rw [hslot, hinum] at hused hcmp
    have := hnone j hj
    rw [namecmp_eq_zero_iff, nameKey_strncpy, ← namecmp_eq_zero_iff] at hcmp
    simp [nameMatches, hused, hcmp] at this

/-- `isdirempty` keeps the invariant. -/
theorem isdirempty_inv {dp : Fin NINODE} {b : Bool} (hI : s.Inv ex D) (h : isdirempty dp s = .ok (b, s')) :
    s'.Inv ex D ∧ Fs.KeepsLive s s' :=
  have hagree := Fs.Agree.of_blockStep (isdirempty_blockStep h)
  ⟨hI.agree hagree, hagree.keepsLive⟩


/-- Where the loop of `namex` stops without walking further: it gives back
its reference for `nameiparent`, or returns it. -/
theorem namexLoop_stop_inv {nameiparent : Bool} {fuel : Nat} {ip : Fin NINODE} {path name : List UInt8}
    {r : Option (Fin NINODE × List UInt8)}
    (hstop : ∀ fuel' elem rest, fuel = fuel' + 1 → skipelem path = some (elem, rest) → False)
    (hI : s.Inv (ex + Pi.single ip 1) D) (h : namexLoop nameiparent fuel ip path name s = .ok (r, s')) :
    (r = none → s'.Inv ex D) ∧ (∀ ip' name', r = some (ip', name') → s'.Inv (ex + Pi.single ip' 1) D) ∧
      s'.cwd = s.cwd := by
  rw [namexLoop.eq_2 _ _ _ _ _ hstop] at h
  simp only [ite_run] at h
  split at h
  · obtain ⟨_, s₁, h₁, h⟩ := bind_ok.mp h
    obtain ⟨rfl, rfl⟩ := pure_ok h
    exact ⟨fun _ => Fs.iput_release hI h₁, fun _ _ h => (by cases h), Fs.iput_cwd h₁⟩
  · obtain ⟨rfl, rfl⟩ := pure_ok h
    refine ⟨fun h => (by cases h), fun ip' name' h => ?_, rfl⟩
    obtain ⟨rfl, -⟩ := Prod.mk.inj (Option.some.inj h)
    exact hI

/-- The loop of `namex` starts holding one reference, on `ip`, and ends
holding one on the inode it returns, or none.  The induction is on the
fuel, one path element a round. -/
theorem namexLoop_inv {nameiparent : Bool} {fuel : Nat} :
    ∀ {ip : Fin NINODE} {path name : List UInt8} {r : Option (Fin NINODE × List UInt8)} {s s' : Fs}
      {ex : Fin NINODE → Int}, s.Inv (ex + Pi.single ip 1) D →
      namexLoop nameiparent fuel ip path name s = .ok (r, s') →
      (r = none → s'.Inv ex D) ∧ (∀ ip' name', r = some (ip', name') → s'.Inv (ex + Pi.single ip' 1) D) ∧
        s'.cwd = s.cwd := by
  induction fuel with
  | zero =>
      intro ip path name r s s' ex hI h
      exact namexLoop_stop_inv (fun _ _ _ h _ => Nat.noConfusion h) hI h
  | succ fuel ih =>
      intro ip path name r s s' ex hI h
      cases hsk : skipelem path with
      | none => exact namexLoop_stop_inv (fun _ _ _ _ h' => by rw [hsk] at h'; cases h') hI h
      | some p =>
          obtain ⟨elem, rest⟩ := p
          rw [namexLoop.eq_1 _ _ _ _ _ _ _ hsk] at h
          obtain ⟨_, s₁, h₁, h⟩ := bind_ok.mp h
          obtain ⟨hI₁, -, -, -⟩ := Fs.ilock_inv hI h₁
          have hcwd₁ := Fs.ilock_cwd h₁
          simp only [get_bind_run, ite_run] at h
          split at h
          · -- not a directory: give up
            obtain ⟨_, s₂, h₂, h⟩ := bind_ok.mp h
            obtain ⟨rfl, rfl⟩ := pure_ok h
            obtain ⟨-, hput⟩ := iunlockput_spec h₂
            exact ⟨fun _ => Fs.iput_release hI₁ hput, fun _ _ h => (by cases h), (Fs.iput_cwd hput).trans hcwd₁⟩
          · split at h
            · -- the parent, one level early
              obtain ⟨_, s₂, h₂, hret⟩ := bind_ok.mp h
              obtain ⟨-, rfl⟩ := iunlock_spec h₂
              obtain ⟨rfl, rfl⟩ := pure_ok hret
              refine ⟨fun h => (by cases h), fun ip' name' h => ?_, hcwd₁⟩
              obtain ⟨rfl, -⟩ := Prod.mk.inj (Option.some.inj h)
              exact hI₁
            · -- one element down: the reference moves from `ip` to the entry found
              obtain ⟨res, s₂, h₂, h⟩ := bind_ok.mp h
              obtain ⟨-, hnone, hsome⟩ := dirlookup_inv hI₁ h₂
              have hcwd₂ := (dirlookup_cwd h₂).trans hcwd₁
              cases res with
              | none =>
                  obtain ⟨_, s₃, h₃, h⟩ := bind_ok.mp h
                  obtain ⟨rfl, rfl⟩ := pure_ok h
                  obtain ⟨-, hput⟩ := iunlockput_spec h₃
                  exact ⟨fun _ => Fs.iput_release (hnone rfl) hput, fun _ _ h => (by cases h),
                    (Fs.iput_cwd hput).trans hcwd₂⟩
              | some p =>
                  obtain ⟨next, off⟩ := p
                  obtain ⟨_, s₃, h₃, h⟩ := bind_ok.mp h
                  obtain ⟨-, hput⟩ := iunlockput_spec h₃
                  have hI₃ := (Fs.iput_inv (hsome next off rfl) hput).1
                  rw [add_sub_right_comm, add_sub_cancel_right] at hI₃
                  obtain ⟨hnone', hsome', hcwd'⟩ := ih hI₃ h
                  exact ⟨hnone', hsome', hcwd'.trans ((Fs.iput_cwd hput).trans hcwd₂)⟩

/-- `namex` ends holding a reference on the inode it returns, or none; a
relative path starts from a referenced current directory. -/
theorem namex_inv {cwd : Fin NINODE} {path : List UInt8} {nameiparent : Bool}
    {r : Option (Fin NINODE × List UInt8)} (hI : s.Inv ex D)
    (hcwd : path.headD NUL ≠ SLASH → 0 < (s.inode cwd).ref)
    (h : namex cwd path nameiparent s = .ok (r, s')) :
    (r = none → s'.Inv ex D) ∧ (∀ ip' name', r = some (ip', name') → s'.Inv (ex + Pi.single ip' 1) D) ∧
      s'.cwd = s.cwd := by
  unfold namex at h
  simp only [ite_run] at h
  split at h
  · -- an absolute path starts at the root
    obtain ⟨ip, s₁, h₁, h⟩ := bind_ok.mp h
    obtain ⟨hnone, hsome, hcwd'⟩ := namexLoop_inv (Fs.iget_inv hI h₁).1 h
    exact ⟨hnone, hsome, hcwd'.trans (Fs.iget_cwd h₁)⟩
  · rename_i hrel
    obtain ⟨ip, s₁, h₁, h⟩ := bind_ok.mp h
    rw [idup_run, Except.ok.injEq, Prod.mk.injEq] at h₁
    obtain ⟨rfl, rfl⟩ := h₁
    obtain ⟨hnone, hsome, hcwd'⟩ := namexLoop_inv (Fs.idup_inv hI (hcwd hrel)) h
    exact ⟨hnone, hsome, hcwd'.trans rfl⟩

theorem namei_inv {cwd : Fin NINODE} {path : List UInt8} {r : Option (Fin NINODE)} (hI : s.Inv ex D)
    (hcwd : path.headD NUL ≠ SLASH → 0 < (s.inode cwd).ref) (h : namei cwd path s = .ok (r, s')) :
    (r = none → s'.Inv ex D) ∧ (∀ ip, r = some ip → s'.Inv (ex + Pi.single ip 1) D) ∧ s'.cwd = s.cwd := by
  unfold namei at h
  obtain ⟨res, s₁, h₁, h⟩ := bind_ok.mp h
  obtain ⟨hnone, hsome, hcwd'⟩ := namex_inv hI hcwd h₁
  cases res with
  | none =>
      obtain ⟨rfl, rfl⟩ := pure_ok h
      exact ⟨fun _ => hnone rfl, fun _ h => (by cases h), hcwd'⟩
  | some p =>
      obtain ⟨ip, name⟩ := p
      obtain ⟨rfl, rfl⟩ := pure_ok h
      refine ⟨fun h => (by cases h), fun ip' h => ?_, hcwd'⟩
      cases h
      exact hsome ip name rfl

end Specs

end Xv6
