/-
# `Xv6.Fs.Layout` — the first two entries of every directory

`create` writes `.` (the new directory itself) and `..` (the directory it
is made in) into a new directory before it links it anywhere, and no
call writes the first two slots of a directory after that while the
directory is allocated:

    dirlink      writes the first slot whose inode number is 0, or the one
                 past the end; `.` and `..` name inodes other than 0
    sys_unlink   clears the slot `dirlookup` finds for a name that is not
                 `.` or `..` under `namecmp`, so neither slot 0 nor slot 1
    iput         frees an inode (type 0) and leaves its content alone

So `isdirempty`, which starts at the third slot, sees every entry but
those two.

**Two relations between states** say what a call may do to the disk.
`FreesOnly` writes nothing but the type `0` of the inodes it frees: the
functions that look things up and take or drop references guarantee it,
by the rules of `Xv6.Lib.StateExcept`.  `KeepsHeads c` keeps every
directory but `c` as it was in its first two slots, no smaller: the
functions that write guarantee it when the state is coherent and the
directory they write is laid out.

**Held entries.**  `ialloc` takes an entry of the inode table for the
inode it allocates.  That entry is a fresh one, and `create`'s failure
path frees the inode again, because no entry that a current directory or
an open file holds names a free inode (`HeldAlloc`).
-/
import Xv6.Fs.SysfileInv

namespace Xv6

open StateExcept

/-- The entry `dirlink(dp, name, inum)` writes. -/
def Dirent.named (name : List UInt8) (inum : Nat) : Dirent :=
  ⟨UInt16.ofNat inum, strncpy name DIRSIZ⟩

theorem Dirent.length_named (name : List UInt8) (inum : Nat) :
    (Dirent.named name inum).name.length = DIRSIZ :=
  length_strncpy _ _

namespace Fs

variable {s t u : Fs} {ex : Fin NINODE → Int} {D : Prop}

/-! ## Laid-out directories -/

/-- An inode number an entry's `ushort` holds as it is, and not the `0` of
a free slot. -/
def Nameable (i : Nat) : Prop :=
  0 < i ∧ i < 2 ^ 16

theorem Nameable.ofNat_ne_zero {i : Nat} (h : Nameable i) : UInt16.ofNat i ≠ 0 := by
  intro h0
  have := congrArg UInt16.toNat h0
  rw [UInt16.toNat_ofNat', Nat.mod_eq_of_lt h.2, UInt16.toNat_zero] at this
  have := h.1
  omega

theorem Nameable.toNat_ofNat {i : Nat} (h : Nameable i) : (UInt16.ofNat i).toNat = i := by
  rw [UInt16.toNat_ofNat', Nat.mod_eq_of_lt h.2]

/-- Directory `d` opens with the entry `.` naming itself at offset `0` and
the entry `..` naming `p` at offset `sizeof(struct dirent)`. -/
structure Heads (s : Fs) (d p : Nat) : Prop where
  self : Nameable d
  parent : Nameable p
  size : 2 * DIRENT_SIZE ≤ (s.dinode d).size
  dot : s.slot d 0 = Dirent.named DOT d
  dotdot : s.slot d 1 = Dirent.named DOTDOT p

/-- Every directory on disk is laid out; inode numbers fit a `ushort`. -/
structure Laid (s : Fs) : Prop where
  ninodes : s.sb.ninodes ≤ 2 ^ 16
  dirs : ∀ d, (s.dinode d).type = T_DIR → ∃ p, s.Heads d p

/-- Slots `0` and `1` of a laid-out directory are used. -/
theorem Heads.used {d p k : Nat} (h : s.Heads d p) (hk : k < 2) : (s.slot d k).inum ≠ 0 := by
  rcases (by omega : k = 0 ∨ k = 1) with rfl | rfl
  · rw [h.dot]
    exact h.self.ofNat_ne_zero
  · rw [h.dotdot]
    exact h.parent.ofNat_ne_zero

/-- The first two slots read only the first `2 * DIRENT_SIZE` bytes. -/
theorem slot_congr_head {d k : Nat} (h : ∀ i < 2 * DIRENT_SIZE, t.data d i = s.data d i) (hk : k < 2) :
    t.slot d k = s.slot d k := by
  unfold slot
  congr 1
  refine List.map_congr_left fun i hi => h _ ?_
  rw [List.mem_range] at hi
  have hsz : DIRENT_SIZE = 16 := rfl
  rw [hsz] at hi ⊢
  omega

/-! ## What a step does to the heads of directories -/

/-- Inode `d` is a directory after the step only if it was one before, no
larger then, with its first two slots' bytes as they were. -/
def KeepsHead (s t : Fs) (d : Nat) : Prop :=
  (t.dinode d).type = T_DIR → (s.dinode d).type = T_DIR ∧ (s.dinode d).size ≤ (t.dinode d).size ∧
    ∀ i < 2 * DIRENT_SIZE, t.data d i = s.data d i

theorem KeepsHead.refl (s : Fs) (d : Nat) : KeepsHead s s d :=
  fun ht => ⟨ht, le_rfl, fun _ _ => rfl⟩

theorem KeepsHead.trans {d : Nat} (h₁ : KeepsHead s t d) (h₂ : KeepsHead t u d) : KeepsHead s u d := by
  intro ht
  obtain ⟨ht', hs', hb'⟩ := h₂ ht
  obtain ⟨ht'', hs'', hb''⟩ := h₁ ht'
  exact ⟨ht'', hs''.trans hs', fun i hi => (hb' i hi).trans (hb'' i hi)⟩

/-- The step keeps the heads of every inode but `but`. -/
structure KeepsHeads (but : Option Nat) (s t : Fs) : Prop where
  sb : t.sb = s.sb
  head : ∀ d, but ≠ some d → KeepsHead s t d

instance (but : Option Nat) : IsPreorder Fs (KeepsHeads but) where
  refl s := ⟨rfl, fun d _ => KeepsHead.refl s d⟩
  trans _ _ _ h₁ h₂ := ⟨h₂.sb.trans h₁.sb, fun d hd => (h₁.head d hd).trans (h₂.head d hd)⟩

theorem KeepsHeads.mono {c : Option Nat} (h : KeepsHeads none s t) : KeepsHeads c s t :=
  ⟨h.sb, fun d _ => h.head d (by simp)⟩

/-- A directory keeps its heads across a step that keeps its first slots. -/
theorem Heads.keep {d p : Nat} (h : s.Heads d p) (hk : KeepsHead s t d) (ht : (t.dinode d).type = T_DIR) :
    t.Heads d p := by
  obtain ⟨-, hsize, hbytes⟩ := hk ht
  exact ⟨h.self, h.parent, h.size.trans hsize, (slot_congr_head hbytes (by omega)).trans h.dot,
    (slot_congr_head hbytes (by omega)).trans h.dotdot⟩

theorem Laid.keep {c : Option Nat} (hL : s.Laid) (h : KeepsHeads c s t) {d : Nat} (hd : c ≠ some d)
    (ht : (t.dinode d).type = T_DIR) : ∃ p, t.Heads d p := by
  have hk := h.head d hd
  obtain ⟨p, hp⟩ := hL.dirs d (hk ht).1
  exact ⟨p, hp.keep hk ht⟩

theorem Laid.of_keepsHeads (hL : s.Laid) (h : KeepsHeads none s t) : t.Laid :=
  ⟨h.sb ▸ hL.ninodes, fun _ ht => hL.keep h (by simp) ht⟩

/-- A step that writes nothing to disk but the type `0` of inodes it frees. -/
structure FreesOnly (s t : Fs) : Prop where
  sb : t.sb = s.sb
  data : t.data = s.data
  dinode : ∀ i, t.dinode i = s.dinode i ∨ (t.dinode i).type = 0

instance : IsPreorder Fs FreesOnly where
  refl _ := ⟨rfl, rfl, fun _ => .inl rfl⟩
  trans _ _ _ h₁ h₂ := ⟨h₂.sb.trans h₁.sb, h₂.data.trans h₁.data, fun i => by
    rcases h₂.dinode i with h | h
    · rw [h]
      exact h₁.dinode i
    · exact .inr h⟩

theorem FreesOnly.keepsHeads {c : Option Nat} (h : FreesOnly s t) : KeepsHeads c s t := by
  refine ⟨h.sb, fun d _ ht => ?_⟩
  rcases h.dinode d with hd | hd
  · rw [← hd, h.data]
    exact ⟨ht, le_rfl, fun _ _ => rfl⟩
  · rw [ht] at hd
    exact absurd hd (by decide)

theorem FreesOnly.of_blockStep (h : BlockStep s t) : FreesOnly s t := by
  obtain ⟨-, -, -, rfl⟩ := h
  exact ⟨rfl, rfl, fun _ => .inl rfl⟩

theorem FreesOnly.modifyInode (s : Fs) (ip : Fin NINODE) (f : Inode → Inode) :
    FreesOnly s (s.modifyInode ip f) :=
  ⟨rfl, rfl, fun _ => .inl rfl⟩

theorem FreesOnly.of_disk (hsb : t.sb = s.sb) (hdata : t.data = s.data) (hdinode : t.dinode = s.dinode) :
    FreesOnly s t :=
  ⟨hsb, hdata, fun i => .inl (congrFun hdinode i)⟩

/-- `iput`'s freeing of an entry, from the block map its `itrunc` left. -/
theorem FreesOnly.free {s₁ : Fs} {ip : Fin NINODE} (hb : BlockStep s s₁) : FreesOnly s (s₁.free ip) := by
  obtain ⟨-, hdinode, hdata, -⟩ := hb.fields
  refine ⟨hb.fields.1, hdata, fun i => ?_⟩
  by_cases hi : i = (s₁.inode ip).inum
  · subst hi
    right
    simp [Fs.free, Fs.truncate]
  · left
    simp [Fs.free, Fs.truncate, Function.update_of_ne hi, hdinode]

/-! ### The functions that write nothing -/

theorem iget_frees (inum : Nat) : Guarantees FreesOnly (iget inum) := by
  intro s ip t h
  rcases iget_spec h with ⟨-, -, rfl⟩ | ⟨-, -, rfl⟩ <;> exact FreesOnly.modifyInode _ _ _

theorem idup_frees (ip : Fin NINODE) : Guarantees FreesOnly (idup ip) := by
  intro s ip' t h
  rw [idup_run, Except.ok.injEq, Prod.mk.injEq] at h
  rw [← h.2]
  exact FreesOnly.modifyInode _ _ _

theorem ilock_frees (ip : Fin NINODE) : Guarantees FreesOnly (ilock ip) := by
  intro s u t h
  obtain ⟨-, ⟨-, rfl⟩ | ⟨-, -, rfl⟩⟩ := ilock_spec h
  · exact refl_of FreesOnly _
  · exact FreesOnly.modifyInode _ _ _

theorem iunlock_frees (ip : Fin NINODE) : Guarantees FreesOnly (iunlock ip) := by
  intro s u t h
  rw [(iunlock_spec h).2]
  exact refl_of FreesOnly s

theorem iput_frees (ip : Fin NINODE) : Guarantees FreesOnly (iput ip) := by
  intro s u t h
  rcases iput_spec h with ⟨-, rfl⟩ | ⟨-, -, -, s₁, hb, rfl⟩
  · exact FreesOnly.modifyInode _ _ _
  · exact FreesOnly.free hb

theorem iunlockput_frees (ip : Fin NINODE) : Guarantees FreesOnly (iunlockput ip) :=
  fun s u t h => iput_frees ip s u t (iunlockput_spec h).2

theorem dirlookup_frees (dp : Fin NINODE) (name : List UInt8) : Guarantees FreesOnly (dirlookup dp name) := by
  intro s r t h
  obtain ⟨-, s₁, hb, ⟨-, rfl, -⟩ | ⟨k, ip, -, -, -, -, hget⟩⟩ := dirlookup_spec h
  · exact FreesOnly.of_blockStep hb
  · exact trans_of FreesOnly (FreesOnly.of_blockStep hb) (iget_frees _ s₁ ip t hget)

/-- The loop of `namex` looks up, locks and puts; it writes nothing.  The
induction is on the fuel, one path element a round. -/
theorem namexLoop_frees (nameiparent : Bool) :
    ∀ (fuel : Nat) (ip : Fin NINODE) (path name : List UInt8),
      Guarantees FreesOnly (namexLoop nameiparent fuel ip path name) := by
  -- where the loop stops it puts its reference or returns it
  have hstop : ∀ fuel ip path name,
      (∀ fuel' elem rest, fuel = fuel' + 1 → skipelem path = some (elem, rest) → False) →
      Guarantees FreesOnly (namexLoop nameiparent fuel ip path name) := fun fuel ip path name h => by
    rw [namexLoop.eq_2 _ _ _ _ _ h]
    exact Guarantees.ite ((iput_frees ip).bind fun _ => Guarantees.pure _) (Guarantees.pure _)
  intro fuel
  induction fuel with
  | zero => exact fun ip path name => hstop 0 ip path name fun _ _ _ h _ => Nat.noConfusion h
  | succ fuel ih =>
      intro ip path name
      cases hsk : skipelem path with
      | none => exact hstop _ ip path name fun _ _ _ _ h => by rw [hsk] at h; cases h
      | some p =>
          obtain ⟨elem, rest⟩ := p
          rw [namexLoop.eq_1 _ _ _ _ _ _ _ hsk]
          refine (ilock_frees ip).bind fun _ => Guarantees.get.bind fun _ =>
            Guarantees.ite ((iunlockput_frees ip).bind fun _ => Guarantees.pure _)
              (Guarantees.ite ((iunlock_frees ip).bind fun _ => Guarantees.pure _)
                ((dirlookup_frees ip elem).bind fun r => ?_))
          rcases r with _ | ⟨next, off⟩
          · exact (iunlockput_frees ip).bind fun _ => Guarantees.pure _
          · exact (iunlockput_frees ip).bind fun _ => ih next rest elem

theorem namex_frees (cwd : Fin NINODE) (path : List UInt8) (nameiparent : Bool) :
    Guarantees FreesOnly (namex cwd path nameiparent) := by
  unfold namex
  dsimp only
  exact Guarantees.ite ((iget_frees ROOTINO).bind fun ip => namexLoop_frees nameiparent _ ip path [])
    ((idup_frees cwd).bind fun ip => namexLoop_frees nameiparent _ ip path [])

theorem namei_frees (cwd : Fin NINODE) (path : List UInt8) : Guarantees FreesOnly (namei cwd path) := by
  unfold namei
  refine (namex_frees cwd path false).bind fun r => ?_
  rcases r with _ | ⟨ip, name⟩ <;> exact Guarantees.pure _

theorem nameiparent_frees (cwd : Fin NINODE) (path : List UInt8) :
    Guarantees FreesOnly (nameiparent cwd path) :=
  namex_frees cwd path true

theorem FreesOnly.modifyFile (s : Fs) (f : Fin NFILE) (g : File → File) : FreesOnly s (s.modifyFile f g) :=
  FreesOnly.of_disk rfl rfl rfl

theorem FreesOnly.setCwd (s : Fs) (c : Fin NPROC → Option (Fin NINODE)) : FreesOnly s { s with cwd := c } :=
  FreesOnly.of_disk rfl rfl rfl

theorem FreesOnly.setOfile (s : Fs) (o : Fin NPROC → Fin NOFILE → Option (Fin NFILE)) :
    FreesOnly s { s with ofile := o } :=
  FreesOnly.of_disk rfl rfl rfl

/-! ### The file table and the calls that write nothing -/

theorem filedup_frees (f : Fin NFILE) : Guarantees FreesOnly (filedup f) := by
  unfold filedup
  refine Guarantees.get.bind fun _ => ?_
  dsimp only
  exact Guarantees.ite (Guarantees.throw_bind _ _)
    ((Guarantees.modify fun s => FreesOnly.modifyFile s _ _).bind fun _ => Guarantees.pure _)

theorem filealloc_frees : Guarantees FreesOnly filealloc := by
  intro s r t h
  unfold filealloc at h
  simp only [get_bind_run] at h
  cases hf : (List.finRange NFILE).find? (fun f => (s.file f).ref = 0) with
  | none =>
      simp only [hf] at h
      rw [(pure_ok h).2]
      exact refl_of FreesOnly _
  | some f =>
      simp only [hf, set_bind_run] at h
      rw [(pure_ok h).2]
      exact FreesOnly.modifyFile _ _ _

theorem fdalloc_frees (p : Fin NPROC) (f : Fin NFILE) : Guarantees FreesOnly (fdalloc p f) := by
  intro s r t h
  unfold fdalloc at h
  simp only [get_bind_run] at h
  cases hfd : (List.finRange NOFILE).find? (fun fd => s.ofile p fd = none) with
  | none =>
      simp only [hfd] at h
      rw [(pure_ok h).2]
      exact refl_of FreesOnly _
  | some fd =>
      simp only [hfd, set_bind_run] at h
      rw [(pure_ok h).2]
      exact FreesOnly.setOfile _ _

theorem fileclose_frees (f : Fin NFILE) : Guarantees FreesOnly (fileclose f) := by
  unfold fileclose
  refine Guarantees.get.bind fun st => ?_
  dsimp only
  -- both branches end in the join point: drop a reference, put the inode on the last
  refine Guarantees.ite (Guarantees.throw_bind _ _) ?_
  refine (Guarantees.modify fun s => FreesOnly.modifyFile s _ _).bind fun _ => Guarantees.ite (Guarantees.pure _)
    ((Guarantees.modify fun s => FreesOnly.modifyFile s _ _).bind fun _ => ?_)
  cases (st.file f).type <;> cases (st.file f).ip <;> first | exact iput_frees _ | exact Guarantees.pure _

theorem sys_close_frees (p : Fin NPROC) (fd : Int32) : Guarantees FreesOnly (sys_close p fd) := by
  unfold sys_close
  refine Guarantees.dite (fun _ => Guarantees.get.bind fun st => ?_) (fun _ => Guarantees.pure _)
  cases st.ofile p _ with
  | none => exact Guarantees.pure _
  | some f => exact (Guarantees.modify fun s => FreesOnly.setOfile s _).bind fun _ =>
      (fileclose_frees f).bind fun _ => Guarantees.pure _

theorem sys_chdir_frees (p : Fin NPROC) (cwd : Fin NINODE) (path : List UInt8) :
    Guarantees FreesOnly (sys_chdir p cwd path) := by
  unfold sys_chdir
  refine Guarantees.ite (Guarantees.pure _) ((namei_frees cwd path).bind fun r => ?_)
  rcases r with _ | ip
  · exact Guarantees.pure _
  · exact (ilock_frees ip).bind fun _ => Guarantees.get.bind fun _ => Guarantees.ite
      ((iunlockput_frees ip).bind fun _ => Guarantees.pure _)
      ((iunlock_frees ip).bind fun _ => (iput_frees cwd).bind fun _ =>
        (Guarantees.modify fun s => FreesOnly.setCwd s _).bind fun _ => Guarantees.pure _)

theorem sys_exec_frees (cwd : Fin NINODE) (path : List UInt8) (argv : Option Nat) (mem : ExecMem) :
    Guarantees FreesOnly (sys_exec cwd path argv mem) := by
  intro s r t h
  rcases sys_exec_spec h with rfl | ⟨argc, h⟩
  · exact refl_of FreesOnly _
  rcases exec_spec h with h₁ | ⟨ip, s₁, s₂, s₃, h₁, h₂, hb₃, h₄⟩
  · exact namei_frees cwd path s _ t h₁
  -- `namei`, `ilock`, the reads and `iunlockput`, one after the other
  calc FreesOnly s s₁ := namei_frees cwd path s _ s₁ h₁
    FreesOnly _ s₂ := ilock_frees ip s₁ _ s₂ h₂
    FreesOnly _ s₃ := FreesOnly.of_blockStep hb₃
    FreesOnly _ t := iunlockput_frees ip s₃ _ t h₄

theorem fork_files_frees (p c : Fin NPROC) (cwd : Fin NINODE) : Guarantees FreesOnly (fork_files p c cwd) := by
  unfold fork_files
  refine (Guarantees.forM (R := FreesOnly) fun i _ => Guarantees.get.bind fun st => ?_).bind fun _ =>
    (idup_frees cwd).bind fun _ => Guarantees.modify fun s => FreesOnly.setCwd s _
  cases st.ofile p i with
  | none => exact Guarantees.pure _
  | some f => exact (filedup_frees f).bind fun _ => Guarantees.modify fun s => FreesOnly.setOfile s _

theorem exit_files_frees (p : Fin NPROC) (cwd : Fin NINODE) : Guarantees FreesOnly (exit_files p cwd) := by
  unfold exit_files
  dsimp only
  refine Guarantees.ite (Guarantees.throw_bind _ _) ?_
  refine (Guarantees.forM (R := FreesOnly) fun fd _ => Guarantees.get.bind fun st => ?_).bind fun _ =>
    (iput_frees cwd).bind fun _ => Guarantees.modify fun s => FreesOnly.setCwd s _
  cases st.ofile p fd with
  | none => exact Guarantees.pure _
  | some f => exact (fileclose_frees f).bind fun _ => Guarantees.modify fun s => FreesOnly.setOfile s _

/-! ### The functions that write -/

/-- `iupdate` of an entry that, when it describes a directory, agrees with
the disk on the type and is no smaller. -/
theorem KeepsHeads.writeBack {c : Option Nat} (s : Fs) (ip : Fin NINODE)
    (h : (s.inode ip).d.type = T_DIR →
      (s.dinode (s.inode ip).inum).type = T_DIR ∧ (s.dinode (s.inode ip).inum).size ≤ (s.inode ip).d.size) :
    KeepsHeads c s (s.writeBack ip) := by
  refine ⟨rfl, fun d _ ht => ?_⟩
  rw [writeBack_dinode] at ht ⊢
  by_cases hd : d = (s.inode ip).inum
  · subst hd
    rw [Function.update_self] at ht ⊢
    exact ⟨(h ht).1, (h ht).2, fun _ _ => rfl⟩
  · rw [Function.update_of_ne hd] at ht ⊢
    exact ⟨ht, le_rfl, fun _ _ => rfl⟩

/-- Bytes written into a directory past its first two slots, or none. -/
theorem KeepsHead.writeBytes {inum off len d so : Nat} {src : List UInt8}
    (h : d = inum → (s.dinode d).type = T_DIR → 2 * DIRENT_SIZE ≤ off ∨ len = 0) :
    KeepsHead s (s.writeBytes inum off len src so) d := fun ht => by
  refine ⟨ht, le_rfl, fun i hi => ?_⟩
  unfold Fs.writeBytes
  by_cases hd : d = inum
  · subst hd
    dsimp only
    rw [Function.update_self, if_neg]
    rcases h rfl ht with h | h <;> omega
  · exact congrFun (Function.update_of_ne hd _ _) i

/-- `writei` of a live entry keeps the heads of every inode but `c`, when
what it writes into a directory other than `c` lies past the first two
slots. -/
theorem writei_keeps {c : Option Nat} {ip : Fin NINODE} {src : List UInt8} {off n : Nat} {r : Int}
    (hI : s.Inv ex D) (hl : s.Live ip)
    (hoff : c ≠ some (s.inode ip).inum → (s.inode ip).d.type = T_DIR → r ≠ 0 → 2 * DIRENT_SIZE ≤ off)
    (h : writei ip src off n s = .ok (r, t)) : KeepsHeads c s t := by
  rcases writei_spec h with ⟨-, rfl⟩ | ⟨-, -, tot, s₁, rfl, -, -, hb, rfl⟩
  · exact refl_of _ _
  obtain ⟨-, hdin, -, -, -, -⟩ := hb.fields
  obtain ⟨hinum, -, -, htype, -, hsize⟩ := hb.entry ip
  obtain ⟨hct, hcs, -⟩ := hI.coherent ip hl
  -- the block map, the bytes, the size, then the entry written back
  have h₁ : KeepsHeads c s s₁ := (FreesOnly.of_blockStep hb).keepsHeads
  have h₂ : KeepsHeads c s₁ (s₁.writeBytes (s.inode ip).inum off tot src 0) := by
    refine ⟨rfl, fun d hd => KeepsHead.writeBytes fun hdi ht => ?_⟩
    subst hdi
    rw [hdin, hct] at ht
    by_cases h0 : (tot : Int) = 0
    · exact .inr (by exact_mod_cast h0)
    · exact .inl (hoff hd ht h0)
  have h₃ := (FreesOnly.modifyInode (s₁.writeBytes (s.inode ip).inum off tot src 0) ip
    fun e => { e with d := { e.d with size := max e.d.size (off + tot) } }).keepsHeads (c := c)
  refine trans_of (KeepsHeads c) h₁ (trans_of (KeepsHeads c) h₂ (trans_of (KeepsHeads c) h₃
    (KeepsHeads.writeBack _ ip fun ht => ?_)))
  simp only [modifyInode_inode, if_true, modifyInode_dinode] at ht ⊢
  change (s₁.inode ip).d.type = T_DIR at ht
  change (s₁.dinode (s₁.inode ip).inum).type = T_DIR ∧
    (s₁.dinode (s₁.inode ip).inum).size ≤ max (s₁.inode ip).d.size (off + tot)
  rw [hdin, hinum, hsize]
  rw [htype, ← hct] at ht
  exact ⟨ht, hcs.le.trans (le_max_left _ _)⟩

/-- `itrunc` of an entry that does not describe a directory. -/
theorem itrunc_keeps {c : Option Nat} {ip : Fin NINODE} {u : Unit} (htype : (s.inode ip).d.type ≠ T_DIR)
    (h : itrunc ip s = .ok (u, t)) : KeepsHeads c s t := by
  obtain ⟨s₁, hb, rfl⟩ := itrunc_spec h
  have htype₁ : (s₁.inode ip).d.type ≠ T_DIR := by
    rw [(hb.entry ip).2.2.2.1]
    exact htype
  refine trans_of (KeepsHeads c) (FreesOnly.of_blockStep hb).keepsHeads
    (trans_of (KeepsHeads c) (FreesOnly.modifyInode s₁ ip _).keepsHeads (KeepsHeads.writeBack _ ip fun ht => ?_))
  simp only [modifyInode_inode, if_true] at ht
  exact absurd ht htype₁

/-- A new type on disk for inode `inum` keeps every other head. -/
theorem KeepsHeads.setType (s : Fs) (inum : Nat) (x : DInode) :
    KeepsHeads (some inum) s { s with dinode := Function.update s.dinode inum x } := by
  refine ⟨rfl, fun d hd => ?_⟩
  have hd' : d ≠ inum := fun h => hd (h ▸ rfl)
  show (Function.update s.dinode inum x d).type = T_DIR → (s.dinode d).type = T_DIR ∧
    (s.dinode d).size ≤ (Function.update s.dinode inum x d).size ∧ ∀ i < 2 * DIRENT_SIZE, s.data d i = s.data d i
  rw [Function.update_of_ne hd']
  exact KeepsHead.refl s d

/-- `ialloc` of anything but a directory. -/
theorem ialloc_keeps {c : Option Nat} {type : Int16} (htype : type ≠ T_DIR) :
    Guarantees (KeepsHeads c) (ialloc type) := by
  intro s r t h
  rcases ialloc_spec h with ⟨-, rfl⟩ | ⟨inum, ip, -, -, -, -, hget⟩
  · exact refl_of _ _
  refine trans_of (KeepsHeads c) ?_ (iget_frees inum _ ip t hget).keepsHeads
  refine ⟨rfl, fun d hd ht => ?_⟩
  by_cases hdi : d = inum
  · subst hdi
    simp only [Function.update_self] at ht
    exact absurd ht htype
  · exact (KeepsHeads.setType s inum _).head d (fun h => hdi (Option.some.inj h).symm) ht

/-- `dirlink` into a live entry keeps the heads of every inode but `c`,
when the directory it writes, if not `c`, has its first two slots in use. -/
theorem dirlink_keeps {c : Option Nat} {dp : Fin NINODE} {name : List UInt8} {inum : Nat} {r : Int}
    (hI : s.Inv ex D) (hl : s.Live dp)
    (hused : c ≠ some (s.inode dp).inum →
      2 * DIRENT_SIZE ≤ (s.inode dp).d.size ∧ ∀ k < 2, (s.slot (s.inode dp).inum k).inum ≠ 0)
    (h : dirlink dp name inum s = .ok (r, t)) : KeepsHeads c s t := by
  obtain ⟨-, s₁, hb, ⟨k, ip, s₂, -, -, -, hget, hput⟩ | ⟨-, k, w, -, hfree, hw, -⟩⟩ := dirlink_spec h
  · -- the name is present: a reference taken and given back
    exact (trans_of FreesOnly (FreesOnly.of_blockStep hb)
      (trans_of FreesOnly (iget_frees _ _ _ _ hget) (iput_frees _ _ _ _ hput))).keepsHeads
  · have hagree := Agree.of_blockStep hb
    obtain ⟨hinum, -, -, -, -, hsize⟩ := hb.entry dp
    refine trans_of (KeepsHeads c) (FreesOnly.of_blockStep hb).keepsHeads
      (writei_keeps (hI.agree hagree) ((hagree.live dp).mpr hl) (fun hc _ _ => ?_) hw)
    rw [hinum] at hc
    obtain ⟨hsz, hu⟩ := hused hc
    -- the slot written is past "." and ".."
    have hsz16 : DIRENT_SIZE = 16 := rfl
    have hk : 2 ≤ k := by
      by_contra hlt
      exact hu k (by omega) (hfree (by rw [hsz16] at hsz ⊢; omega))
    rw [hsz16]
    omega

/-! ## Held entries name allocated inodes -/

/-- Every entry of the inode table that a current directory or an open
file holds is an allocated inode. -/
def HeldAlloc (s : Fs) : Prop :=
  ∀ y, 0 < s.holders y → (s.dinode (s.inode y).inum).type ≠ 0

/-- An entry is referenced at least as often as it is held: the references
of the running call are not negative. -/
theorem Inv.covered (hI : s.Inv ex D) (hex : ∀ y, 0 ≤ ex y) (y : Fin NINODE) : s.holders y ≤ (s.inode y).ref := by
  have := hI.held y
  have := hex y
  omega

/-- An entry the call references is referenced more often than it is held. -/
theorem Inv.held_lt {ip : Fin NINODE} (hI : s.Inv (ex + Pi.single ip 1) D) (hex : 0 ≤ ex ip) :
    s.holders ip < (s.inode ip).ref := by
  have := hI.held ip
  simp only [Pi.add_apply, Pi.single_eq_same] at this
  omega

theorem single_nonneg (ip y : Fin NINODE) : 0 ≤ (Pi.single ip 1 : Fin NINODE → Int) y := by
  rw [Pi.single_apply]
  split <;> omega

theorem add_single_nonneg (hex : ∀ y, 0 ≤ ex y) (ip : Fin NINODE) :
    ∀ y, 0 ≤ (ex + Pi.single ip 1 : Fin NINODE → Int) y :=
  fun y => add_nonneg (hex y) (single_nonneg ip y)

/-- The holders, each entry's inode and every allocated inode stay. -/
theorem HeldAlloc.of_same (hA : s.HeldAlloc) (hh : t.holders = s.holders)
    (hinum : ∀ y, (t.inode y).inum = (s.inode y).inum)
    (hd : ∀ i, (s.dinode i).type ≠ 0 → (t.dinode i).type ≠ 0) : t.HeldAlloc := fun y hy => by
  rw [hinum]
  exact hd _ (hA y (hh ▸ hy))

theorem HeldAlloc.agree (hA : s.HeldAlloc) (h : Agree s t) : t.HeldAlloc :=
  hA.of_same h.holders h.inum fun i hi => by rwa [h.type]

theorem HeldAlloc.modifyInode (hA : s.HeldAlloc) (ip : Fin NINODE) (f : Inode → Inode)
    (hf : (f (s.inode ip)).inum = (s.inode ip).inum) : (s.modifyInode ip f).HeldAlloc :=
  hA.of_same rfl (fun y => by rw [modifyInode_inode]; split <;> simp_all) fun _ h => h

/-- Giving an inode a type, as `ialloc` does. -/
theorem HeldAlloc.setType (hA : s.HeldAlloc) {inum : Nat} {x : DInode} (htype : x.type ≠ 0) :
    ({ s with dinode := Function.update s.dinode inum x } : Fs).HeldAlloc :=
  hA.of_same rfl (fun _ => rfl) fun i hi => by
    show (Function.update s.dinode inum x i).type ≠ 0
    by_cases h : i = inum
    · subst h
      rw [Function.update_self]
      exact htype
    · rw [Function.update_of_ne h]
      exact hi

/-- Writing back an entry that has a type. -/
theorem HeldAlloc.writeBack (hA : s.HeldAlloc) {ip : Fin NINODE} (htype : (s.inode ip).d.type ≠ 0) :
    (s.writeBack ip).HeldAlloc :=
  hA.of_same rfl (fun _ => rfl) fun i hi => by
    rw [writeBack_dinode]
    by_cases h : i = (s.inode ip).inum
    · subst h
      rw [Function.update_self]
      exact htype
    · rw [Function.update_of_ne h]
      exact hi

/-- A new holder of an allocated inode. -/
theorem HeldAlloc.setCwd (hA : s.HeldAlloc) (p : Fin NPROC) (v : Option (Fin NINODE))
    (hv : ∀ ip, v = some ip → (s.dinode (s.inode ip).inum).type ≠ 0) :
    ({ s with cwd := Function.update s.cwd p v } : Fs).HeldAlloc := fun y hy => by
  rw [holders_setCwd] at hy
  by_cases hvy : v = some y
  · exact hv y hvy
  · rw [if_neg hvy] at hy
    exact hA y (by split at hy <;> omega)

theorem HeldAlloc.modifyFile (hA : s.HeldAlloc) (f : Fin NFILE) (g : File → File)
    (hg : ∀ y, (g (s.file f)).Holds y → (s.dinode (s.inode y).inum).type ≠ 0) :
    (s.modifyFile f g).HeldAlloc := fun y hy => by
  rw [holders_modifyFile] at hy
  by_cases hgy : (g (s.file f)).Holds y
  · exact hg y hgy
  · rw [if_neg hgy] at hy
    exact hA y (by split at hy <;> omega)

/-- `iget` recycles only an entry no one references, so no one holds. -/
theorem iget_held {inum : Nat} {ip : Fin NINODE} (hA : s.HeldAlloc)
    (hcov : ∀ y, s.holders y ≤ (s.inode y).ref) (h : iget inum s = .ok (ip, t)) : t.HeldAlloc := by
  rcases iget_spec h with ⟨-, -, rfl⟩ | ⟨-, hr, rfl⟩
  · exact hA.modifyInode ip _ rfl
  · intro y hy
    rw [holders_modifyInode] at hy
    have hyi : y ≠ ip := fun he => by
      subst he
      have := hcov y
      omega
    rw [modifyInode_inode, if_neg hyi, modifyInode_dinode]
    exact hA y hy

theorem ilock_held {ip : Fin NINODE} {u : Unit} (hA : s.HeldAlloc) (h : ilock ip s = .ok (u, t)) :
    t.HeldAlloc := by
  obtain ⟨-, ⟨-, rfl⟩ | ⟨-, -, rfl⟩⟩ := ilock_spec h
  · exact hA
  · exact hA.modifyInode ip _ rfl

theorem iput_holders {ip : Fin NINODE} {u : Unit} (h : iput ip s = .ok (u, t)) : t.holders = s.holders := by
  rcases iput_spec h with ⟨-, rfl⟩ | ⟨-, -, -, s₁, hb, rfl⟩
  · exact holders_modifyInode s ip _
  · obtain ⟨-, -, -, hfile, hcwd, -⟩ := hb.fields
    funext y
    simp only [Fs.free, Fs.truncate, holders_modifyInode, holders_writeBack]
    unfold holders
    rw [hfile, hcwd]

/-- `iput` frees an entry only when its one reference is the call's own:
an entry held after it is one held before, or by two holders before. -/
theorem iput_held {ip : Fin NINODE} {u : Unit} (hu : s.CacheUnique) (hcov : ∀ y, s.holders y ≤ (s.inode y).ref)
    (hA : s.HeldAlloc) (h : iput ip s = .ok (u, t)) :
    ∀ y, 0 < t.holders y → (y = ip → s.holders ip < (s.inode ip).ref ∨ 2 ≤ s.holders ip) →
      (t.dinode (t.inode y).inum).type ≠ 0 := by
  rcases iput_spec h with ⟨-, rfl⟩ | ⟨hr, -, -, s₁, hb, rfl⟩
  · exact fun y hy _ => hA.modifyInode ip _ rfl y hy
  intro y hy hyi
  obtain ⟨-, hdin, -, -, -, -⟩ := hb.fields
  obtain ⟨hinum₁, -⟩ := hb.entry ip
  rw [iput_holders h] at hy
  -- the freed entry had one reference, the call's
  have hne : y ≠ ip := fun he => by
    subst he
    have := hcov y
    rcases hyi rfl with h' | h' <;> omega
  have hinum : (s.inode y).inum ≠ (s.inode ip).inum := fun he =>
    hne (hu y ip (by have := hcov y; omega) (by omega) he)
  have hy₁ : (s₁.inode y).inum = (s.inode y).inum := (hb.entry y).1
  simp only [Fs.free, Fs.truncate, writeBack_dinode, writeBack_inode, modifyInode_inode, modifyInode_dinode,
    hne, if_false, if_true, hy₁]
  rw [Function.update_of_ne (by simpa [hinum₁] using hinum), Function.update_of_ne (by simpa [hinum₁] using hinum),
    hdin]
  exact hA y hy

/-- `iput` of an entry the call references. -/
theorem iput_release_held {ip : Fin NINODE} {u : Unit} (hI : s.Inv (ex + Pi.single ip 1) D)
    (hex : ∀ y, 0 ≤ ex y) (hA : s.HeldAlloc) (h : iput ip s = .ok (u, t)) : t.HeldAlloc :=
  fun y hy => iput_held hI.unique (hI.covered (add_single_nonneg hex ip)) hA h y hy
    fun _ => .inl (hI.held_lt (hex ip))

theorem iunlockput_release_held {ip : Fin NINODE} {u : Unit} (hI : s.Inv (ex + Pi.single ip 1) D)
    (hex : ∀ y, 0 ≤ ex y) (hA : s.HeldAlloc) (h : iunlockput ip s = .ok (u, t)) : t.HeldAlloc :=
  iput_release_held hI hex hA (iunlockput_spec h).2

/-- `iput` of a process's current directory, which the process then lets
go or replaces by an allocated inode, as `chdir` and `exit` end. -/
theorem iput_setCwd_held {p : Fin NPROC} {ip : Fin NINODE} {u : Unit} {v : Option (Fin NINODE)}
    (hI : s.Inv ex D) (hex : ∀ y, 0 ≤ ex y) (hA : s.HeldAlloc) (hcwd : s.cwd p = some ip)
    (h : iput ip s = .ok (u, t))
    (hv : ∀ y, v = some y → (t.dinode (t.inode y).inum).type ≠ 0) :
    ({ t with cwd := Function.update t.cwd p v } : Fs).HeldAlloc := by
  intro y hy
  rw [holders_setCwd, iput_cwd h, hcwd, iput_holders h] at hy
  by_cases hvy : v = some y
  · exact hv y hvy
  rw [if_neg hvy] at hy
  refine iput_held hI.unique (hI.covered hex) hA h y (by rw [iput_holders h]; split at hy <;> omega)
    fun he => .inr ?_
  -- the process was one of at least two holders of its directory
  subst he
  simp only [if_true] at hy
  omega

theorem dirlookup_held {dp : Fin NINODE} {name : List UInt8} {r : Option (Fin NINODE × Nat)}
    (hI : s.Inv ex D) (hex : ∀ y, 0 ≤ ex y) (hA : s.HeldAlloc) (h : dirlookup dp name s = .ok (r, t)) :
    t.HeldAlloc := by
  obtain ⟨-, s₁, hb, hlook⟩ := dirlookup_spec h
  have hagree := Agree.of_blockStep hb
  rcases hlook with ⟨-, rfl, -⟩ | ⟨k, ip, -, -, -, -, hget⟩
  · exact hA.agree hagree
  · exact iget_held (hA.agree hagree) ((hI.agree hagree).covered hex) hget

/-- `writei` of a live entry writes back a type the entry has. -/
theorem writei_held {ip : Fin NINODE} {src : List UInt8} {off n : Nat} {r : Int}
    (hI : s.Inv ex D) (hl : s.Live ip) (hA : s.HeldAlloc) (h : writei ip src off n s = .ok (r, t)) :
    t.HeldAlloc := by
  rcases writei_spec h with ⟨-, rfl⟩ | ⟨-, -, tot, s₁, -, -, -, hb, rfl⟩
  · exact hA
  have hA₁ := hA.agree (Agree.of_blockStep hb)
  have hA₂ : (s₁.writeBytes (s.inode ip).inum off tot src 0).HeldAlloc :=
    hA₁.of_same rfl (fun _ => rfl) fun _ h => h
  refine (hA₂.modifyInode ip _ rfl).writeBack ?_
  simp only [modifyInode_inode, if_true]
  change (s₁.inode ip).d.type ≠ 0
  rw [(hb.entry ip).2.2.2.1]
  exact (hI.coherent ip hl).2.2

theorem dirlink_held {dp : Fin NINODE} {name : List UInt8} {inum : Nat} {r : Int}
    (hI : s.Inv ex D) (hex : ∀ y, 0 ≤ ex y) (hl : s.Live dp) (hA : s.HeldAlloc)
    (h : dirlink dp name inum s = .ok (r, t)) : t.HeldAlloc := by
  obtain ⟨-, s₁, hb, ⟨k, ip, s₂, -, -, -, hget, hput⟩ | ⟨-, k, w, -, -, hw, -⟩⟩ := dirlink_spec h
  · -- the name is present: the reference `dirlookup` took is given back
    have hagree := Agree.of_blockStep hb
    have hI₁ := hI.agree hagree
    have hA₂ := iget_held (hA.agree hagree) (hI₁.covered hex) hget
    exact iput_release_held (iget_inv hI₁ hget).1 hex hA₂ hput
  · have hagree := Agree.of_blockStep hb
    exact writei_held (hI.agree hagree) ((hagree.live dp).mpr hl) (hA.agree hagree) hw

/-- The loop of `namex` gives back every reference it takes but the one on
what it returns.  The induction is on the fuel, as in `namexLoop_inv`. -/
theorem namexLoop_held {nameiparent : Bool} {fuel : Nat} :
    ∀ {ip : Fin NINODE} {path name : List UInt8} {r : Option (Fin NINODE × List UInt8)} {s t : Fs}
      {ex : Fin NINODE → Int}, s.Inv (ex + Pi.single ip 1) D → (∀ y, 0 ≤ ex y) → s.HeldAlloc →
      namexLoop nameiparent fuel ip path name s = .ok (r, t) → t.HeldAlloc := by
  -- where the loop stops it puts its reference or returns it
  have hstop : ∀ {fuel ip path name r} {s t : Fs} {ex : Fin NINODE → Int},
      (∀ fuel' elem rest, fuel = fuel' + 1 → skipelem path = some (elem, rest) → False) →
      s.Inv (ex + Pi.single ip 1) D → (∀ y, 0 ≤ ex y) → s.HeldAlloc →
      namexLoop nameiparent fuel ip path name s = .ok (r, t) → t.HeldAlloc := by
    intro fuel ip path name r s t ex hs hI hex hA h
    rw [namexLoop.eq_2 _ _ _ _ _ hs] at h
    simp only [ite_run] at h
    split at h
    · obtain ⟨_, s₁, h₁, h⟩ := bind_ok.mp h
      obtain ⟨-, rfl⟩ := pure_ok h
      exact iput_release_held hI hex hA h₁
    · obtain ⟨-, rfl⟩ := pure_ok h
      exact hA
  induction fuel with
  | zero => exact fun hI hex hA h => hstop (fun _ _ _ h _ => Nat.noConfusion h) hI hex hA h
  | succ fuel ih =>
      intro ip path name r s t ex hI hex hA h
      have hex₁ := add_single_nonneg hex ip
      cases hsk : skipelem path with
      | none => exact hstop (fun _ _ _ _ h' => by rw [hsk] at h'; cases h') hI hex hA h
      | some p =>
          obtain ⟨elem, rest⟩ := p
          rw [namexLoop.eq_1 _ _ _ _ _ _ _ hsk] at h
          obtain ⟨_, s₁, h₁, h⟩ := bind_ok.mp h
          have hI₁ := (ilock_inv hI h₁).1
          have hA₁ := ilock_held hA h₁
          simp only [get_bind_run, ite_run] at h
          split at h
          · -- not a directory: give up
            obtain ⟨_, s₂, h₂, h⟩ := bind_ok.mp h
            obtain ⟨-, rfl⟩ := pure_ok h
            exact iunlockput_release_held hI₁ hex hA₁ h₂
          split at h
          · -- the parent, one level early
            obtain ⟨_, s₂, h₂, hret⟩ := bind_ok.mp h
            obtain ⟨-, rfl⟩ := iunlock_spec h₂
            obtain ⟨-, rfl⟩ := pure_ok hret
            exact hA₁
          -- one element down: the reference moves from `ip` to the entry found
          obtain ⟨res, s₂, h₂, h⟩ := bind_ok.mp h
          obtain ⟨-, hnone, hsome⟩ := dirlookup_inv hI₁ h₂
          have hA₂ := dirlookup_held hI₁ hex₁ hA₁ h₂
          rcases res with _ | ⟨next, off⟩
          · obtain ⟨_, s₃, h₃, h⟩ := bind_ok.mp h
            obtain ⟨-, rfl⟩ := pure_ok h
            exact iunlockput_release_held (hnone rfl) hex hA₂ h₃
          · obtain ⟨_, s₃, h₃, h⟩ := bind_ok.mp h
            have hI₂ : s₂.Inv (ex + Pi.single next 1 + Pi.single ip 1) D := by
              rw [add_right_comm]
              exact hsome next off rfl
            have hA₃ := iunlockput_release_held hI₂ (add_single_nonneg hex next) hA₂ h₃
            have hI₃ := (iunlockput_inv (hsome next off rfl) h₃).1
            rw [add_sub_right_comm, add_sub_cancel_right] at hI₃
            exact ih hI₃ hex hA₃ h

theorem namex_held {cwd : Fin NINODE} {path : List UInt8} {nameiparent : Bool}
    {r : Option (Fin NINODE × List UInt8)} (hI : s.Inv ex D) (hex : ∀ y, 0 ≤ ex y) (hA : s.HeldAlloc)
    (hcwd : path.headD NUL ≠ SLASH → 0 < (s.inode cwd).ref) (h : namex cwd path nameiparent s = .ok (r, t)) :
    t.HeldAlloc := by
  unfold namex at h
  simp only [ite_run] at h
  split at h
  · obtain ⟨ip, s₁, h₁, h⟩ := bind_ok.mp h
    exact namexLoop_held (iget_inv hI h₁).1 hex (iget_held hA (hI.covered hex) h₁) h
  · rename_i hrel
    obtain ⟨ip, s₁, h₁, h⟩ := bind_ok.mp h
    rw [idup_run, Except.ok.injEq, Prod.mk.injEq] at h₁
    obtain ⟨rfl, rfl⟩ := h₁
    exact namexLoop_held (idup_inv hI (hcwd hrel)) hex (hA.modifyInode _ _ rfl) h

theorem namei_held {cwd : Fin NINODE} {path : List UInt8} {r : Option (Fin NINODE)}
    (hI : s.Inv ex D) (hex : ∀ y, 0 ≤ ex y) (hA : s.HeldAlloc)
    (hcwd : path.headD NUL ≠ SLASH → 0 < (s.inode cwd).ref) (h : namei cwd path s = .ok (r, t)) :
    t.HeldAlloc := by
  unfold namei at h
  obtain ⟨res, s₁, h₁, h⟩ := bind_ok.mp h
  have hA₁ := namex_held hI hex hA hcwd h₁
  rcases res with _ | ⟨ip, name⟩ <;> · obtain ⟨-, rfl⟩ := pure_ok h; exact hA₁

/-- `ialloc` gives an inode a type, and a table entry no one holds. -/
theorem ialloc_held {type : Int16} {r : Option (Fin NINODE)} (hI : s.Inv ex D) (hex : ∀ y, 0 ≤ ex y)
    (hA : s.HeldAlloc) (htype : type ≠ 0) (h : ialloc type s = .ok (r, t)) : t.HeldAlloc := by
  rcases ialloc_spec h with ⟨-, rfl⟩ | ⟨inum, ip, -, -, -, -, hget⟩
  · exact hA
  -- the state `iget` starts from differs from `s` in one inode's type
  exact iget_held (by exact hA.setType htype) (by exact hI.covered hex) hget

theorem itrunc_held {ip : Fin NINODE} {u : Unit} (hI : s.Inv ex D) (hl : s.Live ip) (hA : s.HeldAlloc)
    (h : itrunc ip s = .ok (u, t)) : t.HeldAlloc := by
  obtain ⟨s₁, hb, rfl⟩ := itrunc_spec h
  refine ((hA.agree (Agree.of_blockStep hb)).modifyInode ip _ rfl).writeBack ?_
  simp only [modifyInode_inode, if_true]
  rw [(hb.entry ip).2.2.2.1]
  exact (hI.coherent ip hl).2.2

/-- A file that holds an entry makes it held. -/
theorem holders_pos_of_holds {f : Fin NFILE} {y : Fin NINODE} (h : (s.file f).Holds y) : 0 < s.holders y := by
  have hcwd : (0 : Int) ≤ ∑ p, if s.cwd p = some y then 1 else 0 :=
    Finset.sum_nonneg fun p _ => by split <;> omega
  have hfile := Finset.single_le_sum
    (fun g _ => (by split <;> omega : (0 : Int) ≤ if (s.file g).Holds y then 1 else 0)) (Finset.mem_univ f)
  simp only [h, if_true] at hfile
  unfold holders
  omega

/-- A process's current directory makes it held. -/
theorem holders_pos_of_cwd {p : Fin NPROC} {y : Fin NINODE} (h : s.cwd p = some y) : 0 < s.holders y := by
  have hcwd := Finset.single_le_sum
    (fun q _ => (by split <;> omega : (0 : Int) ≤ if s.cwd q = some y then 1 else 0)) (Finset.mem_univ p)
  have hfile : (0 : Int) ≤ ∑ f, if (s.file f).Holds y then 1 else 0 :=
    Finset.sum_nonneg fun f _ => by split <;> omega
  simp only [h, if_true] at hcwd
  unfold holders
  omega

theorem filedup_held {f f' : Fin NFILE} (hA : s.HeldAlloc) (h : filedup f s = .ok (f', t)) : t.HeldAlloc := by
  unfold filedup at h
  simp only [get_bind_run, ite_run] at h
  split at h
  · simp at h
  rename_i hr
  simp only [modify_bind_run] at h
  obtain ⟨-, rfl⟩ := pure_ok h
  -- one more reference to a file that holds what it held
  exact hA.modifyFile f _ fun y hy => hA y (holders_pos_of_holds (f := f) ⟨by omega, hy.2⟩)

theorem filealloc_held {r : Option (Fin NFILE)} (hI : s.Inv ex D) (hA : s.HeldAlloc)
    (h : filealloc s = .ok (r, t)) : t.HeldAlloc := by
  unfold filealloc at h
  simp only [get_bind_run] at h
  cases hf : (List.finRange NFILE).find? (fun f => (s.file f).ref = 0) with
  | none =>
      simp only [hf] at h
      obtain ⟨-, rfl⟩ := pure_ok h
      exact hA
  | some f =>
      simp only [hf, set_bind_run] at h
      obtain ⟨-, rfl⟩ := pure_ok h
      -- a free file is closed: it holds no inode once counted
      have href : (s.file f).ref = 0 := by simpa using List.find?_some hf
      have htype := (hI.files f).2 href
      exact hA.modifyFile f _ fun y hy => absurd hy (by simp [File.Holds, htype])

theorem fileclose_held {f : Fin NFILE} {u : Unit} (hI : s.Inv ex D) (hex : ∀ y, 0 ≤ ex y) (hA : s.HeldAlloc)
    (h : fileclose f s = .ok (u, t)) : t.HeldAlloc := by
  unfold fileclose at h
  simp only [get_bind_run, ite_run] at h
  split at h
  · simp at h
  rename_i hr
  split at h
  · -- other references remain: the file holds what it held
    obtain ⟨-, rfl⟩ := pure_ok h
    refine hA.modifyFile f _ fun y hy => hA y (holders_pos_of_holds (f := f) ?_)
    simp only [File.Holds] at hy ⊢
    exact ⟨by omega, hy.2⟩
  -- the last reference: the file is closed and its inode put
  simp only [modify_bind_run, modifyFile_modifyFile] at h
  have hA₁ := hA.modifyFile f File.closed fun y hy => by simp [File.closed, File.Holds] at hy
  have hhol : ∀ y, (s.modifyFile f File.closed).holders y =
      s.holders y - (if (s.file f).Holds y then 1 else 0) := fun y => by
    rw [holders_modifyFile]
    simp [File.closed, File.Holds]
  have hcov := hI.covered hex
  cases ht : (s.file f).type <;> cases hip : (s.file f).ip <;> simp only [ht, hip] at h <;>
  first
    | (obtain ⟨-, rfl⟩ := pure_ok h; exact hA₁)
    | (rename_i ip
       -- the file held `ip`: after it is closed, the entry is referenced beyond its holders
       have hholds : (s.file f).Holds ip := ⟨by omega, by simp [ht], hip⟩
       refine fun y hy => iput_held (by exact hI.unique) (fun y => ?_) hA₁ h y hy fun he => .inl ?_
       · rw [hhol]
         have := hcov y
         split <;> simp only [modifyFile_inode] <;> omega
       · subst he
         rw [hhol, if_pos hholds]
         have := hcov y
         simp only [modifyFile_inode]
         omega)

end Fs

end Xv6
