/-
# `Xv6.Fs.Inode` — blocks, inodes and inode content (`kernel/fs.c`)

The functions of `fs.c` below the directory layer, each under its own
name: block allocation (`balloc`, `bfree`, `bzero`), the inode table
(`ialloc`, `iget`, `idup`, `ilock`, `iunlock`, `iput`, `iupdate`), the
block map of an inode (`bmap`, `itrunc`) and its content (`readi`,
`writei`).  The loops of `readi` and `writei` are recursions on a fuel
argument, started at `n`: every round moves at least one byte.

`readi` and `writei` are modelled for the callers inside the kernel,
which copy to and from kernel memory (`user_dst` and `user_src` are `0`,
and `either_copyout`/`either_copyin` are a `memmove` that cannot fail).

**Proved here.**  What each function changes, as one lemma per function
that later modules use instead of unfolding it.
-/
import Xv6.Fs.State

namespace Xv6

open StateExcept

/-! ## Blocks -/

/-- `bzero(dev, bno)`: every word of the block reads as zero. -/
def bzero (bno : Nat) : FsM Unit :=
  modify fun s => { s with indirect := Function.update s.indirect bno fun _ => 0 }

/-- `balloc(dev)`: the first block below `sb.size` that the bitmap marks
free is marked in use, zeroed and returned; `0` when there is none.  The
two loops of the source visit the blocks `b + bi` in increasing order. -/
def balloc : FsM Nat := do
  let s ← get
  match (List.range s.sb.size).find? (fun b => !s.bitmap b) with
  | some b =>
      set { s with bitmap := Function.update s.bitmap b true }
      bzero b
      return b
  | none => return 0

/-- `bfree(dev, b)`. -/
def bfree (b : Nat) : FsM Unit := do
  let s ← get
  if s.bitmap b = false then throw "freeing free block"
  set { s with bitmap := Function.update s.bitmap b false }

attribute [grind] bzero

/-! ## The inode table -/

/-- `iupdate(ip)`: the table's copy is written to the on-disk inode. -/
def iupdate (ip : Fin NINODE) : FsM Unit :=
  modify fun s => { s with dinode := Function.update s.dinode (s.inode ip).inum (s.inode ip).d }

/-- `iget(dev, inum)`: the entry that already holds `inum`, with one more
reference, or else the first free entry, recycled for `inum` and not yet
read from disk. -/
def iget (inum : Nat) : FsM (Fin NINODE) := do
  let s ← get
  match (List.finRange NINODE).find? (fun ip => 0 < (s.inode ip).ref ∧ (s.inode ip).inum = inum) with
  | some ip =>
      set (s.modifyInode ip fun e => { e with ref := e.ref + 1 })
      return ip
  | none =>
      match (List.finRange NINODE).find? (fun ip => (s.inode ip).ref = 0) with
      | some ip =>
          set (s.modifyInode ip fun e => { e with inum := inum, ref := 1, valid := false })
          return ip
      | none => throw "iget: no inodes"

/-- `ialloc(dev, type)`: the first inode from `1` whose on-disk type is `0`
is cleared and given `type`; its table entry is returned. -/
def ialloc (type : Int16) : FsM (Option (Fin NINODE)) := do
  let s ← get
  match (List.range' 1 (s.sb.ninodes - 1)).find? (fun inum => (s.dinode inum).type = 0) with
  | some inum =>
      set { s with dinode := Function.update s.dinode inum { DInode.zero with type := type } }
      let ip ← iget inum
      return some ip
  | none => return none

/-- `idup(ip)`. -/
def idup (ip : Fin NINODE) : FsM (Fin NINODE) := do
  modify (·.modifyInode ip fun e => { e with ref := e.ref + 1 })
  return ip

/-- `ilock(ip)`: reads the inode from disk if the entry is not valid. -/
def ilock (ip : Fin NINODE) : FsM Unit := do
  let s ← get
  if (s.inode ip).ref < 1 then throw "ilock"
  if (s.inode ip).valid = false then
    let d := s.dinode (s.inode ip).inum
    set (s.modifyInode ip fun e => { e with d := d, valid := true })
    if d.type = 0 then throw "ilock: no type"

/-- `iunlock(ip)`. -/
def iunlock (ip : Fin NINODE) : FsM Unit := do
  if ((← get).inode ip).ref < 1 then throw "iunlock"

/-! ## Inode content -/

/-- `bmap(ip, bn)`: the block holding block `bn` of the inode's content,
allocated if there is none; `0` when the disk is full. -/
def bmap (ip : Fin NINODE) (bn : Nat) : FsM Nat := do
  if h : bn < NDIRECT then
    let addr := ((← get).inode ip).d.addrs ⟨bn, Nat.lt_succ_of_lt h⟩
    if addr ≠ 0 then return addr
    let addr ← balloc
    if addr = 0 then return 0
    modify (·.setAddr ip ⟨bn, Nat.lt_succ_of_lt h⟩ addr)
    return addr
  let bn := bn - NDIRECT
  if bn < NINDIRECT then
    -- load the indirect block, allocating it if necessary
    let mut ind := ((← get).inode ip).d.addrs (Fin.last NDIRECT)
    if ind = 0 then
      ind ← balloc
      if ind = 0 then return 0
      modify (·.setAddr ip (Fin.last NDIRECT) ind)
    let addr := (← get).indirect ind bn
    if addr ≠ 0 then return addr
    let addr ← balloc
    if addr ≠ 0 then
      modify fun s => { s with
        indirect := Function.update s.indirect ind (Function.update (s.indirect ind) bn addr) }
    return addr
  throw "bmap: out of range"

/-- `itrunc(ip)`: every block of the inode is freed, its size set to `0`. -/
def itrunc (ip : Fin NINODE) : FsM Unit := do
  (List.finRange NDIRECT).forM fun i => do
    let a := ((← get).inode ip).d.addrs i.castSucc
    if a ≠ 0 then
      bfree a
      modify (·.setAddr ip i.castSucc 0)
  let ind := ((← get).inode ip).d.addrs (Fin.last NDIRECT)
  if ind ≠ 0 then
    let a := (← get).indirect ind
    (List.range NINDIRECT).forM fun j => do
      if a j ≠ 0 then bfree (a j)
    bfree ind
    modify (·.setAddr ip (Fin.last NDIRECT) 0)
  modify (·.modifyInode ip fun e => { e with d := { e.d with size := 0 } })
  iupdate ip

/-- `iput(ip)`: drop a reference; the last reference to an inode with no
links truncates and frees it. -/
def iput (ip : Fin NINODE) : FsM Unit := do
  let e := (← get).inode ip
  if e.ref = 1 ∧ e.valid = true ∧ e.d.nlink = 0 then
    itrunc ip
    modify (·.modifyInode ip fun e => { e with d := { e.d with type := 0 } })
    iupdate ip
    modify (·.modifyInode ip fun e => { e with valid := false })
  modify (·.modifyInode ip fun e => { e with ref := e.ref - 1 })

/-- `iunlockput(ip)`. -/
def iunlockput (ip : Fin NINODE) : FsM Unit := do
  iunlock ip
  iput ip

/-- The loop of `readi`: `tot` bytes of `n` read so far, the next at `off`. -/
def readiLoop (ip : Fin NINODE) (n : Nat) : (fuel tot off : Nat) → FsM (Nat × List UInt8)
  | 0, tot, _ => return (tot, [])
  | fuel + 1, tot, off => do
      if tot < n then
        let addr ← bmap ip (off / BSIZE)
        if addr = 0 then return (tot, [])
        let m := min (n - tot) (BSIZE - off % BSIZE)
        let s ← get
        let bytes := (List.range m).map fun i => s.data (s.inode ip).inum (off + i)
        let (tot', rest) ← readiLoop ip n fuel (tot + m) (off + m)
        return (tot', bytes ++ rest)
      else return (tot, [])

/-- `readi(ip, 0, dst, off, n)`: the number of bytes read and the bytes. -/
def readi (ip : Fin NINODE) (off n : Nat) : FsM (Nat × List UInt8) := do
  let size := ((← get).inode ip).d.size
  if off > size ∨ (off + n) % 2 ^ 32 < off then return (0, [])
  let n := if off + n > size then size - off else n
  readiLoop ip n n 0 off

/-- The loop of `writei`: `tot` bytes of `src` written so far, the next at
`off`; it returns both at its end. -/
def writeiLoop (ip : Fin NINODE) (src : List UInt8) (n : Nat) :
    (fuel tot off : Nat) → FsM (Nat × Nat)
  | 0, tot, off => return (tot, off)
  | fuel + 1, tot, off => do
      if tot < n then
        let addr ← bmap ip (off / BSIZE)
        if addr = 0 then return (tot, off)
        let m := min (n - tot) (BSIZE - off % BSIZE)
        modify fun s => { s with
          data := Function.update s.data (s.inode ip).inum fun k =>
            if off ≤ k ∧ k < off + m then src.getD (tot + (k - off)) 0
            else s.data (s.inode ip).inum k }
        writeiLoop ip src n fuel (tot + m) (off + m)
      else return (tot, off)

/-- `writei(ip, 0, src, off, n)`: the number of bytes written, or `-1`. -/
def writei (ip : Fin NINODE) (src : List UInt8) (off n : Nat) : FsM Int := do
  let size := ((← get).inode ip).d.size
  if off > size ∨ (off + n) % 2 ^ 32 < off then return -1
  if off + n > MAXFILE * BSIZE then return -1
  let (tot, off) ← writeiLoop ip src n n 0 off
  if off > ((← get).inode ip).d.size then
    modify (·.modifyInode ip fun e => { e with d := { e.d with size := off } })
  -- written back even if the size did not change: `bmap` may have added blocks
  iupdate ip
  return tot

attribute [grind] readiLoop writeiLoop

/-! ## What the functions do

One lemma per function, stating every way a successful run can go; the
later modules use these and never unfold the functions. -/

section Specs

variable {s s' : Fs}

/-- `iupdate` as a function of the state: entry `ip` written back. -/
def Fs.writeBack (s : Fs) (ip : Fin NINODE) : Fs :=
  { s with dinode := Function.update s.dinode (s.inode ip).inum (s.inode ip).d }


@[simp] theorem bzero_run (bno : Nat) (s : Fs) :
    bzero bno s = .ok ((), { s with indirect := Function.update s.indirect bno fun _ => 0 }) := rfl


@[simp] theorem idup_run (ip : Fin NINODE) (s : Fs) :
    idup ip s = .ok (ip, s.modifyInode ip fun e => { e with ref := e.ref + 1 }) := rfl

/-- `balloc` returns `0` with nothing changed when every block is in use,
or marks and zeroes the first free block. -/
theorem balloc_spec {b : Nat} (h : balloc s = .ok (b, s')) :
    (b = 0 ∧ s' = s ∧ ∀ b' < s.sb.size, s.bitmap b' = true) ∨
    (b < s.sb.size ∧ s.bitmap b = false ∧ (∀ b' < b, s.bitmap b' = true) ∧
      s' = { s with bitmap := Function.update s.bitmap b true,
                    indirect := Function.update s.indirect b fun _ => 0 }) := by
  unfold balloc at h
  simp only [get_bind_run] at h
  cases hf : (List.range s.sb.size).find? (fun b => !s.bitmap b) with
  | none =>
      simp only [hf] at h
      obtain ⟨rfl, rfl⟩ := pure_ok h
      refine .inl ⟨rfl, rfl, fun b' hb' => ?_⟩
      simpa using List.find?_eq_none.mp hf b' (List.mem_range.mpr hb')
  | some b₀ =>
      simp only [hf, set_bind_run, bzero, modify_bind_run, pure_run, Except.ok.injEq,
        Prod.mk.injEq] at h
      obtain ⟨rfl, rfl⟩ := h
      obtain ⟨hfree, hmem, hfirst⟩ := List.find?_range_eq_some.mp hf
      refine .inr ⟨List.mem_range.mp hmem, by simpa using hfree, fun b' hb' => ?_, rfl⟩
      simpa using hfirst b' hb'

theorem bfree_spec {b : Nat} {u : Unit} (h : bfree b s = .ok (u, s')) :
    s.bitmap b = true ∧ s' = { s with bitmap := Function.update s.bitmap b false } := by
  unfold bfree at h
  simp only [get_bind_run, ite_run] at h
  split at h
  · simp at h
  · rename_i hb
    simp only [set_run, Except.ok.injEq, Prod.mk.injEq] at h
    exact ⟨by simpa using hb, h.2.symm⟩

/-- `iget` adds a reference to the entry already holding `inum`, or
recycles an entry no one references. -/
theorem iget_spec {inum : Nat} {ip : Fin NINODE} (h : iget inum s = .ok (ip, s')) :
    (0 < (s.inode ip).ref ∧ (s.inode ip).inum = inum ∧
      s' = s.modifyInode ip fun e => { e with ref := e.ref + 1 }) ∨
    ((∀ ip', 0 < (s.inode ip').ref → (s.inode ip').inum ≠ inum) ∧ (s.inode ip).ref = 0 ∧
      s' = s.modifyInode ip fun e => { e with inum := inum, ref := 1, valid := false }) := by
  unfold iget at h
  simp only [get_bind_run] at h
  cases hf : (List.finRange NINODE).find?
      (fun ip => 0 < (s.inode ip).ref ∧ (s.inode ip).inum = inum) with
  | some ip₀ =>
      simp only [hf, set_bind_run, pure_run, Except.ok.injEq, Prod.mk.injEq] at h
      obtain ⟨rfl, rfl⟩ := h
      have hp := List.find?_some hf
      simp only [decide_eq_true_eq] at hp
      exact .inl ⟨hp.1, hp.2, rfl⟩
  | none =>
      have hcached : ∀ ip', 0 < (s.inode ip').ref → (s.inode ip').inum ≠ inum := fun ip' hr he =>
        List.find?_eq_none.mp hf ip' (List.mem_finRange ip') (by simp [hr, he])
      cases hf' : (List.finRange NINODE).find? (fun ip => (s.inode ip).ref = 0) with
      | some ip₀ =>
          simp only [hf, hf', set_bind_run, pure_run, Except.ok.injEq, Prod.mk.injEq] at h
          obtain ⟨rfl, rfl⟩ := h
          exact .inr ⟨hcached, by simpa using List.find?_some hf', rfl⟩
      | none =>
          simp only [hf, hf'] at h
          exact absurd h throw_not_ok

/-- `ialloc` finds nothing, or gives the first free inode its type and
takes a table entry for it. -/
theorem ialloc_spec {type : Int16} {r : Option (Fin NINODE)} (h : ialloc type s = .ok (r, s')) :
    (r = none ∧ s' = s) ∨
    ∃ inum ip, r = some ip ∧ 1 ≤ inum ∧ inum < s.sb.ninodes ∧ (s.dinode inum).type = 0 ∧
      iget inum { s with dinode := Function.update s.dinode inum { DInode.zero with type := type } } =
        .ok (ip, s') := by
  unfold ialloc at h
  simp only [get_bind_run] at h
  cases hf : (List.range' 1 (s.sb.ninodes - 1)).find? (fun inum => (s.dinode inum).type = 0) with
  | none =>
      simp only [hf] at h
      exact .inl (pure_ok h)
  | some inum =>
      simp only [hf, set_bind_run] at h
      obtain ⟨ip, s₁, hget, h⟩ := bind_ok.mp h
      obtain ⟨rfl, rfl⟩ := pure_ok h
      obtain ⟨hfree, hmem, -⟩ := List.find?_range'_eq_some.mp hf
      rw [List.mem_range'_1] at hmem
      exact .inr ⟨inum, ip, rfl, hmem.1, by omega, by simpa using hfree, hget⟩

/-- `ilock` finds the entry referenced, and loads it if it is not valid;
it panics on an inode with no type. -/
theorem ilock_spec {ip : Fin NINODE} {u : Unit} (h : ilock ip s = .ok (u, s')) :
    1 ≤ (s.inode ip).ref ∧
      (((s.inode ip).valid = true ∧ s' = s) ∨
       ((s.inode ip).valid = false ∧ (s.dinode (s.inode ip).inum).type ≠ 0 ∧
        s' = s.modifyInode ip fun e => { e with d := s.dinode (s.inode ip).inum, valid := true })) := by
  unfold ilock at h
  simp only [get_bind_run, ite_run] at h
  split at h
  · simp at h
  · rename_i href
    refine ⟨by omega, ?_⟩
    split at h
    · rename_i hv
      simp only [set_bind_run, ite_run] at h
      split at h
      · exact absurd h throw_not_ok
      · rename_i ht
        obtain ⟨-, rfl⟩ := pure_ok h
        exact .inr ⟨hv, ht, rfl⟩
    · rename_i hv
      obtain ⟨-, rfl⟩ := pure_ok h
      exact .inl ⟨by simpa using hv, rfl⟩

theorem iunlock_spec {ip : Fin NINODE} {u : Unit} (h : iunlock ip s = .ok (u, s')) :
    1 ≤ (s.inode ip).ref ∧ s' = s := by
  unfold iunlock at h
  simp only [get_bind_run, ite_run] at h
  split at h
  · exact absurd h throw_not_ok
  · exact ⟨by omega, (pure_ok h).2⟩

@[simp] theorem iupdate_run (ip : Fin NINODE) (s : Fs) : iupdate ip s = .ok ((), s.writeBack ip) := rfl

@[simp] theorem iupdate_bind_run {α : Type} (ip : Fin NINODE) (f : PUnit → FsM α) (s : Fs) :
    (iupdate ip >>= f) s = f () (s.writeBack ip) := rfl

/-! ### The block map -/

theorem balloc_blockStep : Guarantees Fs.BlockStep balloc := by
  intro s b s' h
  rcases balloc_spec h with ⟨-, rfl, -⟩ | ⟨-, -, -, rfl⟩
  · exact Fs.BlockStep.refl _
  · exact ⟨_, _, fun ip => (s.inode ip).d.addrs, rfl⟩

theorem bfree_blockStep (b : Nat) : Guarantees Fs.BlockStep (bfree b) := by
  intro s u s' h
  obtain ⟨-, rfl⟩ := bfree_spec h
  exact Fs.BlockStep.setBitmap s _

/-- `bmap` changes the block map only. -/
theorem bmap_blockStep (ip : Fin NINODE) (bn : Nat) : Guarantees Fs.BlockStep (bmap ip bn) := by
  unfold bmap
  dsimp only
  -- every step is a read, `balloc`, or a write of `addrs` or of an indirect block
  refine Guarantees.dite (fun _ => ?_) (fun _ => ?_) <;>
  repeat (first
    | exact Guarantees.pure _ | exact Guarantees.throw _ | exact Guarantees.get | exact balloc_blockStep
    | exact Guarantees.modify fun s => Fs.BlockStep.setAddr s _ _ _
    | exact Guarantees.modify fun s => Fs.BlockStep.setIndirect s _ _ _
    | refine Guarantees.ite ?_ ?_ | refine Guarantees.bind ?_ fun _ => ?_)

/-- The state `itrunc` ends in, from the block map its loops leave: the
size set to `0` and the inode written back. -/
def Fs.truncate (s : Fs) (ip : Fin NINODE) : Fs :=
  (s.modifyInode ip fun e => { e with d := { e.d with size := 0 } }).writeBack ip

attribute [grind] Fs.truncate

/-- `itrunc` frees the inode's blocks (a block step) and writes back size `0`. -/
theorem itrunc_spec {ip : Fin NINODE} {u : Unit} (h : itrunc ip s = .ok (u, s')) :
    ∃ s₁, Fs.BlockStep s s₁ ∧ s' = s₁.truncate ip := by
  unfold itrunc at h
  obtain ⟨_, s₁, h₁, h⟩ := bind_ok.mp h
  -- the loop over the direct blocks
  have hb₁ : Fs.BlockStep s s₁ := Guarantees.forM (fun i _ =>
      Guarantees.get.bind fun _ => Guarantees.ite
        ((bfree_blockStep _).bind fun _ => Guarantees.modify fun s => Fs.BlockStep.setAddr s _ _ _)
        (Guarantees.pure _)) s _ s₁ h₁
  simp only [get_bind_run, ite_run] at h
  split at h
  · -- the indirect block: its entries, then itself
    obtain ⟨_, s₂, h₂, h⟩ := bind_ok.mp h
    obtain ⟨_, s₃, h₃, h⟩ := bind_ok.mp h
    have hb₂ : Fs.BlockStep s₁ s₂ := Guarantees.forM (fun j _ =>
        Guarantees.ite (bfree_blockStep _) (Guarantees.pure _)) s₁ _ s₂ h₂
    have hb₃ := bfree_blockStep _ s₂ _ s₃ h₃
    simp only [modify_bind_run, iupdate_run, Except.ok.injEq, Prod.mk.injEq] at h
    exact ⟨_, hb₁.trans (hb₂.trans (hb₃.trans (Fs.BlockStep.setAddr _ _ _ _))), h.2.symm⟩
  · simp only [modify_bind_run, iupdate_run, Except.ok.injEq, Prod.mk.injEq] at h
    exact ⟨s₁, hb₁, h.2.symm⟩

/-- The state `iput` ends in when it frees the inode, from the one
`itrunc`'s loops leave: no size, no type, written back, not valid, no
reference. -/
def Fs.free (s : Fs) (ip : Fin NINODE) : Fs :=
  (((s.truncate ip).modifyInode ip fun e => { e with d := { e.d with type := 0 } }).writeBack ip).modifyInode ip
    fun e => { e with valid := false, ref := e.ref - 1 }

attribute [grind] Fs.free

/-- `iput` drops one reference, or frees the inode when it drops the last
reference to a valid inode with no links. -/
theorem iput_spec {ip : Fin NINODE} {u : Unit} (h : iput ip s = .ok (u, s')) :
    (¬((s.inode ip).ref = 1 ∧ (s.inode ip).valid = true ∧ (s.inode ip).d.nlink = 0) ∧
      s' = s.modifyInode ip fun e => { e with ref := e.ref - 1 }) ∨
    ((s.inode ip).ref = 1 ∧ (s.inode ip).valid = true ∧ (s.inode ip).d.nlink = 0 ∧
      ∃ s₁, Fs.BlockStep s s₁ ∧ s' = s₁.free ip) := by
  unfold iput at h
  simp only [get_bind_run, ite_run] at h
  split at h
  · rename_i hfree
    obtain ⟨_, s₁, h₁, h⟩ := bind_ok.mp h
    obtain ⟨s₂, hb, rfl⟩ := itrunc_spec h₁
    simp only [iupdate_bind_run, modify_bind_run, modify_run, Except.ok.injEq, Prod.mk.injEq,
      Fs.modifyInode_modifyInode] at h
    exact .inr ⟨hfree.1, hfree.2.1, hfree.2.2, s₂, hb, h.2.symm⟩
  · rename_i hkeep
    simp only [modify_run, Except.ok.injEq, Prod.mk.injEq] at h
    exact .inl ⟨hkeep, h.2.symm⟩

theorem iunlockput_spec {ip : Fin NINODE} {u : Unit} (h : iunlockput ip s = .ok (u, s')) :
    1 ≤ (s.inode ip).ref ∧ iput ip s = .ok (u, s') := by
  obtain ⟨_, s₁, h₁, h₂⟩ := bind_ok.mp h
  obtain ⟨href, rfl⟩ := iunlock_spec h₁
  exact ⟨href, h₂⟩

theorem readiLoop_spec {ip : Fin NINODE} {n : Nat} : ∀ {fuel tot off r : Nat} {bytes : List UInt8}
    {s s' : Fs}, readiLoop ip n fuel tot off s = .ok ((r, bytes), s') →
    Fs.BlockStep s s' ∧ tot ≤ r ∧ (tot ≤ n → r ≤ n) ∧
      bytes = (List.range (r - tot)).map fun i => s.data (s.inode ip).inum (off + i)
  | 0, tot, off, r, bytes, s, s', h => by
      simp only [readiLoop, pure_run, Except.ok.injEq, Prod.mk.injEq] at h
      obtain ⟨⟨rfl, rfl⟩, rfl⟩ := h
      simp [Fs.BlockStep.refl]
  | fuel + 1, tot, off, r, bytes, s, s', h => by
      simp only [readiLoop, ite_run] at h
      split at h
      · rename_i hlt
        obtain ⟨addr, s₁, h₁, h⟩ := bind_ok.mp h
        have hb₁ := bmap_blockStep ip _ s addr s₁ h₁
        simp only [ite_run] at h
        split at h
        · simp only [pure_run, Except.ok.injEq, Prod.mk.injEq] at h
          obtain ⟨⟨rfl, rfl⟩, rfl⟩ := h
          simp [hb₁]
        · -- one block's bytes, then the rest of the loop
          simp only [get_bind_run] at h
          obtain ⟨⟨r', rest⟩, s₂, h₂, h⟩ := bind_ok.mp h
          simp only [pure_run, Except.ok.injEq, Prod.mk.injEq] at h
          obtain ⟨⟨rfl, rfl⟩, rfl⟩ := h
          obtain ⟨hb₂, hle, hn, rfl⟩ := readiLoop_spec h₂
          obtain ⟨-, -, hdata, -⟩ := hb₁.fields
          have hinum := (hb₁.entry ip).1
          have hm : min (n - tot) (BSIZE - off % BSIZE) ≤ n - tot := Nat.min_le_left _ _
          refine ⟨hb₁.trans hb₂, by omega, fun _ => hn (by omega), ?_⟩
          obtain ⟨k, hk⟩ : ∃ k, r' - tot = min (n - tot) (BSIZE - off % BSIZE) + k :=
            ⟨r' - (tot + min (n - tot) (BSIZE - off % BSIZE)), by omega⟩
          rw [hk, List.range_add, List.map_append, List.map_map, hdata, hinum]
          congr 2
          · funext i
            simp only [Function.comp_apply, Nat.add_assoc]
          · congr 1
            omega
      · simp only [pure_run, Except.ok.injEq, Prod.mk.injEq] at h
        obtain ⟨⟨rfl, rfl⟩, rfl⟩ := h
        simp [Fs.BlockStep.refl]

theorem readi_spec {ip : Fin NINODE} {off n r : Nat} {bytes : List UInt8} {s s' : Fs}
    (h : readi ip off n s = .ok ((r, bytes), s')) :
    Fs.BlockStep s s' ∧ r ≤ n ∧ (r = 0 ∨ off + r ≤ (s.inode ip).d.size) ∧
      bytes = (List.range r).map fun i => s.data (s.inode ip).inum (off + i) := by
  unfold readi at h
  simp only [get_bind_run, ite_run] at h
  split at h
  · simp only [pure_run, Except.ok.injEq, Prod.mk.injEq] at h
    obtain ⟨⟨rfl, rfl⟩, rfl⟩ := h
    simp [Fs.BlockStep.refl]
  · rename_i hrange
    obtain ⟨hb, -, hn, rfl⟩ := readiLoop_spec h
    -- `n` was clipped to what is left before the size
    have := hn (Nat.zero_le _)
    refine ⟨hb, ?_, .inr ?_, by rw [Nat.sub_zero]⟩ <;> split at this <;> omega

/-- `len` bytes of `src` from its byte `srcOff` written at offset `off` of
inode `inum`'s content. -/
def Fs.writeBytes (s : Fs) (inum off len : Nat) (src : List UInt8) (srcOff : Nat) : Fs :=
  { s with data := Function.update s.data inum fun k =>
      if off ≤ k ∧ k < off + len then src.getD (srcOff + (k - off)) 0 else s.data inum k }

theorem Fs.writeBytes_zero (s : Fs) (inum off : Nat) (src : List UInt8) (srcOff : Nat) :
    s.writeBytes inum off 0 src srcOff = s := by
  unfold Fs.writeBytes
  have : (fun k => if off ≤ k ∧ k < off + 0 then src.getD (srcOff + (k - off)) 0 else s.data inum k) =
      s.data inum := by
    funext k
    rw [if_neg (by omega)]
  rw [this, Function.update_eq_self]

theorem Fs.writeBytes_writeBytes (s : Fs) (inum off m k : Nat) (src : List UInt8) (srcOff : Nat) :
    (s.writeBytes inum off m src srcOff).writeBytes inum (off + m) k src (srcOff + m) =
      s.writeBytes inum off (m + k) src srcOff := by
  unfold Fs.writeBytes
  congr 1
  funext i j
  by_cases hi : i = inum
  · subst hi
    simp only [Function.update_self]
    by_cases h₁ : off + m ≤ j ∧ j < off + m + k
    · rw [if_pos h₁, if_pos (by omega)]
      congr 1
      omega
    · rw [if_neg h₁]
      by_cases h₂ : off ≤ j ∧ j < off + m
      · rw [if_pos h₂, if_pos (by omega)]
      · rw [if_neg h₂, if_neg (by omega)]
  · simp [Function.update_of_ne hi]

theorem Fs.BlockStep.writeBytes {s s₂ : Fs} {inum off len : Nat} {src : List UInt8} {srcOff : Nat}
    (h : Fs.BlockStep (s.writeBytes inum off len src srcOff) s₂) :
    ∃ s₁, Fs.BlockStep s s₁ ∧ s₂ = s₁.writeBytes inum off len src srcOff := by
  obtain ⟨bm, ind, ad, rfl⟩ := h
  exact ⟨s.withBlocks bm ind ad, ⟨bm, ind, ad, rfl⟩, rfl⟩

theorem writeiLoop_spec {ip : Fin NINODE} {src : List UInt8} {n : Nat} :
    ∀ {fuel tot off r off' : Nat} {s s' : Fs}, writeiLoop ip src n fuel tot off s = .ok ((r, off'), s') →
    tot ≤ r ∧ (tot ≤ n → r ≤ n) ∧ off' = off + (r - tot) ∧
      ∃ s₁, Fs.BlockStep s s₁ ∧ s' = s₁.writeBytes (s.inode ip).inum off (r - tot) src tot
  | 0, tot, off, r, off', s, s', h => by
      simp only [writeiLoop, pure_run, Except.ok.injEq, Prod.mk.injEq] at h
      obtain ⟨⟨rfl, rfl⟩, rfl⟩ := h
      exact ⟨Nat.le_refl _, id, by omega, s, Fs.BlockStep.refl s, by rw [Nat.sub_self, Fs.writeBytes_zero]⟩
  | fuel + 1, tot, off, r, off', s, s', h => by
      simp only [writeiLoop, ite_run] at h
      split at h
      · rename_i hlt
        obtain ⟨addr, s₁, h₁, h⟩ := bind_ok.mp h
        have hb₁ := bmap_blockStep ip _ s addr s₁ h₁
        simp only [ite_run] at h
        split at h
        · simp only [pure_run, Except.ok.injEq, Prod.mk.injEq] at h
          obtain ⟨⟨rfl, rfl⟩, rfl⟩ := h
          exact ⟨Nat.le_refl _, id, by omega, s₁, hb₁, by rw [Nat.sub_self, Fs.writeBytes_zero]⟩
        · -- one block's bytes, then the rest of the loop
          simp only [modify_bind_run] at h
          have hm : min (n - tot) (BSIZE - off % BSIZE) ≤ n - tot := Nat.min_le_left _ _
          obtain ⟨hle, hn, rfl, s₂, hb₂, rfl⟩ := writeiLoop_spec h
          have hinum := (hb₁.entry ip).1
          obtain ⟨s₃, hb₃, rfl⟩ := Fs.BlockStep.writeBytes (show Fs.BlockStep
            (s₁.writeBytes (s.inode ip).inum off (min (n - tot) (BSIZE - off % BSIZE)) src tot) s₂ from by
              rw [← hinum]; exact hb₂)
          refine ⟨by omega, fun _ => hn (by omega), by omega, s₃, hb₁.trans hb₃, ?_⟩
          have hk : min (n - tot) (BSIZE - off % BSIZE) +
              (r - (tot + min (n - tot) (BSIZE - off % BSIZE))) = r - tot := by omega
          change (s₃.writeBytes _ off _ src tot).writeBytes (s₁.inode ip).inum _ _ src _ = _
          rw [hinum, Fs.writeBytes_writeBytes, hk]
      · simp only [pure_run, Except.ok.injEq, Prod.mk.injEq] at h
        obtain ⟨⟨rfl, rfl⟩, rfl⟩ := h
        exact ⟨Nat.le_refl _, id, by omega, s, Fs.BlockStep.refl s, by rw [Nat.sub_self, Fs.writeBytes_zero]⟩

/-- A write that fits in one block is written whole or not at all. -/
theorem writeiLoop_within_block {ip : Fin NINODE} {src : List UInt8} {n fuel off r off' : Nat} {s s' : Fs}
    (h : writeiLoop ip src n fuel 0 off s = .ok ((r, off'), s')) (hn : n ≤ BSIZE - off % BSIZE) :
    r = 0 ∨ r = n := by
  cases fuel with
  | zero =>
      simp only [writeiLoop, pure_run, Except.ok.injEq, Prod.mk.injEq] at h
      exact .inl h.1.1.symm
  | succ fuel =>
      simp only [writeiLoop, ite_run] at h
      split at h
      · obtain ⟨addr, s₁, -, h⟩ := bind_ok.mp h
        simp only [ite_run] at h
        split at h
        · simp only [pure_run, Except.ok.injEq, Prod.mk.injEq] at h
          exact .inl h.1.1.symm
        · -- the first block takes all `n` bytes
          simp only [modify_bind_run] at h
          obtain ⟨hle, hn', -⟩ := writeiLoop_spec h
          have hm : min (n - 0) (BSIZE - off % BSIZE) = n := by omega
          rw [hm] at hle hn'
          exact .inr (Nat.le_antisymm (hn' (by omega)) (by omega))
      · simp only [pure_run, Except.ok.injEq, Prod.mk.injEq] at h
        exact .inl h.1.1.symm

/-- `writei` gives up (`-1`, nothing changed) on a range it does not
write, or writes `tot ≤ n` bytes at `off`, grows the size to cover them
and writes the inode back. -/
theorem writei_spec {ip : Fin NINODE} {src : List UInt8} {off n : Nat} {r : Int} {s s' : Fs}
    (h : writei ip src off n s = .ok (r, s')) :
    (r = -1 ∧ s' = s) ∨
    (off ≤ (s.inode ip).d.size ∧ off + n ≤ MAXFILE * BSIZE ∧
      ∃ tot : Nat, ∃ s₁, r = tot ∧ tot ≤ n ∧ (n ≤ BSIZE - off % BSIZE → tot = 0 ∨ tot = n) ∧
        Fs.BlockStep s s₁ ∧
        s' = ((s₁.writeBytes (s.inode ip).inum off tot src 0).modifyInode ip fun e =>
          { e with d := { e.d with size := max e.d.size (off + tot) } }).writeBack ip) := by
  unfold writei at h
  simp only [get_bind_run, ite_run] at h
  split at h
  · exact .inl (pure_ok h)
  · rename_i hrange
    split at h
    · exact .inl (pure_ok h)
    · rename_i hmax
      obtain ⟨⟨tot, off'⟩, s₁, h₁, h⟩ := bind_ok.mp h
      obtain ⟨-, hn, rfl, s₂, hb₂, rfl⟩ := writeiLoop_spec h₁
      have hsize : ((s₂.writeBytes (s.inode ip).inum off tot src 0).inode ip).d.size =
          (s.inode ip).d.size := (hb₂.entry ip).2.2.2.2.2
      simp only [get_bind_run, ite_run, Nat.sub_zero] at h
      refine .inr ⟨by omega, by omega, tot, s₂, ?_, by simpa using hn (Nat.zero_le _),
        fun hblock => by simpa using writeiLoop_within_block h₁ hblock, hb₂, ?_⟩
      · split at h <;>
          simp only [modify_bind_run, iupdate_bind_run, pure_run, Except.ok.injEq, Prod.mk.injEq] at h <;>
          exact h.1.symm
      · split at h
        · -- the write ends past the old size
          simp only [modify_bind_run, iupdate_bind_run, pure_run, Except.ok.injEq, Prod.mk.injEq] at h
          rename_i hgt
          rw [← h.2]
          congr 1
          apply Fs.modifyInode_congr
          rw [hsize] at hgt ⊢
          rw [Nat.max_eq_right (by omega)]
        · simp only [iupdate_bind_run, pure_run, Except.ok.injEq, Prod.mk.injEq] at h
          rename_i hle
          rw [← h.2]
          congr 1
          refine ((Fs.modifyInode_congr _ ip ?_).trans (Fs.modifyInode_self _ ip)).symm
          rw [hsize] at hle
          rw [Nat.max_eq_left (by omega)]

end Specs

end Xv6
