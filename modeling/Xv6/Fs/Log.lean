/-
# `Xv6.Fs.Log` — the write-ahead log of `kernel/log.c`

Two halves.  The in-memory `struct log` with `begin_op`, `log_write` and
`end_op`, which decide when a transaction commits and how many blocks it
may hold; and the disk writes of `commit` and `recover_from_log`, as
programs over the disk of `Xv6.Fs.Disk` (`Store.Write`: each `bwrite` of a
buffer whose contents were read through the cache and changed).

**Reads through the cache.**  Every buffer these functions read is either
overwritten whole before its `bwrite` (the `to` of `write_log`, the `dbuf`
of `install_trans`), or agrees with the disk: the header block and the
log blocks are never pinned, and `bwrite` writes a buffer through.  The
only exception is `write_log`'s `from`, the pinned home block, whose
cached contents are the `cache` argument.  At boot the cache is empty.

**The header on disk** is `struct logheader`: `int n` at byte 0 and
`int block[LOGSIZE]` from byte 4 (`LogHeader.encode`, `LogHeader.decode`).
`decode_encode` is the round trip `recover_from_log` depends on.
-/
import Xv6.Fs.Disk
import Mathlib.Data.List.Nodup

namespace Xv6

open Store

/-! ## The header -/

/-- `struct logheader`: `n` is the length of `block`, the logged home-block
numbers `block[0..n)`; the entries past `n` are never read. -/
structure LogHeader where
  block : List Nat
  deriving DecidableEq, Repr

namespace LogHeader

/-- `lh.n`. -/
def n (lh : LogHeader) : Nat :=
  lh.block.length

/-- The header with `n = 0`. -/
def empty : LogHeader :=
  ⟨[]⟩

/-- `hb->block[i] = x` for the entries `x` of `xs`, from index `i` on. -/
def setBlocks (b : Block) (i : Nat) : List Nat → Block
  | [] => b
  | x :: xs => setBlocks (b.setU32 (4 + 4 * i) x) (i + 1) xs

/-- The header block's buffer after `write_head` stored `lh` in it:
`hb->n = n`, then `hb->block[0..n)`. -/
def encode (lh : LogHeader) (b : Block) : Block :=
  setBlocks (b.setU32 0 lh.n) 0 lh.block

/-- What `read_head` takes from the header block: `n = lh->n`, then
`block[0..n)`; a negative `n` runs the loop no time. -/
def decode (b : Block) : LogHeader :=
  ⟨(List.range (b.getInt 0).toNat).map fun i => b.getU32 (4 + 4 * i)⟩

attribute [grind] n empty setBlocks encode decode

@[simp] theorem n_empty : empty.n = 0 := rfl

theorem getU32_setBlocks_of_le (b : Block) (i off : Nat) (xs : List Nat) (h : off + 4 ≤ 4 + 4 * i) :
    (setBlocks b i xs).getU32 off = b.getU32 off := by
  induction xs generalizing b i with
  | nil => rfl
  | cons x xs ih =>
      rw [setBlocks, ih _ (i + 1) (by omega), Block.getU32_setU32_of_disjoint _ _ _ _ (by omega)]

theorem getU32_setBlocks_entry (b : Block) (i : Nat) (xs : List Nat) (j : Nat)
    (hj : j < xs.length) (hfit : 4 + 4 * (i + j) + 4 ≤ BSIZE) :
    (setBlocks b i xs).getU32 (4 + 4 * (i + j)) = xs[j] % 2 ^ 32 := by
  induction xs generalizing b i j with
  | nil => cases hj
  | cons x xs ih =>
      rw [setBlocks]
      cases j with
      | zero =>
          -- the later entries lie beyond this one
          rw [getU32_setBlocks_of_le _ _ _ _ (by omega), Nat.add_zero,
            Block.getU32_setU32_self _ _ _ (by omega)]
          rfl
      | succ j =>
          have e : i + (j + 1) = i + 1 + j := by omega
          rw [e, ih _ (i + 1) j (by simpa using hj) (by omega)]
          rfl

/-- The round trip of the header: what `write_head` stores, `read_head`
reads back, as long as it fits the block and its entries are `uint`s. -/
theorem decode_encode (lh : LogHeader) (b : Block) (hn : lh.n ≤ LOGSIZE)
    (hbits : ∀ x ∈ lh.block, x < 2 ^ 32) : decode (lh.encode b) = lh := by
  have hL : LOGSIZE = 30 := rfl
  have hB : BSIZE = 1024 := rfl
  have hcount : (lh.encode b).getU32 0 = lh.n := by
    rw [encode, getU32_setBlocks_of_le _ _ _ _ (by omega), Block.getU32_setU32_self _ _ _ (by omega)]
    exact Nat.mod_eq_of_lt (by omega)
  have hint : (lh.encode b).getInt 0 = lh.n := by
    rw [Block.getInt, hcount, if_pos (by omega)]
  cases lh with
  | mk block =>
      simp only [decode, hint, Int.toNat_natCast, LogHeader.mk.injEq]
      apply List.ext_getElem
      · simp [n]
      · intro j hj₁ hj₂
        have hj : j < block.length := by simpa [n] using hj₁
        rw [List.getElem_map, List.getElem_range]
        have he := getU32_setBlocks_entry (Block.setU32 b 0 block.length) 0 block j hj
          (by simp only [n] at hn; omega)
        rw [Nat.zero_add] at he
        rw [encode, n, he]
        exact Nat.mod_eq_of_lt (hbits _ (List.getElem_mem hj))

theorem encode_empty (b : Block) : empty.encode b = b.setU32 0 0 := rfl

theorem getInt_encode_empty (b : Block) : (empty.encode b).getInt 0 = 0 := by
  rw [Block.getInt_eq_zero_iff, encode_empty, Block.getU32_setU32_self _ _ _ (by decide), Nat.zero_mod]

/-- Clearing a header whose `n` is already `0` writes the block as it was. -/
theorem encode_empty_of_getInt (b : Block) (h : b.getInt 0 = 0) : empty.encode b = b := by
  rw [Block.getInt_eq_zero_iff] at h
  calc empty.encode b = b.setU32 0 (b.getU32 0) := by rw [encode_empty, h]
    _ = b := Block.setU32_getU32 _ _ (by decide)

theorem decode_of_getInt (b : Block) (h : b.getInt 0 = 0) : decode b = empty := by
  simp [decode, h, empty]

end LogHeader

/-! ## The in-memory log -/

/-- `struct log`, without its lock and `dev`. -/
structure Log where
  start : Nat
  size : Nat
  /-- How many FS system calls are executing.  An `int` in C; `end_op` is
  only ever called after its `begin_op`, so it never goes below `0`. -/
  outstanding : Nat
  committing : Bool
  lh : LogHeader
  deriving DecidableEq, Repr

/-- `initlog`: the region the superblock gives, and the header that
`recover_from_log` leaves, with `n = 0`. -/
def initlog (logstart nlog : Nat) : Log :=
  ⟨logstart, nlog, 0, false, LogHeader.empty⟩

/-- `begin_op`; `none` while it sleeps. -/
def begin_op (l : Log) : Option Log :=
  if l.committing then none
  else if l.lh.n + (l.outstanding + 1) * MAXOPBLOCKS > LOGSIZE then none
  else some { l with outstanding := l.outstanding + 1 }

/-- `log_write(b)` for the buffer of block `blockno`; `.error` is a `panic`.
A block already in the transaction is absorbed; a new one is appended
(and pinned in the cache). -/
def log_write (l : Log) (blockno : Nat) : Except String Log :=
  if l.lh.n ≥ LOGSIZE ∨ l.lh.n ≥ l.size - 1 then .error "too big a transaction"
  else if l.outstanding < 1 then .error "log_write outside of trans"
  else if blockno ∈ l.lh.block then .ok l
  else .ok { l with lh := ⟨l.lh.block ++ [blockno]⟩ }

/-- `end_op`, with the commit the last operation out makes: `commit` leaves
`log.lh.n = 0` (it was `0` already if there was nothing to commit) and
`committing` is cleared again before `end_op` returns.  The flag says
whether this call committed. -/
def end_op (l : Log) : Except String (Log × Bool) :=
  let l := { l with outstanding := l.outstanding - 1 }
  if l.committing then .error "log.committing"
  else if l.outstanding = 0 then .ok ({ l with lh := LogHeader.empty }, true)
  else .ok (l, false)

/-- What a `log_write` that does not panic has done. -/
theorem log_write_ok {l l' : Log} {blockno : Nat} (h : log_write l blockno = .ok l') :
    l.lh.n < LOGSIZE ∧ l.lh.n < l.size - 1 ∧ 1 ≤ l.outstanding ∧
      ((blockno ∈ l.lh.block ∧ l' = l) ∨
        (blockno ∉ l.lh.block ∧ l' = { l with lh := ⟨l.lh.block ++ [blockno]⟩ })) := by
  unfold log_write at h
  split at h
  · cases h
  · rename_i hroom
    split at h
    · cases h
    · rename_i hout
      refine ⟨by omega, by omega, by omega, ?_⟩
      split at h
      · rename_i hmem
        exact .inl ⟨hmem, (Except.ok.inj h).symm⟩
      · rename_i hmem
        exact .inr ⟨hmem, (Except.ok.inj h).symm⟩

/-- What `log_write` keeps of the transaction: its blocks are distinct, at
most `LOGSIZE` of them, and fewer than the blocks of the region. -/
structure Log.Fits (l : Log) : Prop where
  nodup : l.lh.block.Nodup
  le_logsize : l.lh.n ≤ LOGSIZE
  lt_size : l.lh.n < l.size

theorem log_write_fits {l l' : Log} {blockno : Nat} (hl : l.Fits)
    (h : log_write l blockno = .ok l') : l'.Fits := by
  obtain ⟨hlog, hsize, -, ⟨-, rfl⟩ | ⟨hmem, rfl⟩⟩ := log_write_ok h
  · exact hl
  · refine ⟨List.nodup_append.mpr ⟨hl.nodup, List.nodup_singleton _, ?_⟩, ?_, ?_⟩
    · intro a ha b hb hab
      rw [List.mem_singleton] at hb
      exact hmem (hb ▸ hab ▸ ha)
    · simp only [LogHeader.n, List.length_append, List.length_singleton] at hlog ⊢
      omega
    · simp only [LogHeader.n, List.length_append, List.length_singleton] at hsize ⊢
      omega

/-! ## The disk writes of `commit` and `recover_from_log` -/

/-- `write_log`: log block `start + tail + 1` gets the cached contents of
home block `block[tail]` (`e` is the pair `(block[tail], tail)`). -/
def write_log (start : Nat) (cache : Nat → Block) (lh : LogHeader) : List (Write Nat Block) :=
  lh.block.zipIdx.map fun e => Write.const (start + e.2 + 1) (cache e.1)

/-- `install_trans`: home block `block[tail]` gets log block
`start + tail + 1`, read as it stands. -/
def install_trans (start : Nat) (lh : LogHeader) : List (Write Nat Block) :=
  lh.block.zipIdx.map fun e => ⟨e.1, fun d => d (start + e.2 + 1)⟩

/-- `write_head`: the header block, read as it stands, with `lh` stored in it. -/
def write_head (start : Nat) (lh : LogHeader) : Write Nat Block :=
  ⟨start, fun d => lh.encode (d start)⟩

attribute [grind] write_log install_trans

@[simp] theorem write_head_cell (start : Nat) (lh : LogHeader) : (write_head start lh).cell = start :=
  rfl

theorem write_head_value (start : Nat) (lh : LogHeader) (d : Disk) :
    (write_head start lh).value d = lh.encode (d start) :=
  rfl

/-- `commit`'s disk writes: the log, the header (the commit point), the
home blocks, and the cleared header. -/
def commit (l : Log) (cache : Nat → Block) : List (Write Nat Block) :=
  if l.lh.n > 0 then
    write_log l.start cache l.lh ++ [write_head l.start l.lh] ++ install_trans l.start l.lh ++
      [write_head l.start LogHeader.empty]
  else []

/-- `recover_from_log`'s disk writes: `read_head` decides them from the
header it finds on disk `d`. -/
def recover_from_log (start : Nat) (d : Disk) : List (Write Nat Block) :=
  install_trans start (LogHeader.decode (d start)) ++ [write_head start LogHeader.empty]

attribute [grind] commit recover_from_log

end Xv6
