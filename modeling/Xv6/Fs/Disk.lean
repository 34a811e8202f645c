/-
# `Xv6.Fs.Disk` — blocks and the disk

A block is `uchar data[BSIZE]`; the disk maps every block number to its
contents, and one `bwrite` (a `virtio_disk_rw` of one buffer) replaces one
block atomically.  On-disk structures are read and written through a
block's bytes: a C `int` or `uint` field is four bytes, least significant
first (RISC-V is little-endian).

**Provided.**  `getU32` and `setU32` with the laws every decoder here
uses: reading back what was set (`getU32_setU32_self`), reading elsewhere
(`getU32_setU32_of_disjoint`), and storing what is there
(`setU32_getU32`).
-/
import Xv6.Kernel.Param
import Xv6.Lib.Writes

namespace Xv6

/-- The contents of one disk block. -/
def Block := Fin BSIZE → UInt8

/-- The disk: the contents of every block number. -/
abbrev Disk := Nat → Block

namespace Block

/-- Byte `k` of the block, `0` past its end. -/
def get (b : Block) (k : Nat) : UInt8 :=
  if h : k < BSIZE then b ⟨k, h⟩ else 0

/-- The `uint` stored at byte offset `off`. -/
def getU32 (b : Block) (off : Nat) : Nat :=
  (b.get off).toNat + 256 * (b.get (off + 1)).toNat + 65536 * (b.get (off + 2)).toNat +
    16777216 * (b.get (off + 3)).toNat

/-- The `int` stored at byte offset `off`: the same four bytes, two's complement. -/
def getInt (b : Block) (off : Nat) : Int :=
  if b.getU32 off < 2 ^ 31 then b.getU32 off else b.getU32 off - 2 ^ 32

/-- Store `v` (mod `2^32`) as a `uint` at byte offset `off`. -/
def setU32 (b : Block) (off v : Nat) : Block := fun i =>
  if off ≤ i.val ∧ i.val < off + 4 then UInt8.ofNat (v / 256 ^ (i.val - off) % 256) else b i

attribute [grind] get getU32 getInt

theorem getU32_lt (b : Block) (off : Nat) : b.getU32 off < 2 ^ 32 := by
  have h0 := (b.get off).toNat_lt
  have h1 := (b.get (off + 1)).toNat_lt
  have h2 := (b.get (off + 2)).toNat_lt
  have h3 := (b.get (off + 3)).toNat_lt
  simp only [getU32, Nat.reducePow] at *
  omega

/-- The `int` is `0` exactly when its four bytes are. -/
theorem getInt_eq_zero_iff (b : Block) (off : Nat) : b.getInt off = 0 ↔ b.getU32 off = 0 := by
  have hlt := b.getU32_lt off
  unfold getInt
  split <;> omega

theorem get_setU32 (b : Block) (off v k : Nat) :
    (b.setU32 off v).get k =
      if off ≤ k ∧ k < off + 4 ∧ k < BSIZE then UInt8.ofNat (v / 256 ^ (k - off) % 256)
      else b.get k := by
  unfold get setU32
  by_cases hk : k < BSIZE
  · simp only [hk, dite_true, and_true]
  · simp [hk]

/-- Reading back a `uint` just stored. -/
theorem getU32_setU32_self (b : Block) (off v : Nat) (h : off + 4 ≤ BSIZE) :
    (b.setU32 off v).getU32 off = v % 2 ^ 32 := by
  have hB : BSIZE = 1024 := rfl
  simp only [getU32, get_setU32]
  rw [if_pos (by omega), if_pos (by omega), if_pos (by omega), if_pos (by omega)]
  have e1 : off + 1 - off = 1 := by omega
  have e2 : off + 2 - off = 2 := by omega
  have e3 : off + 3 - off = 3 := by omega
  rw [e1, e2, e3, Nat.sub_self]
  simp only [UInt8.toNat_ofNat', Nat.pow_zero, Nat.pow_one, Nat.div_one, Nat.reducePow, Nat.mod_mod]
  omega

/-- A `uint` stored elsewhere does not change the one at `off'`. -/
theorem getU32_setU32_of_disjoint (b : Block) (off off' v : Nat)
    (h : off' + 4 ≤ off ∨ off + 4 ≤ off') : (b.setU32 off v).getU32 off' = b.getU32 off' := by
  simp only [getU32, get_setU32]
  rw [if_neg (by omega), if_neg (by omega), if_neg (by omega), if_neg (by omega)]

/-- Storing the `uint` already there changes nothing. -/
theorem setU32_getU32 (b : Block) (off : Nat) (h : off + 4 ≤ BSIZE) :
    b.setU32 off (b.getU32 off) = b := by
  funext i
  unfold setU32
  split
  · rename_i hi
    have hB : BSIZE = 1024 := rfl
    obtain ⟨k, hk, hik⟩ : ∃ k, k < 4 ∧ i.val = off + k := ⟨i.val - off, by omega, by omega⟩
    have hget : ∀ j, j < 4 → (b.get (off + j)).toNat < 256 := fun j _ => UInt8.toNat_lt _
    have h0 := hget 0 (by omega)
    have h1 := hget 1 (by omega)
    have h2 := hget 2 (by omega)
    have h3 := hget 3 (by omega)
    have hbi : b i = b.get (off + k) := by
      simp only [get, dif_pos (show off + k < BSIZE by omega)]
      congr 1
      exact Fin.ext hik
    rw [hbi, hik, Nat.add_sub_cancel_left]
    apply UInt8.toNat_inj.mp
    rw [UInt8.toNat_ofNat']
    simp only [getU32, Nat.add_zero] at *
    rcases (by omega : k = 0 ∨ k = 1 ∨ k = 2 ∨ k = 3) with rfl | rfl | rfl | rfl <;>
      simp only [Nat.add_zero, Nat.pow_zero, Nat.pow_one, Nat.div_one, Nat.reducePow] <;> omega
  · rfl

end Block

end Xv6
