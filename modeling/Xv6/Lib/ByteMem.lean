/-
# `Xv6.Lib.ByteMem` — a byte memory and the little-endian words in it

A memory is a function `Nat → UInt8` from addresses to bytes.  A word of
`n` bytes at `a` is read least significant byte first (`value`) and
written the same way (`put`); `load64` and `store64` are the eight-byte
case.  `fill` writes one byte value over a range.

**Provided.**

    value_congr            a word depends only on its own bytes
    value_put              writing `x` and reading it back gives `x`
                           modulo the word's range
    load64_store64         a stored word reads back
    load64_store64_of_disjoint, load64_fill_of_disjoint
                           writes elsewhere leave a word alone
    load64_fill_zero       a word inside a range filled with zeros is 0
    fill_fill              a second fill of a range hides the first
    load64_congr           a word depends only on its eight bytes
    toNat_and_not          masking off the low `k` bits of a 64-bit word
                           rounds it down to a multiple of `2 ^ k`
    toNat_field, toNat_move, toNat_or_low, and_low
                           fields of a word: extracted, moved, and joined
                           with low bits

Nothing here names the program the memory belongs to.
-/
import Mathlib.Data.Nat.ModEq
import Mathlib.Data.Nat.Bitwise
import Mathlib.Data.UInt

namespace ByteMem

/-- The number the `n` bytes from `a` spell, least significant first. -/
def value (m : Nat → UInt8) (a : Nat) : Nat → Nat
  | 0 => 0
  | n + 1 => (m a).toNat + 256 * value m (a + 1) n

/-- The `n` bytes of `x` written from `a`, least significant first. -/
def put (m : Nat → UInt8) (a n x : Nat) : Nat → UInt8 :=
  fun y => if a ≤ y ∧ y < a + n then UInt8.ofNat (x / 256 ^ (y - a)) else m y

/-- The byte `v` written over the `n` bytes from `a`. -/
def fill (m : Nat → UInt8) (a n : Nat) (v : UInt8) : Nat → UInt8 :=
  fun y => if a ≤ y ∧ y < a + n then v else m y

/-- The 64-bit word at `a`. -/
def load64 (m : Nat → UInt8) (a : Nat) : UInt64 :=
  UInt64.ofNat (value m a 8)

/-- `v` stored as the 64-bit word at `a`. -/
def store64 (m : Nat → UInt8) (a : Nat) (v : UInt64) : Nat → UInt8 :=
  put m a 8 v.toNat

attribute [grind] value put fill load64 store64

variable {m m' : Nat → UInt8}

theorem value_congr : ∀ {a n : Nat}, (∀ i < n, m (a + i) = m' (a + i)) → value m a n = value m' a n
  | _, 0, _ => rfl
  | a, n + 1, h => by
    have h0 := h 0 (Nat.succ_pos n)
    have hrest : ∀ i < n, m (a + 1 + i) = m' (a + 1 + i) := fun i hi => by
      rw [Nat.add_assoc, Nat.add_comm 1 i]
      exact h (i + 1) (Nat.succ_lt_succ hi)
    rw [Nat.add_zero] at h0
    rw [value, value, h0, value_congr hrest]

/-- A word of the memory that is zero everywhere is 0. -/
theorem value_zero : ∀ (a n : Nat), value (fun _ => 0) a n = 0
  | _, 0 => rfl
  | a, n + 1 => by
    rw [value, value_zero (a + 1) n]
    rfl

/-- Reading back from `k` bytes into what `put` wrote: the digits of `x`
from the `k`-th on.  By induction on the bytes read. -/
theorem value_put {a N x : Nat} (n : Nat) : ∀ {k : Nat}, k + n ≤ N → value (put m a N x) (a + k) n = x / 256 ^ k % 256 ^ n := by
  induction n with
  | zero =>
    intro k _
    rw [value, Nat.pow_zero, Nat.mod_one]
  | succ n ih =>
    intro k h
    have hbyte : put m a N x (a + k) = UInt8.ofNat (x / 256 ^ k) := by
      rw [put, if_pos ⟨Nat.le_add_right a k, by omega⟩, Nat.add_sub_cancel_left]
    have hrest := ih (k := k + 1) (by omega)
    rw [← Nat.add_assoc] at hrest
    -- the next digits are those of `x / 256 ^ k` after its lowest one
    have hsplit : x / 256 ^ k % 256 ^ (n + 1) = x / 256 ^ k % 256 + 256 * (x / 256 ^ k / 256 % 256 ^ n) := by
      rw [Nat.pow_succ, Nat.mul_comm, Nat.mod_mul]
    have hdiv : x / 256 ^ (k + 1) = x / 256 ^ k / 256 := by
      rw [Nat.pow_succ, Nat.div_div_eq_div_mul]
    rw [value, hbyte, hrest, UInt8.toNat_ofNat', hsplit, hdiv]

theorem value_lt (a n : Nat) : value m a n < 256 ^ n := by
  induction n generalizing a with
  | zero => exact Nat.one_pos
  | succ n ih =>
    have hb := (m a).toNat_lt
    have hrest := ih (a + 1)
    rw [value, Nat.pow_succ]
    omega

theorem put_of_not_mem {a n x y : Nat} (h : y < a ∨ a + n ≤ y) : put m a n x y = m y := by
  rw [put, if_neg (by omega)]

theorem fill_of_not_mem {a n y : Nat} {v : UInt8} (h : y < a ∨ a + n ≤ y) : fill m a n v y = m y := by
  rw [fill, if_neg (by omega)]

theorem fill_of_mem {a n y : Nat} {v : UInt8} (h : a ≤ y ∧ y < a + n) : fill m a n v y = v := by
  rw [fill, if_pos h]

/-- A fill over a fill of the same range leaves only the second. -/
theorem fill_fill (m : Nat → UInt8) (a n : Nat) (v w : UInt8) : fill (fill m a n v) a n w = fill m a n w := by
  funext y
  by_cases hy : a ≤ y ∧ y < a + n
  · rw [fill_of_mem hy, fill_of_mem hy]
  · rw [fill_of_not_mem (by omega), fill_of_not_mem (by omega), fill_of_not_mem (by omega)]

theorem load64_congr {a : Nat} (h : ∀ i < 8, m (a + i) = m' (a + i)) : load64 m a = load64 m' a := by
  rw [load64, load64, value_congr h]

theorem load64_store64 (m : Nat → UInt8) (a : Nat) (v : UInt64) : load64 (store64 m a v) a = v := by
  have h := value_put (m := m) (a := a) (N := 8) (x := v.toNat) 8 (k := 0) le_rfl
  have h64 : (256 : Nat) ^ 8 = 2 ^ 64 := rfl
  rw [Nat.add_zero, Nat.pow_zero, Nat.div_one, h64] at h
  rw [load64, store64, h, Nat.mod_eq_of_lt v.toNat_lt, UInt64.ofNat_toNat]

theorem load64_store64_of_disjoint {a b : Nat} (v : UInt64) (h : a + 8 ≤ b ∨ b + 8 ≤ a) :
    load64 (store64 m a v) b = load64 m b := by
  rw [load64, load64, store64, value_congr fun i hi => put_of_not_mem (by omega)]

theorem load64_fill_of_disjoint {a n b : Nat} (v : UInt8) (h : a + n ≤ b ∨ b + 8 ≤ a) :
    load64 (fill m a n v) b = load64 m b := by
  rw [load64, load64, value_congr fun i hi => fill_of_not_mem (by omega)]

theorem load64_fill_zero {a n b : Nat} (h : a ≤ b) (h' : b + 8 ≤ a + n) : load64 (fill m a n 0) b = 0 := by
  have hz : value (fill m a n 0) b 8 = value (fun _ => 0) b 8 :=
    value_congr fun i hi => fill_of_mem (by omega)
  rw [load64, hz, value_zero]
  rfl

/-! ## Aligned addresses -/

/-- Masking off the low `k` bits of a word rounds it down to a multiple of
`2 ^ k`. -/
theorem toNat_and_not (x m : UInt64) {k : Nat} (hm : m.toNat = 2 ^ k - 1) (hk : k ≤ 64) :
    (x &&& ~~~m).toNat = x.toNat / 2 ^ k * 2 ^ k := by
  have hx := x.toNat_lt
  -- the complement of the mask is the bits from `k` to `63`
  have hmask : UInt64.size - 1 - m.toNat = (2 ^ (64 - k) - 1) * 2 ^ k := by
    have h1 : 2 ^ (64 - k) * 2 ^ k = UInt64.size := by
      rw [← Nat.pow_add, Nat.sub_add_cancel hk]
    have h2 : 1 ≤ 2 ^ k := Nat.one_le_two_pow
    rw [hm, Nat.sub_one_mul, h1]
    omega
  rw [UInt64.toNat_and, UInt64.toNat_not, hmask]
  apply Nat.eq_of_testBit_eq
  intro j
  rw [Nat.testBit_and, Nat.testBit_mul_two_pow, Nat.testBit_mul_two_pow, Nat.testBit_two_pow_sub_one,
    Nat.testBit_div_two_pow]
  by_cases hj : k ≤ j
  · rw [Nat.sub_add_cancel hj]
    by_cases hj' : j < 64
    · have : j - k < 64 - k := by omega
      simp [hj, this]
    · -- above the word's 64 bits both sides are 0
      have : x.toNat.testBit j = false :=
        Nat.testBit_lt_two_pow (Nat.lt_of_lt_of_le hx (Nat.pow_le_pow_right (by decide) (by omega)))
      simp [hj, this]
  · simp [hj]

/-! ## Fields of a word -/

/-- The `k`-bit field of a word from bit `s` on. -/
theorem toNat_field (x s m : UInt64) {k : Nat} (hs : s.toNat < 64) (hm : m.toNat = 2 ^ k - 1) :
    ((x >>> s) &&& m).toNat = x.toNat / 2 ^ s.toNat % 2 ^ k := by
  rw [UInt64.toNat_and, UInt64.toNat_shiftRight, Nat.mod_eq_of_lt hs, hm, Nat.shiftRight_eq_div_pow,
    Nat.and_two_pow_sub_one_eq_mod]

/-- The bits of a word from `s` on, moved to bit `t`, as long as they fit. -/
theorem toNat_move (x s t : UInt64) (hs : s.toNat < 64) (ht : t.toNat < 64)
    (hfit : x.toNat / 2 ^ s.toNat * 2 ^ t.toNat < 2 ^ 64) :
    ((x >>> s) <<< t).toNat = x.toNat / 2 ^ s.toNat * 2 ^ t.toNat := by
  rw [UInt64.toNat_shiftLeft, UInt64.toNat_shiftRight, Nat.mod_eq_of_lt hs, Nat.mod_eq_of_lt ht,
    Nat.shiftRight_eq_div_pow, Nat.shiftLeft_eq, Nat.mod_eq_of_lt hfit]

/-- Low bits joined below a multiple of `2 ^ b` are added to it. -/
theorem toNat_or_low (y f : UInt64) {b : Nat} (hy : y.toNat % 2 ^ b = 0) (hf : f.toNat < 2 ^ b) :
    (y ||| f).toNat = y.toNat + f.toNat := by
  have hq : y.toNat = 2 ^ b * (y.toNat / 2 ^ b) := (Nat.mul_div_cancel' (Nat.dvd_of_mod_eq_zero hy)).symm
  rw [UInt64.toNat_or, hq, ← Nat.two_pow_add_eq_or_of_lt hf]

/-- Below bit `b`, a word joined from a multiple of `2 ^ b` and low bits `f`
has the bits of `f`. -/
theorem and_low (y f m : UInt64) {b : Nat} (hy : y.toNat % 2 ^ b = 0) (hm : m.toNat < 2 ^ b) :
    (y ||| f) &&& m = f &&& m := by
  apply UInt64.toNat_inj.mp
  rw [UInt64.toNat_and, UInt64.toNat_and, UInt64.toNat_or]
  apply Nat.eq_of_testBit_eq
  intro i
  rw [Nat.testBit_and, Nat.testBit_and, Nat.testBit_or]
  by_cases hi : i < b
  · -- below bit `b` only the low part has bits
    have hq : y.toNat = 2 ^ b * (y.toNat / 2 ^ b) := (Nat.mul_div_cancel' (Nat.dvd_of_mod_eq_zero hy)).symm
    have : y.toNat.testBit i = false := by
      rw [hq, Nat.testBit_two_pow_mul, decide_eq_false (Nat.not_le.mpr hi), Bool.false_and]
    rw [this, Bool.false_or]
  · have : m.toNat.testBit i = false :=
      Nat.testBit_lt_two_pow (Nat.lt_of_lt_of_le hm (Nat.pow_le_pow_right (by decide) (by omega)))
    rw [this, Bool.and_false, Bool.and_false]

end ByteMem
