/-
# `Xv6.Lib.Ring` — the window of a ring buffer

A ring of `cap` cells holds a window of `n` cells that starts at position
`r`; cell `k` of the window is cell `(r + k) mod cap` of the ring.  The
abstraction `window data r n` reads the window off as a list, first cell
first.

**Provided.**

    window_succ      the first cell, then the window that starts one later
    window_mod       the start matters only modulo cap, so counters that
                     wrap at a multiple of cap read the same window
    window_push      while n < cap, writing the cell just past the window
                     appends it, and leaves the window's cells alone
    window_concat    the window is the one a cell shorter, then its last cell

A ring whose size divides `2^32` is often run by `uint` counters that only
grow and wrap: the cells in use are those from counter `lo` up to counter
`hi` (`between`), each at its counter modulo the size.

    between_push     writing at `hi` and advancing it appends the cell
    between_pop      the cell at `lo` is the first; advancing `lo` drops it
    between_unpush   stepping `hi` back drops the last cell

`between16`, `between16_push` and `between16_pop` are the same for
`uint16` counters and a size that divides `2^16`.

Nothing here names the program the ring belongs to.
-/
import Mathlib.Data.Nat.ModEq
import Mathlib.Data.Fin.Basic
import Mathlib.Data.UInt

namespace Ring

variable {α : Type} {cap : Nat} [NeZero cap]

/-- The `n` cells of a ring of `cap` cells from position `r`. -/
def window (data : Fin cap → α) (r n : Nat) : List α :=
  (List.range n).map fun k => data (Fin.ofNat cap (r + k))

attribute [grind] window

variable {data : Fin cap → α} {r n : Nat}

@[simp] theorem length_window : (window data r n).length = n := by
  simp [window]

@[simp] theorem window_zero : window data r 0 = [] := rfl

theorem window_succ : window data r (n + 1) = data (Fin.ofNat cap r) :: window data (r + 1) n := by
  simp only [window, List.range_succ_eq_map, List.map_cons, List.map_map, Nat.add_zero]
  congr 1
  refine List.map_congr_left fun k _ => ?_
  simp only [Function.comp_apply, Nat.add_assoc, Nat.add_comm 1 k]

theorem window_mod {r' : Nat} (h : r % cap = r' % cap) : window data r n = window data r' n := by
  refine List.map_congr_left fun k _ => ?_
  congr 1
  exact Fin.ext (by simp [Nat.add_mod, h])

/-- Two cells of one window, less than `cap` apart, are different cells. -/
theorem ofNat_add_ne {k : Nat} (hk : k < n) (hn : n < cap) :
    Fin.ofNat cap (r + k) ≠ Fin.ofNat cap (r + n) := by
  intro h
  have hmod : r + k ≡ r + n [MOD cap] := by
    have hv := congrArg Fin.val h
    simp only [Fin.val_ofNat] at hv
    exact hv
  have := Nat.ModEq.eq_of_lt_of_lt (Nat.ModEq.add_left_cancel' r hmod) (by omega) hn
  omega

theorem window_push {b : α} (hn : n < cap) :
    window (Function.update data (Fin.ofNat cap (r + n)) b) r (n + 1) = window data r n ++ [b] := by
  simp only [window, List.range_succ, List.map_append, List.map_cons, List.map_nil,
    Function.update_self]
  congr 1
  refine List.map_congr_left fun k hk => ?_
  exact Function.update_of_ne (ofNat_add_ne (List.mem_range.mp hk) hn) _ _

/-- A window is the one a cell shorter, then its last cell. -/
theorem window_concat : window data r (n + 1) = window data r n ++ [data (Fin.ofNat cap (r + n))] := by
  simp [window, List.range_succ]

/-! ## Between two `uint` counters -/

section Counter32

/-- The cells from counter `lo` up to counter `hi`. -/
def between (data : Fin cap → α) (lo hi : UInt32) : List α :=
  window data lo.toNat (hi - lo).toNat

attribute [grind] between

variable {lo hi : UInt32}

@[simp] theorem length_between : (between data lo hi).length = (hi - lo).toNat :=
  length_window

/-- The cell of counter `hi` is the cell `(hi - lo)` after that of `lo`. -/
theorem ofNat_hi (lo : UInt32) (hdvd : cap ∣ 2 ^ 32) :
    Fin.ofNat cap hi.toNat = Fin.ofNat cap (lo.toNat + (hi - lo).toNat) := by
  have hlo := lo.toNat_lt
  have hhi := hi.toNat_lt
  have h : (lo.toNat + (hi - lo).toNat) % 2 ^ 32 = hi.toNat := by
    rw [UInt32.toNat_sub]
    omega
  ext
  simp only [Fin.val_ofNat]
  rw [← h, Nat.mod_mod_of_dvd _ hdvd]

theorem between_push {b : α} (hdvd : cap ∣ 2 ^ 32) (hlt : cap < 2 ^ 32) (hn : (hi - lo).toNat < cap) :
    between (Function.update data (Fin.ofNat cap hi.toNat) b) lo (hi + 1) = between data lo hi ++ [b] := by
  have hlo := lo.toNat_lt
  have hhi := hi.toNat_lt
  -- one more cell, not wrapping: the count stays below the size
  have hcount : (hi + 1 - lo).toNat = (hi - lo).toNat + 1 := by
    rw [UInt32.toNat_sub, UInt32.toNat_sub, UInt32.toNat_add] at *
    simp only [UInt32.toNat_one]
    omega
  rw [between, hcount, ofNat_hi lo hdvd, window_push hn, between]

theorem between_pop (hdvd : cap ∣ 2 ^ 32) (h : lo ≠ hi) :
    between data lo hi = data (Fin.ofNat cap lo.toNat) :: between data (lo + 1) hi := by
  have hlo := lo.toNat_lt
  have hhi := hi.toNat_lt
  have hne : lo.toNat ≠ hi.toNat := fun h' => h (UInt32.toNat_inj.mp h')
  obtain ⟨k, hk⟩ : ∃ k, (hi - lo).toNat = k + 1 := ⟨(hi - lo).toNat - 1, by rw [UInt32.toNat_sub]; omega⟩
  have hk' : (hi - (lo + 1)).toNat = k := by
    rw [UInt32.toNat_sub] at hk ⊢
    rw [UInt32.toNat_add, UInt32.toNat_one]
    omega
  -- the window that starts one later starts at `lo + 1` modulo the size
  have hmod : (lo.toNat + 1) % cap = (lo + 1).toNat % cap := by
    rw [UInt32.toNat_add, UInt32.toNat_one, Nat.mod_mod_of_dvd _ hdvd]
  rw [between, hk, window_succ, between, hk', window_mod hmod]

theorem between_unpush (hdvd : cap ∣ 2 ^ 32) (h : lo ≠ hi) :
    between data lo hi = between data lo (hi - 1) ++ [data (Fin.ofNat cap (hi - 1).toNat)] := by
  have hlo := lo.toNat_lt
  have hhi := hi.toNat_lt
  have hne : lo.toNat ≠ hi.toNat := fun h' => h (UInt32.toNat_inj.mp h')
  obtain ⟨k, hk⟩ : ∃ k, (hi - lo).toNat = k + 1 := ⟨(hi - lo).toNat - 1, by rw [UInt32.toNat_sub]; omega⟩
  have hk' : (hi - 1 - lo).toNat = k := by
    rw [UInt32.toNat_sub] at hk ⊢
    rw [UInt32.toNat_sub, UInt32.toNat_one]
    omega
  rw [between, hk, window_concat, between, hk', ofNat_hi lo hdvd, hk']

end Counter32

/-! ## Between two `uint16` counters

The same for a ring whose size divides `2^16`, run by `uint16` counters. -/

section Counter16

/-- The cells from `uint16` counter `lo` up to counter `hi`. -/
def between16 (data : Fin cap → α) (lo hi : UInt16) : List α :=
  window data lo.toNat (hi - lo).toNat

attribute [grind] between16

variable {lo hi : UInt16}

@[simp] theorem length_between16 : (between16 data lo hi).length = (hi - lo).toNat :=
  length_window

@[simp] theorem between16_self : between16 data lo lo = [] := by
  simp [between16]

theorem ofNat_hi16 (lo : UInt16) (hdvd : cap ∣ 2 ^ 16) :
    Fin.ofNat cap hi.toNat = Fin.ofNat cap (lo.toNat + (hi - lo).toNat) := by
  have hlo := lo.toNat_lt
  have hhi := hi.toNat_lt
  have h : (lo.toNat + (hi - lo).toNat) % 2 ^ 16 = hi.toNat := by
    rw [UInt16.toNat_sub]
    omega
  ext
  simp only [Fin.val_ofNat]
  rw [← h, Nat.mod_mod_of_dvd _ hdvd]

theorem between16_push {b : α} (hdvd : cap ∣ 2 ^ 16) (hlt : cap < 2 ^ 16) (hn : (hi - lo).toNat < cap) :
    between16 (Function.update data (Fin.ofNat cap hi.toNat) b) lo (hi + 1) = between16 data lo hi ++ [b] := by
  have hlo := lo.toNat_lt
  have hhi := hi.toNat_lt
  -- one more cell, not wrapping: the count stays below the size
  have hcount : (hi + 1 - lo).toNat = (hi - lo).toNat + 1 := by
    rw [UInt16.toNat_sub, UInt16.toNat_sub, UInt16.toNat_add] at *
    simp only [UInt16.toNat_one]
    omega
  rw [between16, hcount, ofNat_hi16 lo hdvd, window_push hn, between16]

theorem between16_pop (hdvd : cap ∣ 2 ^ 16) (h : lo ≠ hi) :
    between16 data lo hi = data (Fin.ofNat cap lo.toNat) :: between16 data (lo + 1) hi := by
  have hlo := lo.toNat_lt
  have hhi := hi.toNat_lt
  have hne : lo.toNat ≠ hi.toNat := fun h' => h (UInt16.toNat_inj.mp h')
  obtain ⟨k, hk⟩ : ∃ k, (hi - lo).toNat = k + 1 := ⟨(hi - lo).toNat - 1, by rw [UInt16.toNat_sub]; omega⟩
  have hk' : (hi - (lo + 1)).toNat = k := by
    rw [UInt16.toNat_sub] at hk ⊢
    rw [UInt16.toNat_add, UInt16.toNat_one]
    omega
  -- the window that starts one later starts at `lo + 1` modulo the size
  have hmod : (lo.toNat + 1) % cap = (lo + 1).toNat % cap := by
    rw [UInt16.toNat_add, UInt16.toNat_one, Nat.mod_mod_of_dvd _ hdvd]
  rw [between16, hk, window_succ, between16, hk', window_mod hmod]

end Counter16

end Ring
