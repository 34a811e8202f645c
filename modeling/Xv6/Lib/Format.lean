/-
# `Xv6.Lib.Format` — numerals as digit loops print them, and format strings

A `printf` is two things: a loop over the format string that copies its
characters and hands each conversion to a renderer, and renderers of
numbers that produce their digits with a loop.

**Numerals.**  `Radix.fill b fuel x` is what
`do { buf[i++] = x % b; } while((x /= b) != 0)` leaves in `buf`, least
significant digit first.  Run with `x + 1` rounds of fuel (the fuel
`Nat.toDigits` gives its own loop), read backwards, it is
`Nat.toDigits b x` (`reverse_fill`).  `Radix.field b k x` is a field of
`k` digits, most significant first, as a loop that shifts the top digit
out `k` times prints it; for `x < b ^ k` it is `Nat.toDigits b x` with
zeros in front (`map_field`).  `Render.signed b v` is the numeral of an
integer, `-` in front when it is negative; in base ten it is Lean's
`toString` (`toList_toString`).

**Format strings.**  `Format.render pct conv` reads a format string: `pct`
and the character after it are one conversion, which `conv` renders from
the arguments it takes; a `pct` that ends the string is dropped; every
other character stands for itself.  `none` is a conversion without its
argument.

Nothing here names the program the format strings belong to.
-/
import Mathlib.Data.List.Basic
import Mathlib.Algebra.Group.Nat.Defs

namespace Radix

/-- The digits `do { buf[i++] = x % b; } while((x /= b) != 0)` leaves in
`buf`, least significant first, in at most `fuel` rounds. -/
def fill (b : Nat) : (fuel x : Nat) → List Nat
  | 0, _ => []
  | fuel + 1, x => x % b :: if x / b = 0 then [] else fill b fuel (x / b)

attribute [grind] fill

theorem lt_of_mem_fill {b : Nat} (hb : 0 < b) : ∀ {fuel x d : Nat}, d ∈ fill b fuel x → d < b
  | 0, _, _, h => by cases h
  | fuel + 1, x, d, h => by
    rw [fill, List.mem_cons] at h
    rcases h with rfl | h
    · exact Nat.mod_lt _ hb
    · split at h
      · cases h
      · exact lt_of_mem_fill hb h

/-- Read backwards, the loop's digits are those `Nat.toDigitsCore` puts
in front of `ds`: the two loops divide alike. -/
theorem reverse_fill_append (b : Nat) :
    ∀ fuel x ds, (fill b fuel x).reverse.map Nat.digitChar ++ ds = Nat.toDigitsCore b fuel x ds
  | 0, _, _ => rfl
  | fuel + 1, x, ds => by
    rw [fill, Nat.toDigitsCore]
    split
    · simp
    · rw [List.reverse_cons, List.map_append, List.append_assoc, List.map_singleton,
        List.singleton_append, reverse_fill_append]

theorem reverse_fill (b x : Nat) : (fill b (x + 1) x).reverse.map Nat.digitChar = Nat.toDigits b x := by
  have h := reverse_fill_append b (x + 1) x []
  rw [List.append_nil] at h
  exact h

/-- A field of `k` digits of `x` in base `b`, most significant first: the
low `k` digits of `x`, zeros in front. -/
def field (b : Nat) : (k x : Nat) → List Nat
  | 0, _ => []
  | k + 1, x => field b k (x / b) ++ [x % b]

attribute [grind] field

theorem lt_of_mem_field {b : Nat} (hb : 0 < b) : ∀ {k x d : Nat}, d ∈ field b k x → d < b
  | 0, _, _, h => by cases h
  | k + 1, x, d, h => by
    rw [field, List.mem_append, List.mem_singleton] at h
    rcases h with h | rfl
    · exact lt_of_mem_field hb h
    · exact Nat.mod_lt _ hb

/-- The field from its first digit on, as a loop printing the top digit
first reads it. -/
theorem field_succ' (b : Nat) : ∀ k x, field b (k + 1) x = x / b ^ k % b :: field b k (x % b ^ k) := by
  intro k
  induction k with
  | zero =>
    intro x
    simp only [field, Nat.pow_zero, Nat.div_one, List.nil_append]
  | succ k ih =>
    intro x
    have hpow : b ^ (k + 1) = b * b ^ k := Nat.pow_succ'
    rw [field, ih (x / b)]
    conv_rhs => rw [field]
    rw [List.cons_append, Nat.div_div_eq_div_mul, ← hpow, hpow, Nat.mod_mul_right_div_self,
      Nat.mod_mod_of_dvd x (Nat.dvd_mul_right b (b ^ k))]

/-- A field wide enough for `x` prints `Nat.toDigits b x` with zeros in
front; by induction on the width, one digit a round. -/
theorem map_field {b : Nat} (hb : 1 < b) :
    ∀ k x, x < b ^ (k + 1) → (field b (k + 1) x).map Nat.digitChar = List.leftpad (k + 1) '0' (Nat.toDigits b x) := by
  intro k
  induction k with
  | zero =>
    intro x hx
    have hxb : x < b := by rwa [Nat.zero_add, Nat.pow_one] at hx
    simp only [field, List.nil_append, List.map_cons, List.map_nil, Nat.toDigits_of_lt_base hxb,
      Nat.mod_eq_of_lt hxb, List.leftpad, List.length_singleton, Nat.sub_self, List.replicate_zero]
  | succ k ih =>
    intro x hx
    have hx' : x / b < b ^ (k + 1) := Nat.div_lt_of_lt_mul (by rwa [← Nat.pow_succ'])
    rw [field, List.map_append, ih (x / b) hx']
    by_cases hxb : x < b
    · -- one digit: the rest of the field is zeros
      rw [Nat.toDigits_of_lt_base hxb, Nat.div_eq_of_lt hxb, Nat.toDigits_zero, Nat.mod_eq_of_lt hxb]
      simp only [List.leftpad, List.length_singleton, List.map_cons, List.map_nil, Nat.add_sub_cancel,
        ← List.replicate_succ']
    · rw [Nat.toDigits_of_base_le hb (show b ≤ x by omega)]
      simp only [List.leftpad, List.length_append, List.length_singleton, Nat.add_sub_add_right,
        List.append_assoc, List.map_cons, List.map_nil]

end Radix

namespace Render

/-- The numeral of `v` in base `b`: `-` before the digits of `|v|` when
`v` is negative. -/
def signed (b : Nat) (v : Int) : List Char :=
  (if v < 0 then ['-'] else []) ++ Nat.toDigits b v.natAbs

attribute [grind] signed

/-- In base ten, Lean's own rendering of an integer. -/
theorem toList_toString (v : Int) : (toString v).toList = signed 10 v := by
  rw [Int.toString_eq_repr, Int.repr_eq_if, signed]
  split
  · rename_i hv
    rw [if_neg (by omega), Nat.toList_repr, List.nil_append]
    congr 1
    omega
  · rename_i hv
    rw [if_pos (by omega), String.toList_append, Nat.toList_repr]
    congr 2
    omega

end Render

namespace Format

variable {α A : Type} [DecidableEq α]

/-- A format string read left to right: `pct` and the character after it
are a conversion that `conv` renders, taking its arguments; a `pct` at the
end is dropped; any other character stands for itself. -/
def render (pct : α) (conv : α → List A → Option (List α × List A)) : List α → List A → Option (List α)
  | [], _ => some []
  | c :: fmt, args =>
    if c = pct then
      match fmt with
      | [] => some []
      | d :: fmt => (conv d args).bind fun r => (render pct conv fmt r.2).map (r.1 ++ ·)
    else (render pct conv fmt args).map (c :: ·)

attribute [grind] render

section Equations

variable (pct : α) (conv : α → List A → Option (List α × List A))

@[simp] theorem render_nil (args : List A) : render pct conv [] args = some [] := rfl

@[simp] theorem render_pct_nil (args : List A) : render pct conv [pct] args = some [] := by
  simp [render]

@[simp] theorem render_pct_cons (d : α) (fmt : List α) (args : List A) :
    render pct conv (pct :: d :: fmt) args =
      (conv d args).bind fun r => (render pct conv fmt r.2).map (r.1 ++ ·) := by
  simp [render]

theorem render_cons {c : α} (hc : c ≠ pct) (fmt : List α) (args : List A) :
    render pct conv (c :: fmt) args = (render pct conv fmt args).map (c :: ·) := by
  conv_lhs => rw [render.eq_def]
  dsimp only
  rw [if_neg hc]

/-- A piece of the format with no `pct` in it is printed as it stands. -/
theorem render_append_of_not_mem {s : List α} (hs : pct ∉ s) (t : List α) (args : List A) :
    render pct conv (s ++ t) args = (render pct conv t args).map (s ++ ·) := by
  induction s with
  | nil => simp
  | cons c s ih =>
    rw [List.mem_cons, not_or] at hs
    rw [List.cons_append, render_cons pct conv (Ne.symm hs.1), ih hs.2, Option.map_map]
    rfl

end Equations

end Format
