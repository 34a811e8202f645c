/-
# `Xv6.Kernel.Printf` — `printf` of `kernel/printf.c`

What `printf(fmt, ...)` passes to `consputc`, for the calls the kernel
model records (`Printf`: a format and its arguments).  The lock and the
`fmt == 0` panic do not change the characters and are left out; the
formats are the kernel's literals, so `fmt[i] & 0xff` is `fmt[i]`.

`printint` and `printptr` are written once (`printintWith`,
`printptrWith`) over the digit table of either `printf`: the user one of
`Xv6.User.Printf` prints capital letters.

**Proved here.**

    printintWith_eq     the digit loop prints `Render.signed` of the int,
                        or `Nat.toDigits` of it as a `uint`, through the
                        table
    printptrWith_eq     sixteen digits of the `uint64`, zeros in front
    printf_eq_render    the loop of `printf` reads its format as
                        `Format.render` does
    printf_renders      each conversion prints what `expected` says, and
                        `syscall`'s trace line is the line it means
-/
import Xv6.Lib.Format
import Xv6.Kernel.Syscall

namespace Xv6

/-! ## The number printers of both `printf`s -/

section Printers

variable {α : Type} [Inhabited α]

/-- `printint(xx, base, sign)`, with the table `digits` and the `'-'` of
the output: the digits of `x` go into `buf` least significant first, then
the `'-'`, and `buf` is printed from its end.  `x` is `-xx` as a `uint`
for a negative `xx` printed signed (so `INT_MIN` gives `2^31`), and `xx`
as a `uint` otherwise.  The loop makes at most `x + 1` rounds in every
base above `1`. -/
def printintWith (digits : List α) (minus : α) (xx : Int32) (base : Nat) (sign : Bool) : List α :=
  let neg := sign && decide (xx < 0)
  let x : UInt32 := if neg then (-xx).toUInt32 else xx.toUInt32
  let buf := (Radix.fill base (x.toNat + 1) x.toNat).map fun d => digits.getD d default
  (buf ++ if neg then [minus] else []).reverse

/-- The loop of `printptr(x)`: `digits[x >> 60]`, then `x <<= 4`, `k`
times. -/
def nibbles (digits : List α) : Nat → UInt64 → List α
  | 0, _ => []
  | k + 1, x => digits.getD (x >>> 60).toNat default :: nibbles digits k (x <<< 4)

/-- `printptr(x)`: `'0'`, `'x'`, and sixteen rounds of the loop. -/
def printptrWith (digits : List α) (zero ex : α) (x : UInt64) : List α :=
  zero :: ex :: nibbles digits 16 x

attribute [grind] nibbles printptrWith

/-- `|xx|` is the `uint` the code prints for it: `-xx` or `xx`. -/
theorem natAbs_toInt (xx : Int32) :
    xx.toInt.natAbs = if xx < 0 then (-xx).toUInt32.toNat else xx.toUInt32.toNat := by
  have hlt := xx.toBitVec.isLt
  have hint : xx.toInt = xx.toBitVec.toInt := rfl
  have hpos : xx.toUInt32.toNat = xx.toBitVec.toNat := rfl
  have hneg : (-xx).toUInt32.toNat = (-xx).toBitVec.toNat := rfl
  rw [Int32.toBitVec_neg, BitVec.toNat_neg] at hneg
  rw [BitVec.toInt_eq_toNat_cond] at hint
  have hsign : xx < 0 ↔ xx.toInt < 0 := by rw [Int32.lt_iff_toInt_lt, Int32.toInt_zero]
  by_cases h : xx < 0
  · rw [if_pos h, hneg]
    have := hsign.mp h
    split at hint <;> omega
  · rw [if_neg h, hpos]
    have := mt hsign.mpr h
    split at hint <;> omega

section Table

variable (f : Char → α) {digits : List α} {b : Nat}

/-- Through a table that agrees with `Nat.digitChar` on the digits of base
`b`, the loop prints `Nat.toDigits b n`. -/
theorem reverse_fill_table (hb : 0 < b) (hdigits : ∀ d < b, digits.getD d default = f d.digitChar)
    (n : Nat) :
    ((Radix.fill b (n + 1) n).map fun d => digits.getD d default).reverse = (Nat.toDigits b n).map f := by
  rw [← Radix.reverse_fill, List.map_map, ← List.map_reverse]
  exact List.map_congr_left fun d hd =>
    hdigits d (Radix.lt_of_mem_fill hb (List.mem_reverse.mp hd))

theorem printintWith_eq {minus : α} (hb : 1 < b)
    (hdigits : ∀ d < b, digits.getD d default = f d.digitChar) (hminus : minus = f '-')
    (xx : Int32) (sign : Bool) :
    printintWith digits minus xx b sign =
      (if sign then Render.signed b xx.toInt else Nat.toDigits b xx.toUInt32.toNat).map f := by
  have hbuf := reverse_fill_table f (by omega) hdigits
  unfold printintWith
  cases sign with
  | false =>
    simp only [Bool.false_and, Bool.false_eq_true, if_false, List.append_nil]
    exact hbuf _
  | true =>
    -- the sign of `xx` decides both the `'-'` and the `uint` printed
    have hsign : xx < 0 ↔ xx.toInt < 0 := by rw [Int32.lt_iff_toInt_lt, Int32.toInt_zero]
    by_cases h : xx < 0
    · simp only [Bool.true_and, decide_eq_true h, if_true]
      rw [List.reverse_append, hbuf, Render.signed, if_pos (hsign.mp h), natAbs_toInt, if_pos h,
        hminus, List.map_append]
      rfl
    · simp only [Bool.true_and, decide_eq_false h, Bool.false_eq_true, if_false, List.append_nil]
      rw [hbuf, Render.signed, if_neg (mt hsign.mpr h), natAbs_toInt, if_neg h, List.nil_append]
      rfl

/-- After `16 - k` shifts, the `k` rounds left print the top `k` hex digits
of what `x` was: by induction on `k`, one digit a round. -/
theorem nibbles_eq (digits : List α) : ∀ k, k ≤ 16 → ∀ x : UInt64,
    nibbles digits k x = (Radix.field 16 k (x.toNat / 16 ^ (16 - k))).map fun d => digits.getD d default
  | 0, _, _ => rfl
  | k + 1, hk, x => by
    have hx : x.toNat < 16 ^ 16 := by simpa using x.toNat_lt
    have hsplit : 16 ^ 15 = 16 ^ (15 - k) * 16 ^ k := by rw [← Nat.pow_add]; congr 1; omega
    have hshift : 16 ^ (16 - k) = 16 ^ (15 - k) * 16 := by rw [← Nat.pow_succ]; congr 1; omega
    -- the digit shifted out is the top one
    have htop : (x >>> 60).toNat = x.toNat / 16 ^ (16 - (k + 1)) / 16 ^ k % 16 := by
      rw [UInt64.toNat_shiftRight, show (60 : UInt64).toNat % 64 = 60 from rfl,
        Nat.shiftRight_eq_div_pow, show 16 - (k + 1) = 15 - k by omega, Nat.div_div_eq_div_mul,
        ← hsplit, show (2 : Nat) ^ 60 = 16 ^ 15 by norm_num,
        Nat.mod_eq_of_lt (Nat.div_lt_of_lt_mul (by rw [← Nat.pow_succ]; exact hx))]
    -- and what is left is the digits below it
    have h16 : 16 ^ 16 = 16 ^ (16 - k) * 16 ^ k := by rw [← Nat.pow_add]; congr 1; omega
    have hrest : (x <<< 4).toNat / 16 ^ (16 - k) = x.toNat / 16 ^ (16 - (k + 1)) % 16 ^ k := by
      rw [UInt64.toNat_shiftLeft, show (4 : UInt64).toNat % 64 = 4 from rfl, Nat.shiftLeft_eq,
        show (2 : Nat) ^ 4 = 16 from rfl, show (2 : Nat) ^ 64 = 16 ^ 16 by norm_num, h16,
        Nat.mod_mul_right_div_self, hshift, Nat.mul_div_mul_right _ _ (by norm_num),
        show 16 - (k + 1) = 15 - k by omega]
    rw [nibbles, nibbles_eq digits k (by omega) (x <<< 4), Radix.field_succ', List.map_cons, htop, hrest]

theorem printptrWith_eq (hdigits : ∀ d < 16, digits.getD d default = f d.digitChar) (zero ex : α)
    (x : UInt64) :
    printptrWith digits zero ex x = zero :: ex :: (List.leftpad 16 '0' (Nat.toDigits 16 x.toNat)).map f := by
  have hx : x.toNat < 16 ^ (15 + 1) := by simpa using x.toNat_lt
  -- the table agrees with `Nat.digitChar` on every digit of the field
  have htable : (Radix.field 16 16 x.toNat).map (fun d => digits.getD d default) =
      (Radix.field 16 16 x.toNat).map (f ∘ Nat.digitChar) :=
    List.map_congr_left fun d hd => hdigits d (Radix.lt_of_mem_field (by norm_num) hd)
  rw [printptrWith, nibbles_eq digits 16 le_rfl, Nat.sub_self, Nat.pow_zero, Nat.div_one, htable,
    ← Radix.map_field (by norm_num) 15 x.toNat hx, List.map_map]

end Table

end Printers

/-! ## `printf` -/

namespace Printf

/-- `digits[]`, `"0123456789abcdef"`. -/
def digits : List Char := "0123456789abcdef".toList

/-- `printint(xx, base, sign)`. -/
def printint (xx : Int32) (base : Nat) (sign : Bool) : List Char :=
  printintWith digits '-' xx base sign

/-- `printptr(x)`. -/
def printptr (x : UInt64) : List Char :=
  printptrWith digits '0' 'x' x

/-- `va_arg(ap, int)`; `none` when the next argument is not an `int`. -/
def vaInt : List PrintArg → Option (Int32 × List PrintArg)
  | .int v :: args => some (v, args)
  | _ => none

/-- `va_arg(ap, uint64)`. -/
def vaPtr : List PrintArg → Option (UInt64 × List PrintArg)
  | .ptr v :: args => some (v, args)
  | _ => none

/-- `va_arg(ap, char*)`: the string's characters, `none` for the null
pointer. -/
def vaStr : List PrintArg → Option (Option (List Char) × List PrintArg)
  | .str s :: args => some (some s, args)
  | .null :: args => some (none, args)
  | _ => none

/-- The `switch(c)` after a `%`: what it prints, and the arguments after
those it took. -/
def conversion (c : Char) (args : List PrintArg) : Option (List Char × List PrintArg) :=
  if c = 'd' then (vaInt args).map fun r => (printint r.1 10 true, r.2)
  else if c = 'x' then (vaInt args).map fun r => (printint r.1 16 true, r.2)
  else if c = 'p' then (vaPtr args).map fun r => (printptr r.1, r.2)
  else if c = 's' then (vaStr args).map fun r => ((r.1.getD "(null)".toList).takeWhile (· ≠ '\x00'), r.2)
  else if c = '%' then some (['%'], args)
  else some (['%', c], args)

/-- `printf(fmt, ...)`: the characters it passes to `consputc`, the format
read up to its NUL; `none` when a conversion finds no argument of its
type. -/
def printf : List Char → List PrintArg → Option (List Char)
  | [], _ => some []
  | c :: fmt, args =>
    if c = '\x00' then some []
    else if c ≠ '%' then (printf fmt args).map (c :: ·)
    else match fmt with
      | [] => some []
      | c :: fmt =>
        -- `c = fmt[++i]`: a NUL after the `%` ends the output
        if c = '\x00' then some []
        else (conversion c args).bind fun r => (printf fmt r.2).map (r.1 ++ ·)

attribute [grind] printint printptr vaInt vaPtr vaStr conversion

theorem printf_cons (c : Char) (fmt : List Char) (args : List PrintArg) :
    printf (c :: fmt) args =
      if c = '\x00' then some []
      else if c ≠ '%' then (printf fmt args).map (c :: ·)
      else match fmt with
        | [] => some []
        | c :: fmt =>
          if c = '\x00' then some []
          else (conversion c args).bind fun r => (printf fmt r.2).map (r.1 ++ ·) := by
  cases fmt <;> rfl

/-- What each conversion should print: numbers as `Xv6.Lib.Format`
renders them, and `none` when its argument is missing. -/
def expected : Char → List PrintArg → Option (List Char × List PrintArg)
  | 'd', .int v :: args => some ((toString v.toInt).toList, args)
  | 'x', .int v :: args => some (Render.signed 16 v.toInt, args)
  | 'p', .ptr v :: args => some ('0' :: 'x' :: List.leftpad 16 '0' (Nat.toDigits 16 v.toNat), args)
  | 's', .str s :: args => some (s.takeWhile (· ≠ '\x00'), args)
  | 's', .null :: args => some ("(null)".toList, args)
  | '%', args => some (['%'], args)
  | c, args => if c ∈ ['d', 'x', 'p', 's'] then none else some (['%', c], args)

attribute [grind] expected

theorem digits_getD : ∀ d < 16, digits.getD d default = id d.digitChar := by
  decide

theorem printint_eq (xx : Int32) (b : Nat) (hb : b = 10 ∨ b = 16) :
    printint xx b true = Render.signed b xx.toInt := by
  have hdigits : ∀ d < b, digits.getD d default = id d.digitChar := fun d hd =>
    digits_getD d (by omega)
  rw [printint, @printintWith_eq Char _ id digits b '-' (by omega) hdigits rfl xx true, if_pos rfl,
    List.map_id]

theorem printptr_eq (x : UInt64) :
    printptr x = '0' :: 'x' :: List.leftpad 16 '0' (Nat.toDigits 16 x.toNat) := by
  rw [printptr, printptrWith_eq id digits_getD, List.map_id]

/-- Each conversion prints what `expected` says; a case for each of the
`switch`, and its argument. -/
theorem conversion_eq_expected (c : Char) (args : List PrintArg) : conversion c args = expected c args := by
  by_cases hd : c = 'd'
  · subst hd
    cases args with
    | nil => rfl
    | cons a args =>
      cases a <;> simp [conversion, expected, vaInt, printint_eq _ 10 (.inl rfl), -Int.toString_eq_repr,
        Render.toList_toString]
  by_cases hx : c = 'x'
  · subst hx
    cases args with
    | nil => rfl
    | cons a args => cases a <;> simp [conversion, expected, vaInt, printint_eq _ 16 (.inr rfl)]
  by_cases hp : c = 'p'
  · subst hp
    cases args with
    | nil => rfl
    | cons a args => cases a <;> simp [conversion, expected, vaPtr, printptr_eq]
  by_cases hs : c = 's'
  · subst hs
    cases args with
    | nil => rfl
    | cons a args => cases a <;> simp [conversion, expected, vaStr]
  by_cases hpct : c = '%'
  · subst hpct
    rfl
  · simp [conversion, expected, hd, hx, hp, hs, hpct]

/-- The loop of `printf` reads the format up to its NUL as
`Format.render` does; by induction along the loop. -/
theorem printf_eq_render : ∀ fmt args,
    printf fmt args = Format.render '%' conversion (fmt.takeWhile (· ≠ '\x00')) args
  | [], _ => rfl
  | c :: fmt, args => by
    rw [printf_cons]
    by_cases h0 : c = '\x00'
    · simp [h0]
    by_cases hp : c = '%'
    · subst hp
      cases fmt with
      | nil => simp
      | cons d fmt =>
        by_cases hd : d = '\x00'
        · simp [hd]
        · simp [hd, printf_eq_render fmt]
    · simp [h0, hp, Format.render_cons _ _ hp, printf_eq_render fmt]

/-- `printf` prints each conversion as `expected` says, and every other
character of the format up to its NUL as it stands. -/
theorem printf_eq_expected (fmt : List Char) (args : List PrintArg) :
    printf fmt args = Format.render '%' expected (fmt.takeWhile (· ≠ '\x00')) args := by
  have hconv : conversion = expected := funext fun c => funext fun args => conversion_eq_expected c args
  rw [printf_eq_render, hconv]

/-- `syscall`'s trace line: the pid, `": syscall "`, the name up to its
NUL, `" -> "`, the return value as an `int`, and a newline. -/
theorem printf_traceLine (pid : Int32) (name : String) (v : UInt64) :
    printf (traceLine pid name v).fmt.toList (traceLine pid name v).args =
      some ((toString pid.toInt).toList ++ ": syscall ".toList ++ name.toList.takeWhile (· ≠ '\x00') ++
        " -> ".toList ++ (toString v.toUInt32.toInt32.toInt).toList ++ ['\n']) := by
  -- the format is three conversions between pieces that hold no `%`
  have hfmt : "%d: syscall %s -> %d\n".toList.takeWhile (· ≠ '\x00') =
      '%' :: 'd' :: (": syscall ".toList ++ '%' :: 's' :: (" -> ".toList ++ '%' :: 'd' :: ['\n'])) := by
    decide
  have hsys : '%' ∉ ": syscall ".toList := by decide
  have harrow : '%' ∉ " -> ".toList := by decide
  simp only [traceLine, printf_eq_expected, hfmt, Format.render_pct_cons, expected, Option.bind_some,
    Format.render_append_of_not_mem _ _ hsys, Format.render_append_of_not_mem _ _ harrow,
    Format.render_cons _ _ (show '\n' ≠ '%' by decide), Format.render_nil, Option.map_some,
    List.append_assoc]

/-- Kernel `printf` prints every format as the reference rendering says,
and `syscall`'s trace line as the line it means. -/
theorem printf_renders :
    (∀ fmt args, printf fmt args = Format.render '%' expected (fmt.takeWhile (· ≠ '\x00')) args) ∧
      ∀ pid name v, printf (traceLine pid name v).fmt.toList (traceLine pid name v).args =
        some ((toString pid.toInt).toList ++ ": syscall ".toList ++ name.toList.takeWhile (· ≠ '\x00') ++
          " -> ".toList ++ (toString v.toUInt32.toInt32.toInt).toList ++ ['\n']) :=
  ⟨printf_eq_expected, printf_traceLine⟩

end Printf

end Xv6
