/-
# `Xv6.User.Printf` — `vprintf` of `user/printf.c`

The bytes `vprintf(fd, fmt, ap)` writes, one `putc` each, for a format
and its arguments.  The loop keeps `state`: `0`, or `'%'` after a `%`.
`printint` and `printptr` are those of `Xv6.Kernel.Printf` with the table
`"0123456789ABCDEF"`.

**Proved here.**

    vprintf_eq_render        the loop reads its format as `Format.render`
    conversion_eq_expected   every conversion but `%l` prints what
                             `expected` says
    vprintf_long             `%l` prints the low 32 bits of its `uint64`
                             only: it goes through `printint`'s `int`
-/
import Xv6.Kernel.Printf
import Xv6.Fs.Dir

namespace Xv6

namespace UserPrintf

/-- An argument of `vprintf`: an `int` (a `char` is passed as one), a
`uint64`, or a `char *` (its bytes, `none` for the null pointer). -/
inductive Arg where
  | int (v : Int32)
  | uint64 (v : UInt64)
  | str (s : Option (List UInt8))
  deriving DecidableEq, Repr

/-- `'%'`. -/
def PERCENT : UInt8 := '%'.toUInt8

/-- `digits[]`, `"0123456789ABCDEF"`. -/
def digits : List UInt8 := "0123456789ABCDEF".toList.map Char.toUInt8

/-- `printint(fd, xx, base, sgn)`. -/
def printint (xx : Int32) (base : Nat) (sgn : Bool) : List UInt8 :=
  printintWith digits '-'.toUInt8 xx base sgn

/-- `printptr(fd, x)`. -/
def printptr (x : UInt64) : List UInt8 :=
  printptrWith digits '0'.toUInt8 'x'.toUInt8 x

/-- `va_arg(ap, int)`, and `va_arg(ap, uint)` of the same argument. -/
def vaInt : List Arg → Option (Int32 × List Arg)
  | .int v :: args => some (v, args)
  | _ => none

/-- `va_arg(ap, uint64)`. -/
def vaUInt64 : List Arg → Option (UInt64 × List Arg)
  | .uint64 v :: args => some (v, args)
  | _ => none

/-- `va_arg(ap, char*)`. -/
def vaStr : List Arg → Option (Option (List UInt8) × List Arg)
  | .str s :: args => some (s, args)
  | _ => none

/-- The bytes of `"(null)"`. -/
def null : List UInt8 := "(null)".toList.map Char.toUInt8

/-- The `else if` chain for the character `c` after a `%`: what it
writes, and the arguments after those it took.  `%l` passes its `uint64`
to `printint`'s `int xx`, which keeps its low 32 bits. -/
def conversion (c : UInt8) (args : List Arg) : Option (List UInt8 × List Arg) :=
  if c = 'd'.toUInt8 then (vaInt args).map fun r => (printint r.1 10 true, r.2)
  else if c = 'l'.toUInt8 then (vaUInt64 args).map fun r => (printint r.1.toUInt32.toInt32 10 false, r.2)
  else if c = 'x'.toUInt8 then (vaInt args).map fun r => (printint r.1 16 false, r.2)
  else if c = 'p'.toUInt8 then (vaUInt64 args).map fun r => (printptr r.1, r.2)
  else if c = 's'.toUInt8 then (vaStr args).map fun r => (cstr (r.1.getD null), r.2)
  else if c = 'c'.toUInt8 then (vaInt args).map fun r => ([r.1.toUInt32.toUInt8], r.2)
  else if c = PERCENT then some ([c], args)
  else some ([PERCENT, c], args)

/-- The loop of `vprintf` from `fmt[i]` on, `state` set after a `%`. -/
def vprintfLoop : (state : Bool) → List UInt8 → List Arg → Option (List UInt8)
  | _, [], _ => some []
  | state, c :: fmt, args =>
    if c = NUL then some []
    else if state then (conversion c args).bind fun r => (vprintfLoop false fmt r.2).map (r.1 ++ ·)
    else if c = PERCENT then vprintfLoop true fmt args
    else (vprintfLoop false fmt args).map (c :: ·)

/-- `vprintf(fd, fmt, ap)`: the bytes written to `fd`; `none` when a
conversion finds no argument of its type. -/
def vprintf (fmt : List UInt8) (args : List Arg) : Option (List UInt8) :=
  vprintfLoop false fmt args

/-- What each conversion should write: numbers as `Xv6.Lib.Format`
renders them, hexadecimal with capital letters. -/
def expected (c : UInt8) (args : List Arg) : Option (List UInt8 × List Arg) :=
  if c = 'd'.toUInt8 then
    match args with
    | .int v :: args => some ((toString v.toInt).toList.map Char.toUInt8, args)
    | _ => none
  else if c = 'l'.toUInt8 then
    match args with
    | .uint64 v :: args => some ((toString v.toNat).toList.map Char.toUInt8, args)
    | _ => none
  else if c = 'x'.toUInt8 then
    match args with
    | .int v :: args => some ((Nat.toDigits 16 v.toUInt32.toNat).map fun c => c.toUpper.toUInt8, args)
    | _ => none
  else if c = 'p'.toUInt8 then
    match args with
    | .uint64 v :: args =>
      some ('0'.toUInt8 :: 'x'.toUInt8 ::
        (List.leftpad 16 '0' (Nat.toDigits 16 v.toNat)).map fun c => c.toUpper.toUInt8, args)
    | _ => none
  else if c = 's'.toUInt8 then
    match args with
    | .str (some s) :: args => some (cstr s, args)
    | .str none :: args => some (null, args)
    | _ => none
  else if c = 'c'.toUInt8 then
    match args with
    | .int v :: args => some ([v.toUInt32.toUInt8], args)
    | _ => none
  else if c = PERCENT then some ([PERCENT], args)
  else some ([PERCENT, c], args)

attribute [grind] printint vaInt vaUInt64 conversion vprintfLoop

/-! ## The loop -/

/-- Both states of the loop: after a `%` it reads the rest as if the `%`
stood in front.  By induction on the format. -/
theorem vprintfLoop_eq_render : ∀ fmt args,
    vprintfLoop false fmt args = Format.render PERCENT conversion (cstr fmt) args ∧
      vprintfLoop true fmt args = Format.render PERCENT conversion (PERCENT :: cstr fmt) args
  | [], _ => by simp [vprintfLoop, cstr]
  | c :: fmt, args => by
    by_cases h0 : c = NUL
    · simp [vprintfLoop, cstr, h0]
    · have hcstr : cstr (c :: fmt) = c :: cstr fmt := cstr_cons c fmt h0
      refine ⟨?_, ?_⟩
      · by_cases hp : c = PERCENT
        · subst hp
          rw [vprintfLoop, if_neg h0, if_neg Bool.false_ne_true, if_pos rfl, hcstr]
          exact (vprintfLoop_eq_render fmt args).2
        · simp only [vprintfLoop, if_neg h0, if_neg hp, Bool.false_eq_true, if_false, hcstr,
            Format.render_cons _ _ hp, (vprintfLoop_eq_render fmt _).1]
      · simp only [vprintfLoop, if_neg h0, if_true, hcstr, Format.render_pct_cons,
          fun args => (vprintfLoop_eq_render fmt args).1]

theorem vprintf_eq_render (fmt : List UInt8) (args : List Arg) :
    vprintf fmt args = Format.render PERCENT conversion (cstr fmt) args :=
  (vprintfLoop_eq_render fmt args).1

/-! ## The conversions -/

theorem digits_getD_upper : ∀ d < 16, digits.getD d default = (Nat.digitChar d).toUpper.toUInt8 := by
  decide

theorem digits_getD_decimal : ∀ d < 10, digits.getD d default = (Nat.digitChar d).toUInt8 := by
  decide

theorem printint_decimal (xx : Int32) :
    printint xx 10 true = (toString xx.toInt).toList.map Char.toUInt8 := by
  rw [printint, printintWith_eq Char.toUInt8 (by norm_num) digits_getD_decimal rfl, if_pos rfl,
    Render.toList_toString]

theorem printint_hex (xx : Int32) :
    printint xx 16 false = (Nat.toDigits 16 xx.toUInt32.toNat).map fun c => c.toUpper.toUInt8 := by
  rw [printint, @printintWith_eq UInt8 _ (fun c => c.toUpper.toUInt8) digits 16 '-'.toUInt8
    (by norm_num) digits_getD_upper (by decide) xx false, if_neg Bool.false_ne_true]

theorem printint_unsigned_decimal (xx : Int32) :
    printint xx 10 false = (toString xx.toUInt32.toNat).toList.map Char.toUInt8 := by
  rw [printint, printintWith_eq Char.toUInt8 (by norm_num) digits_getD_decimal rfl,
    if_neg Bool.false_ne_true, Nat.toString_eq_repr, Nat.toList_repr]

theorem printptr_eq (x : UInt64) :
    printptr x = '0'.toUInt8 :: 'x'.toUInt8 ::
      (List.leftpad 16 '0' (Nat.toDigits 16 x.toNat)).map fun c => c.toUpper.toUInt8 :=
  printptrWith_eq (fun c => c.toUpper.toUInt8) digits_getD_upper _ _ x

/-- Every conversion but `%l` writes what `expected` says. -/
theorem conversion_eq_expected {c : UInt8} (hl : c ≠ 'l'.toUInt8) (args : List Arg) :
    conversion c args = expected c args := by
  unfold conversion expected
  rw [if_neg hl, if_neg hl]
  split_ifs
  · cases args with
    | nil => rfl
    | cons a args => cases a <;> simp [vaInt, printint_decimal]
  · cases args with
    | nil => rfl
    | cons a args => cases a <;> simp [vaInt, printint_hex]
  · cases args with
    | nil => rfl
    | cons a args => cases a <;> simp [vaUInt64, printptr_eq]
  · cases args with
    | nil => rfl
    | cons a args =>
      cases a with
      | str s => cases s <;> rfl
      | _ => rfl
  · cases args with
    | nil => rfl
    | cons a args => cases a <;> rfl
  · simp_all
  · rfl

/-- `%l` writes the decimal of the low 32 bits of its `uint64`. -/
theorem conversion_long (v : UInt64) (args : List Arg) :
    conversion 'l'.toUInt8 (.uint64 v :: args) =
      some ((toString (v.toNat % 2 ^ 32)).toList.map Char.toUInt8, args) := by
  rw [conversion, if_neg (by decide), if_pos rfl]
  simp only [vaUInt64, Option.map_some, printint_unsigned_decimal, UInt32.toUInt32_toInt32,
    UInt64.toNat_toUInt32]

/-- `vprintf(fd, "%l", v)` writes the decimal of `v mod 2^32`. -/
theorem vprintf_long (v : UInt64) :
    vprintf ['%'.toUInt8, 'l'.toUInt8] [.uint64 v] =
      some ((toString (v.toNat % 2 ^ 32)).toList.map Char.toUInt8) := by
  rw [vprintf_eq_render, show cstr ['%'.toUInt8, 'l'.toUInt8] = [PERCENT, 'l'.toUInt8] by decide,
    Format.render_pct_cons, conversion_long]
  simp

end UserPrintf

end Xv6
