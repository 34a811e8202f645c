/-
# `Xv6.Kernel.String` — `kernel/string.c` over a byte memory

`memset`, `memmove`, `strncpy` and `safestrcpy` as the loops they are,
over a memory `Nat → UInt8` addressed by offset.  Each loop is a program of single-byte
writes (`Store.Write`), and what it leaves follows from the rules of
`Xv6.Lib.Writes`.

**`memset`.**  It stores the low byte of `c` over `dst[0..n)`, the
range `ByteMem.fill` writes (`memset_eq_fill`).

**`memmove`.**  Its two loops are copy programs, ascending and descending
(`copyUp_eq_run`, `copyDown_eq_run`).  The ascending one reads only bytes
it has not yet written when the source starts at or above the destination
or ends below it; the descending one when the source starts at or below
the destination.  `memmove` picks the loop accordingly, so it moves the
source whatever the overlap (`memmove_apply`, `memmove_apply_of_lt`).

**`strncpy`.**  With any count but `INT_MIN` it writes exactly the
`max(n, 0)` bytes that `Xv6.strncpy` lists, the source up to its NUL and
then NULs (`strncpy_apply`).  At `INT_MIN` the `n--` in the first loop's
test takes the count below `INT_MIN`; wrapped, as RISC-V's `addiw` computes
it, the count is `INT_MAX` and the padding loop writes that many NULs
(`strncpy_int_min`).  Signed overflow is undefined in C, so nothing in the
source keeps that count from misbehaving either way.

**`safestrcpy`.**  It writes the source cut to `n - 1` bytes and a NUL,
never reaching `s[n]`, and nothing for `n ≤ 0` (`safestrcpy_apply`).  When
the source ends first the loop has copied its NUL already and the final
`*s = 0` writes a second one just after it.
-/
import Xv6.Lib.Writes
import Xv6.Lib.ByteMem
import Xv6.Fs.Dir

namespace Xv6

namespace Bytes

open Store

/-! ## `memset` -/

/-- `for(i = 0; i < n; i++) cdst[i] = c;`, from `cdst + i` with `n - i`
rounds left. -/
def setUp (m : Nat → UInt8) (c : UInt8) : (n d : Nat) → Nat → UInt8
  | 0, _ => m
  | n + 1, d => setUp (Function.update m d c) c n (d + 1)

/-- `memset(dst, c, n)`, `int c` stored as a `char`, `uint n`. -/
def memset (m : Nat → UInt8) (dst : Nat) (c : Int32) (n : UInt32) : Nat → UInt8 :=
  setUp m c.toUInt32.toUInt8 n.toNat dst

attribute [grind] setUp

/-- The loop writes `c` over the `n` bytes from `d`, by induction on the
rounds left. -/
theorem setUp_eq_fill (c : UInt8) : ∀ (n : Nat) (m : Nat → UInt8) (d : Nat), setUp m c n d = ByteMem.fill m d n c
  | 0, m, d => by
    funext y
    rw [setUp, ByteMem.fill_of_not_mem (by omega)]
  | n + 1, m, d => by
    funext y
    rw [setUp, setUp_eq_fill c n]
    by_cases hy : y = d
    · subst hy
      rw [ByteMem.fill_of_not_mem (by omega), Function.update_self, ByteMem.fill_of_mem (by omega)]
    · simp only [ByteMem.fill, Function.update_of_ne hy]
      split_ifs <;> first | rfl | omega

theorem memset_eq_fill (m : Nat → UInt8) (dst : Nat) (c : Int32) (n : UInt32) :
    memset m dst c n = ByteMem.fill m dst n.toNat c.toUInt32.toUInt8 :=
  setUp_eq_fill _ _ m dst

/-! ## `memmove` -/

/-- `while(n-- > 0) *d++ = *s++;` -/
def copyUp (m : Nat → UInt8) : (n s d : Nat) → Nat → UInt8
  | 0, _, _ => m
  | n + 1, s, d => copyUp (Function.update m d (m s)) n (s + 1) (d + 1)

/-- `while(n-- > 0) *--d = *--s;`, with `s` and `d` past the ends of the
regions. -/
def copyDown (m : Nat → UInt8) : (n s d : Nat) → Nat → UInt8
  | 0, _, _ => m
  | n + 1, s, d => copyDown (Function.update m (d - 1) (m (s - 1))) n (s - 1) (d - 1)

/-- `memmove(dst, src, n)`, `uint n`: backwards when the source starts
below the destination and runs into it. -/
def memmove (m : Nat → UInt8) (dst src : Nat) (n : UInt32) : Nat → UInt8 :=
  if n = 0 then m
  else if src < dst ∧ src + n.toNat > dst then copyDown m n.toNat (src + n.toNat) (dst + n.toNat)
  else copyUp m n.toNat src dst

/-- The writes of the ascending copy: `d + i ← s + i`, `i` going up. -/
def upWrites (n s d : Nat) : List (Write Nat UInt8) :=
  (List.range n).map fun i => Write.copy (d + i) (s + i)

/-- The writes of the descending copy, `i` going down. -/
def downWrites (n s d : Nat) : List (Write Nat UInt8) :=
  (List.range n).reverse.map fun i => Write.copy (d + i) (s + i)

attribute [grind] copyUp copyDown memmove upWrites downWrites

theorem upWrites_succ (n s d : Nat) :
    upWrites (n + 1) s d = Write.copy d s :: upWrites n (s + 1) (d + 1) := by
  simp only [upWrites, List.range_succ_eq_map, List.map_cons, List.map_map]
  congr 2
  funext i
  simp only [Function.comp_apply, Nat.succ_eq_add_one]
  congr 1 <;> omega

theorem downWrites_succ (n s d : Nat) :
    downWrites (n + 1) s d = Write.copy (d + n) (s + n) :: downWrites n s d := by
  simp only [downWrites, List.range_succ, List.reverse_append, List.reverse_singleton,
    List.singleton_append, List.map_cons]

theorem copyUp_eq_run : ∀ (n : Nat) (m : Nat → UInt8) (s d : Nat), copyUp m n s d = run m (upWrites n s d)
  | 0, _, _, _ => rfl
  | n + 1, m, s, d => by
    rw [copyUp, copyUp_eq_run n, upWrites_succ, run_cons]
    rfl

theorem copyDown_eq_run : ∀ (n : Nat) (m : Nat → UInt8) (s d : Nat),
    copyDown m n (s + n) (d + n) = run m (downWrites n s d)
  | 0, _, _, _ => rfl
  | n + 1, m, s, d => by
    have hs : s + (n + 1) - 1 = s + n := by omega
    have hd : d + (n + 1) - 1 = d + n := by omega
    rw [copyDown, hs, hd, copyDown_eq_run n, downWrites_succ, run_cons]
    rfl

/-- The ascending copy moves the source when the source starts at or above
the destination, or ends below it: no byte is read after it was written. -/
theorem copyUp_apply (m : Nat → UInt8) {n s d : Nat} (h : d ≤ s ∨ s + n ≤ d) {i : Nat} (hi : i < n) :
    copyUp m n s d (d + i) = m (s + i) := by
  rw [copyUp_eq_run, upWrites]
  refine run_copies_apply m (List.range n) (d + ·) (s + ·) (fun x _ y _ hxy => by omega) ?_ i
    (List.mem_range.mpr hi)
  -- copy `j` reads `s + j`, which no earlier copy `k < j` wrote
  refine (List.pairwise_lt_range).imp_of_mem fun {k j} _ hj hkj => ?_
  have hj' := List.mem_range.mp hj
  omega

/-- The descending copy moves the source when the source starts at or
below the destination. -/
theorem copyDown_apply (m : Nat → UInt8) {n s d : Nat} (h : s ≤ d) {i : Nat} (hi : i < n) :
    copyDown m n (s + n) (d + n) (d + i) = m (s + i) := by
  rw [copyDown_eq_run, downWrites]
  refine run_copies_apply m (List.range n).reverse (d + ·) (s + ·) (fun x _ y _ hxy => by omega) ?_ i
    (List.mem_reverse.mpr (List.mem_range.mpr hi))
  -- copy `k` reads `s + k`, which no earlier copy `j > k` wrote
  rw [List.pairwise_reverse]
  refine (List.pairwise_lt_range).imp_of_mem fun {k j} _ _ hkj => ?_
  omega

theorem copyUp_apply_of_not_mem (m : Nat → UInt8) {n s d a : Nat} (ha : a < d ∨ d + n ≤ a) :
    copyUp m n s d a = m a := by
  rw [copyUp_eq_run]
  refine run_apply_of_forall m _ a fun w hw => ?_
  obtain ⟨i, hi, rfl⟩ := List.mem_map.mp hw
  have hi' := List.mem_range.mp hi
  simp only [Write.copy_cell]
  omega

theorem copyDown_apply_of_not_mem (m : Nat → UInt8) {n s d a : Nat} (ha : a < d ∨ d + n ≤ a) :
    copyDown m n (s + n) (d + n) a = m a := by
  rw [copyDown_eq_run]
  refine run_apply_of_forall m _ a fun w hw => ?_
  obtain ⟨i, hi, rfl⟩ := List.mem_map.mp hw
  have hi' := List.mem_range.mp (List.mem_reverse.mp hi)
  simp only [Write.copy_cell]
  omega

/-- `memmove` leaves at `dst[i]` what `src[i]` held, whatever the overlap. -/
theorem memmove_apply (m : Nat → UInt8) (dst src : Nat) (n : UInt32) {i : Nat} (hi : i < n.toNat) :
    memmove m dst src n (dst + i) = m (src + i) := by
  have hn : n ≠ 0 := fun h => by rw [h] at hi; exact absurd hi (Nat.not_lt_zero i)
  rw [memmove, if_neg hn]
  split
  · rename_i h
    exact copyDown_apply m (Nat.le_of_lt h.1) hi
  · rename_i h
    exact copyUp_apply m (by omega) hi

/-- `memmove` writes no byte outside `dst[0..n)`. -/
theorem memmove_apply_of_lt (m : Nat → UInt8) (dst src : Nat) (n : UInt32) {a : Nat}
    (ha : a < dst ∨ dst + n.toNat ≤ a) : memmove m dst src n a = m a := by
  rw [memmove]
  split
  · rfl
  split
  · exact copyDown_apply_of_not_mem m ha
  · exact copyUp_apply_of_not_mem m ha

/-! ## `strncpy` and `safestrcpy` -/

/-- A count above `INT_MIN` loses one without wrapping. -/
theorem toInt_sub_one {n : Int32} (h : Int32.minValue < n) : (n - 1).toInt = n.toInt - 1 := by
  have h₁ := Int32.lt_iff_toInt_lt.mp h
  rw [Int32.toInt_minValue] at h₁
  have h₂ := n.toInt_lt
  rw [Int32.toInt_sub, Int32.toInt_one]
  exact Int.bmod_eq_of_le (by norm_num; omega) (by norm_num; omega)

theorem toInt_sub_one_of_pos {n : Int32} (h : 0 < n) : (n - 1).toInt = n.toInt - 1 :=
  toInt_sub_one (Int32.lt_iff_toInt_lt.mpr
    (Int.lt_trans (by rw [Int32.toInt_minValue, Int32.toInt_zero]; norm_num) (Int32.lt_iff_toInt_lt.mp h)))

/-- `while(n-- > 0 && (*s++ = *t++) != 0);` from `s`, with the source `t`
(its end reads as a NUL): the memory, where `s` stopped, and `n` after the
test that ended the loop. -/
def strncpyCopy (m : Nat → UInt8) (s : Nat) (t : List UInt8) (n : Int32) :
    (Nat → UInt8) × Nat × Int32 :=
  if h : 0 < n then
    let c := t.headD NUL
    let m := Function.update m s c
    if c ≠ NUL then strncpyCopy m (s + 1) t.tail (n - 1) else (m, s + 1, n - 1)
  else (m, s, n - 1)
termination_by n.toInt.toNat
decreasing_by
  have := Int32.lt_iff_toInt_lt.mp h
  rw [toInt_sub_one_of_pos h]
  simp only [Int32.toInt_zero] at this
  omega

/-- `while(n-- > 0) *s++ = 0;` -/
def strncpyPad (m : Nat → UInt8) (s : Nat) (n : Int32) : Nat → UInt8 :=
  if h : 0 < n then strncpyPad (Function.update m s NUL) (s + 1) (n - 1) else m
termination_by n.toInt.toNat
decreasing_by
  have := Int32.lt_iff_toInt_lt.mp h
  rw [toInt_sub_one_of_pos h]
  simp only [Int32.toInt_zero] at this
  omega

/-- `strncpy(s, t, n)`, `int n`. -/
def strncpy (m : Nat → UInt8) (s : Nat) (t : List UInt8) (n : Int32) : Nat → UInt8 :=
  let r := strncpyCopy m s t n
  strncpyPad r.1 r.2.1 r.2.2

/-- `while(--n > 0 && (*s++ = *t++) != 0);`, `n` before its first
decrement: the memory and where `s` stopped. -/
def safestrcpyCopy (m : Nat → UInt8) (s : Nat) (t : List UInt8) (n : Int32) : (Nat → UInt8) × Nat :=
  if h : 0 < n - 1 then
    let c := t.headD NUL
    let m := Function.update m s c
    if c ≠ NUL then safestrcpyCopy m (s + 1) t.tail (n - 1) else (m, s + 1)
  else (m, s)
termination_by (n - 1).toInt.toNat
decreasing_by
  have := Int32.lt_iff_toInt_lt.mp h
  rw [toInt_sub_one_of_pos h]
  simp only [Int32.toInt_zero] at this
  omega

/-- `safestrcpy(s, t, n)`. -/
def safestrcpy (m : Nat → UInt8) (s : Nat) (t : List UInt8) (n : Int32) : Nat → UInt8 :=
  if n ≤ 0 then m
  else
    let r := safestrcpyCopy m s t n
    Function.update r.1 r.2 NUL

attribute [grind] strncpyCopy strncpyPad strncpy safestrcpyCopy safestrcpy

theorem pos_iff (n : Int32) : 0 < n ↔ 0 < n.toInt := by
  rw [Int32.lt_iff_toInt_lt, Int32.toInt_zero]

theorem strncpyCopy_of_pos {m : Nat → UInt8} {s : Nat} {t : List UInt8} {n : Int32} (h : 0 < n) :
    strncpyCopy m s t n =
      if t.headD NUL ≠ NUL then strncpyCopy (Function.update m s (t.headD NUL)) (s + 1) t.tail (n - 1)
      else (Function.update m s (t.headD NUL), s + 1, n - 1) := by
  rw [strncpyCopy, dif_pos h]

theorem strncpyCopy_of_not_pos {m : Nat → UInt8} {s : Nat} {t : List UInt8} {n : Int32} (h : ¬0 < n) :
    strncpyCopy m s t n = (m, s, n - 1) := by
  rw [strncpyCopy, dif_neg h]

/-- The padding loop writes NULs at the next `n` bytes, none for `n ≤ 0`. -/
theorem strncpyPad_apply (a : Nat) :
    ∀ (k : Nat) (m : Nat → UInt8) (s : Nat) (n : Int32), n.toInt.toNat = k →
      strncpyPad m s n a = if s ≤ a ∧ a < s + k then NUL else m a
  | 0, m, s, n, hk => by
    have h : ¬0 < n := fun h => by have := (pos_iff n).mp h; omega
    rw [strncpyPad, dif_neg h, if_neg (by omega)]
  | k + 1, m, s, n, hk => by
    have h : 0 < n := (pos_iff n).mpr (by omega)
    have hk' : (n - 1).toInt.toNat = k := by rw [toInt_sub_one_of_pos h]; omega
    rw [strncpyPad, dif_pos h, strncpyPad_apply a k _ (s + 1) (n - 1) hk', Function.update_apply]
    by_cases ha : a = s
    · simp [ha]
    · by_cases hin : s + 1 ≤ a ∧ a < s + 1 + k
      · rw [if_pos hin, if_pos (by omega)]
      · rw [if_neg hin, if_neg ha, if_neg (by omega)]

/-- `strncpy` with a count other than `INT_MIN` writes the `max(n, 0)`
bytes `Xv6.strncpy` lists, and nothing else. -/
theorem strncpy_apply (a : Nat) :
    ∀ (k : Nat) (m : Nat → UInt8) (s : Nat) (t : List UInt8) (n : Int32), n ≠ Int32.minValue →
      n.toInt.toNat = k →
      strncpy m s t n a = if s ≤ a ∧ a < s + k then (Xv6.strncpy t k).getD (a - s) NUL else m a
  | 0, m, s, t, n, hmin, hk => by
    -- nothing is copied, and the count stays at or below zero
    have h : ¬0 < n := fun h => by have := (pos_iff n).mp h; omega
    have hmin' : Int32.minValue < n := by
      rw [Int32.lt_iff_toInt_lt, Int32.toInt_minValue]
      have := n.le_toInt
      have : n.toInt ≠ -2 ^ 31 := fun e => hmin (Int32.toInt_inj.mp (e.trans Int32.toInt_minValue.symm))
      omega
    have hk' : (n - 1).toInt.toNat = 0 := by rw [toInt_sub_one hmin']; omega
    rw [strncpy, strncpyCopy_of_not_pos h]
    dsimp only
    rw [strncpyPad_apply a 0 m s (n - 1) hk', if_neg (by omega), if_neg (by omega)]
  | k + 1, m, s, t, n, hmin, hk => by
    have h : 0 < n := (pos_iff n).mpr (by omega)
    have hk' : (n - 1).toInt.toNat = k := by rw [toInt_sub_one_of_pos h]; omega
    have hmin' : n - 1 ≠ Int32.minValue := fun e => by
      have := congrArg Int32.toInt e
      rw [toInt_sub_one_of_pos h, Int32.toInt_minValue] at this
      have := n.le_toInt
      omega
    rw [strncpy, strncpyCopy_of_pos h]
    by_cases hc : t.headD NUL = NUL
    · -- the NUL is copied and the rest padded
      rw [if_neg (not_not.mpr hc)]
      dsimp only
      rw [strncpyPad_apply a k _ (s + 1) (n - 1) hk', Xv6.strncpy, if_pos hc, Function.update_apply]
      by_cases hin : s ≤ a ∧ a < s + (k + 1)
      · have hnul : (List.replicate (k + 1) NUL).getD (a - s) NUL = NUL := by
          simp only [List.getD_eq_getElem?_getD, List.getElem?_replicate]
          split <;> rfl
        rw [if_pos hin, hnul]
        by_cases ha : a = s
        · rw [if_neg (by omega), if_pos ha, hc]
        · rw [if_pos (by omega)]
      · rw [if_neg hin, if_neg (by omega), if_neg (by omega)]
    · -- one byte copied, the rest as from the next byte on
      rw [if_pos hc]
      have ih := strncpy_apply a k (Function.update m s (t.headD NUL)) (s + 1) t.tail (n - 1) hmin' hk'
      rw [strncpy] at ih
      rw [ih, Xv6.strncpy, if_neg hc, Function.update_apply]
      by_cases ha : a = s
      · subst ha
        simp
      · by_cases hin : s + 1 ≤ a ∧ a < s + 1 + k
        · rw [if_pos hin, if_pos (by omega), show a - s = a - (s + 1) + 1 by omega, List.getD_cons_succ]
        · rw [if_neg hin, if_neg ha, if_neg (by omega)]

/-- At `INT_MIN` the first loop's `n--` takes the count below `INT_MIN`;
wrapped, it is `INT_MAX`, and the padding loop writes that many NULs. -/
theorem strncpy_int_min (m : Nat → UInt8) (s : Nat) (t : List UInt8) :
    strncpy m s t Int32.minValue = fun a => if s ≤ a ∧ a < s + (2 ^ 31 - 1) then NUL else m a := by
  funext a
  rw [strncpy, strncpyCopy_of_not_pos (by decide)]
  exact strncpyPad_apply a _ m s _ (show (Int32.minValue - 1).toInt.toNat = 2 ^ 31 - 1 by decide)

/-- The copy loop of `safestrcpy`, for `n > 0`: it copies the source with
its NUL, at most `n - 1` bytes of it, and stops past the last byte copied. -/
theorem safestrcpyCopy_eq :
    ∀ (k : Nat) (m : Nat → UInt8) (s : Nat) (t : List UInt8) (n : Int32), 0 < n → (n - 1).toInt.toNat = k →
      safestrcpyCopy m s t n =
        (fun a => if s ≤ a ∧ a < s + min ((cstr t).length + 1) k then (cstr t ++ [NUL]).getD (a - s) NUL
          else m a, s + min ((cstr t).length + 1) k)
  | 0, m, s, t, n, _, hk => by
    have h : ¬0 < n - 1 := fun h => by have := (pos_iff (n - 1)).mp h; omega
    rw [safestrcpyCopy, dif_neg h]
    congr
    funext a
    rw [if_neg (by omega)]
  | k + 1, m, s, t, n, hn, hk => by
    have h : 0 < n - 1 := (pos_iff (n - 1)).mpr (by omega)
    have hk' : (n - 1 - 1).toInt.toNat = k := by rw [toInt_sub_one_of_pos h]; omega
    rw [safestrcpyCopy, dif_pos h]
    dsimp only
    by_cases hc : t.headD NUL = NUL
    · -- the NUL is copied and the loop stops
      rw [if_neg (not_not.mpr hc), cstr_of_head_nul t hc]
      refine Prod.ext (funext fun a => ?_) (by simp)
      dsimp only
      by_cases ha : a = s
      · subst ha
        rw [Function.update_self, hc, if_pos (by simp), Nat.sub_self]
        rfl
      · rw [Function.update_of_ne ha, if_neg (by simp; omega)]
    · rw [if_pos hc, safestrcpyCopy_eq k _ (s + 1) t.tail (n - 1) h hk', cstr_of_head t hc]
      refine Prod.ext (funext fun a => ?_) (by simp only [List.length_cons]; omega)
      dsimp only
      by_cases ha : a = s
      · subst ha
        rw [if_neg (by omega), Function.update_self, if_pos (by simp), Nat.sub_self]
        rfl
      · by_cases hin : s + 1 ≤ a ∧ a < s + 1 + min ((cstr t.tail).length + 1) k
        · rw [if_pos hin, if_pos (by simp only [List.length_cons]; omega),
            show a - s = a - (s + 1) + 1 by omega, List.cons_append, List.getD_cons_succ]
        · rw [if_neg hin, Function.update_of_ne ha, if_neg (by simp only [List.length_cons]; omega)]

/-- NULs after a string read as the default a read past its end gives. -/
theorem getD_append_nuls (l xs : List UInt8) (hxs : ∀ x ∈ xs, x = NUL) (i : Nat) :
    (l ++ xs).getD i NUL = l.getD i NUL := by
  by_cases hi : i < l.length
  · exact List.getD_append l xs NUL i hi
  · rw [List.getD_append_right l xs NUL i (Nat.le_of_not_lt hi), List.getD_eq_default l NUL (Nat.le_of_not_lt hi)]
    rw [List.getD_eq_getElem?_getD]
    cases hx : xs[i - l.length]? with
    | none => rfl
    | some x => exact hxs x (List.mem_of_getElem? hx)

/-- `safestrcpy` writes the source cut to `n - 1` bytes and a NUL, one NUL
more when the source ends first, and nothing for `n ≤ 0`. -/
theorem safestrcpy_apply (m : Nat → UInt8) (s : Nat) (t : List UInt8) (n : Int32) (a : Nat) :
    safestrcpy m s t n a =
      if 0 < n ∧ s ≤ a ∧ a < s + min ((cstr t).length + 1) (n.toInt.toNat - 1) + 1 then
        ((cstr t).take (n.toInt.toNat - 1) ++ [NUL, NUL]).getD (a - s) NUL
      else m a := by
  rw [safestrcpy]
  split
  · rename_i hn
    rw [if_neg fun h => absurd h.1 (Int32.not_lt.mpr hn)]
  · rename_i hn
    have hpos : 0 < n := Int32.not_le.mp hn
    have hk : (n - 1).toInt.toNat = n.toInt.toNat - 1 := by
      have := (pos_iff n).mp hpos
      rw [toInt_sub_one_of_pos hpos]
      omega
    rw [safestrcpyCopy_eq _ m s t n hpos hk]
    dsimp only
    rw [Function.update_apply, getD_append_nuls _ _ (by simp)]
    by_cases hend : a = s + min ((cstr t).length + 1) (n.toInt.toNat - 1)
    · -- the final `*s = 0`, just past the bytes copied
      rw [if_pos hend, if_pos ⟨hpos, by omega, by omega⟩, getD_append_nuls _ _ (by simp),
        List.getD_eq_default _ _ (by rw [List.length_take]; omega)]
    · rw [if_neg hend]
      by_cases hin : s ≤ a ∧ a < s + min ((cstr t).length + 1) (n.toInt.toNat - 1)
      · -- a byte the loop copied
        rw [if_pos hin, if_pos ⟨hpos, hin.1, by omega⟩, getD_append_nuls _ _ (by simp),
          List.getD_eq_getElem?_getD, List.getD_eq_getElem?_getD, List.getElem?_take, if_pos (by omega)]
      · rw [if_neg hin, if_neg fun h => by omega]

end Bytes

end Xv6
