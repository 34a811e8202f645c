/-
# `Xv6.User.Ulib` — `user/ulib.c`: `memmove` and `strchr`

The user library's `memmove` takes an `int` count and picks its direction
by the other comparison: forwards when the source lies above the
destination, backwards otherwise.  Its two loops are the kernel's
(`Bytes.copyUp`, `Bytes.copyDown`), and both versions move the source
whatever the overlap, touching nothing outside the destination
(`memmove_moves`).

`strchr` is the search `grep` cuts lines with.
-/
import Xv6.Kernel.String

namespace Xv6

namespace Ulib

/-- `memmove(vdst, vsrc, n)`, `int n`: `while(n-- > 0)` runs `max(n, 0)`
times.  For `n ≤ 0` the pointers the second branch moves are never used. -/
def memmove (m : Nat → UInt8) (vdst vsrc : Nat) (n : Int32) : Nat → UInt8 :=
  if vsrc > vdst then Bytes.copyUp m n.toInt.toNat vsrc vdst
  else Bytes.copyDown m n.toInt.toNat (vsrc + n.toInt.toNat) (vdst + n.toInt.toNat)

attribute [grind] memmove

theorem memmove_apply (m : Nat → UInt8) (dst src : Nat) (n : Int32) {i : Nat} (hi : i < n.toInt.toNat) :
    memmove m dst src n (dst + i) = m (src + i) := by
  rw [memmove]
  split
  · rename_i h
    exact Bytes.copyUp_apply m (.inl (Nat.le_of_lt h)) hi
  · rename_i h
    exact Bytes.copyDown_apply m (Nat.le_of_not_lt h) hi

theorem memmove_apply_of_lt (m : Nat → UInt8) (dst src : Nat) (n : Int32) {a : Nat}
    (ha : a < dst ∨ dst + n.toInt.toNat ≤ a) : memmove m dst src n a = m a := by
  rw [memmove]
  split
  · exact Bytes.copyUp_apply_of_not_mem m ha
  · exact Bytes.copyDown_apply_of_not_mem m ha

theorem memmove_moves (m : Nat → UInt8) (dst src : Nat) :
    (∀ n : UInt32, (∀ i < n.toNat, Bytes.memmove m dst src n (dst + i) = m (src + i)) ∧
      ∀ a, a < dst ∨ dst + n.toNat ≤ a → Bytes.memmove m dst src n a = m a) ∧
    (∀ n : Int32, (∀ i < n.toInt.toNat, memmove m dst src n (dst + i) = m (src + i)) ∧
      ∀ a, a < dst ∨ dst + n.toInt.toNat ≤ a → memmove m dst src n a = m a) :=
  ⟨fun n => ⟨fun _ hi => Bytes.memmove_apply m dst src n hi, fun _ ha => Bytes.memmove_apply_of_lt m dst src n ha⟩,
    fun n => ⟨fun _ hi => memmove_apply m dst src n hi, fun _ ha => memmove_apply_of_lt m dst src n ha⟩⟩

/-- `strchr(s, c)`: the offset of the first `c` in the C string `s` (the
list's end reads as its NUL), `none` for the null pointer. -/
def strchr : List UInt8 → UInt8 → Option Nat
  | [], _ => none
  | x :: s, c => if x = 0 then none else if x = c then some 0 else (strchr s c).map (· + 1)

attribute [grind] strchr

/-- What `strchr` found: the first `c`, with neither `c` nor NUL before it. -/
theorem strchr_some {c : UInt8} : ∀ {s : List UInt8} {q : Nat}, strchr s c = some q →
    s = s.take q ++ c :: s.drop (q + 1) ∧ c ∉ s.take q
  | [], _, h => by cases h
  | x :: s, q, h => by
    rw [strchr] at h
    split at h
    · cases h
    split at h
    · rename_i _ hxc
      obtain rfl := (Option.some.inj h).symm
      subst hxc
      simp
    · rename_i _ hxc
      obtain ⟨q', hq', rfl⟩ := Option.map_eq_some_iff.mp h
      obtain ⟨hs, hc⟩ := strchr_some hq'
      refine ⟨?_, ?_⟩
      · rw [List.take_succ_cons, List.drop_succ_cons, List.cons_append, ← hs]
      · rw [List.take_succ_cons, List.mem_cons, not_or]
        exact ⟨fun e => hxc e.symm, hc⟩

/-- In a string with no NUL, `strchr` finds nothing only when `c` is not
there. -/
theorem strchr_none {c : UInt8} : ∀ {s : List UInt8}, (0 : UInt8) ∉ s → strchr s c = none → c ∉ s
  | [], _, _ => List.not_mem_nil
  | x :: s, hs, h => by
    rw [List.mem_cons, not_or] at hs
    rw [strchr, if_neg (Ne.symm hs.1)] at h
    split at h
    · cases h
    · rename_i hxc
      rw [List.mem_cons, not_or]
      exact ⟨fun e => hxc e.symm, strchr_none hs.2 (Option.map_eq_none_iff.mp h)⟩

end Ulib

end Xv6
