/-
# `Xv6.Fs.Dir` — names and directory entries

A name is a C string: bytes read up to the first NUL, or to the end of the
buffer.  `struct dirent` stores a name in `char name[DIRSIZ]`, padded with
NULs by `strncpy`, without a NUL when the name has `DIRSIZ` bytes or more;
`namecmp` is `strncmp` over `DIRSIZ` bytes.  Two names are the same entry
name exactly when their first `DIRSIZ` bytes before any NUL agree
(`namecmp_eq_zero_iff`): `nameKey` is what `namecmp` compares, so "equal
under `namecmp`" is an equivalence, which is what uniqueness of entries is
about.

A directory's content is a sequence of 16-byte entries, a `ushort` inode
number (little-endian) followed by the name field; `Dirent.decode` and
`Dirent.encode` are that layout.  `skipelem` cuts a path into its first
element, as `namex` consumes it.
-/
import Xv6.Kernel.Param
import Mathlib.Data.List.TakeWhile

namespace Xv6

/-- The NUL byte that ends a C string. -/
def NUL : UInt8 := 0

/-- The bytes of a C string: up to its first NUL. -/
def cstr (s : List UInt8) : List UInt8 :=
  s.takeWhile (· ≠ NUL)

attribute [grind] NUL cstr

/-! ## `string.c` -/

/-- `strncmp(p, q, n)`: the bytes compared as `uchar`; the list's end reads
as a NUL. -/
def strncmp : List UInt8 → List UInt8 → Nat → Int
  | _, _, 0 => 0
  | p, q, n + 1 =>
      if p.headD NUL ≠ NUL ∧ p.headD NUL = q.headD NUL then strncmp p.tail q.tail n
      else ((p.headD NUL).toNat : Int) - (q.headD NUL).toNat

/-- The `n` bytes `strncpy(s, t, n)` stores: `t` up to its NUL, then NULs. -/
def strncpy : List UInt8 → Nat → List UInt8
  | _, 0 => []
  | t, n + 1 =>
      if t.headD NUL = NUL then List.replicate (n + 1) NUL
      else t.headD NUL :: strncpy t.tail n

/-- `namecmp(s, t)`. -/
def namecmp (s t : List UInt8) : Int :=
  strncmp s t DIRSIZ

/-- What `namecmp` compares: the first `DIRSIZ` bytes before a NUL. -/
def nameKey (s : List UInt8) : List UInt8 :=
  (cstr s).take DIRSIZ

attribute [grind] strncmp strncpy nameKey

theorem cstr_cons (c : UInt8) (s : List UInt8) (h : c ≠ NUL) : cstr (c :: s) = c :: cstr s := by
  simp [cstr, h]

theorem cstr_of_head (s : List UInt8) (h : s.headD NUL ≠ NUL) :
    cstr s = s.headD NUL :: cstr s.tail := by
  cases s with
  | nil => exact absurd rfl h
  | cons c s => exact cstr_cons c s h

theorem cstr_of_head_nul (s : List UInt8) (h : s.headD NUL = NUL) : cstr s = [] := by
  cases s with
  | nil => rfl
  | cons c s =>
      simp only [List.headD_cons] at h
      simp [cstr, h]

/-- `strncmp` is `0` exactly when the strings agree on their first `n`
bytes before a NUL. -/
theorem strncmp_eq_zero_iff (p q : List UInt8) (n : Nat) :
    strncmp p q n = 0 ↔ (cstr p).take n = (cstr q).take n := by
  induction n generalizing p q with
  | zero => simp [strncmp]
  | succ n ih =>
      rw [strncmp]
      split
      · -- equal heads that are not NUL: both strings go on
        rename_i h
        rw [ih, cstr_of_head p h.1, cstr_of_head q (h.2 ▸ h.1), h.2]
        simp
      · rename_i h
        by_cases hp : p.headD NUL = NUL
        · -- `p` has ended: equal exactly when `q` has too
          rw [cstr_of_head_nul p hp, hp]
          by_cases hq : q.headD NUL = NUL
          · rw [cstr_of_head_nul q hq, hq]
            simp
          · rw [cstr_of_head q hq]
            have hne : NUL.toNat ≠ (q.headD NUL).toNat := fun e => hq (UInt8.toNat_inj.mp e).symm
            simp only [List.take_nil, List.take_succ_cons, List.nil_eq, reduceCtorEq, iff_false]
            omega
        · -- different heads
          have hne : p.headD NUL ≠ q.headD NUL := fun e => h ⟨hp, e⟩
          have hne' : (p.headD NUL).toNat ≠ (q.headD NUL).toNat := fun e => hne (UInt8.toNat_inj.mp e)
          rw [cstr_of_head p hp]
          constructor
          · intro e
            omega
          · intro e
            by_cases hq : q.headD NUL = NUL
            · rw [cstr_of_head_nul q hq] at e
              simp at e
            · rw [cstr_of_head q hq] at e
              simp only [List.take_succ_cons, List.cons.injEq] at e
              exact absurd e.1 hne

theorem namecmp_eq_zero_iff (s t : List UInt8) : namecmp s t = 0 ↔ nameKey s = nameKey t :=
  strncmp_eq_zero_iff s t DIRSIZ

/-- What `strncpy` stores reads back as the source cut to `n` bytes. -/
theorem cstr_strncpy (t : List UInt8) (n : Nat) : cstr (strncpy t n) = (cstr t).take n := by
  induction n generalizing t with
  | zero => simp [strncpy, cstr]
  | succ n ih =>
      rw [strncpy]
      split
      · rename_i h
        rw [cstr_of_head_nul t h]
        simp [cstr, NUL]
      · rename_i h
        rw [cstr_of_head t h, List.take_succ_cons, ← ih]
        exact cstr_cons _ _ h

theorem nameKey_strncpy (t : List UInt8) : nameKey (strncpy t DIRSIZ) = nameKey t := by
  rw [nameKey, cstr_strncpy, List.take_take, Nat.min_self, nameKey]

theorem length_strncpy (t : List UInt8) (n : Nat) : (strncpy t n).length = n := by
  induction n generalizing t with
  | zero => rfl
  | succ n ih =>
      rw [strncpy]
      split
      · simp
      · simp [ih]

/-! ## Directory entries -/

/-- `struct dirent`: `ushort inum` and the `DIRSIZ` bytes of `name`. -/
structure Dirent where
  inum : UInt16
  name : List UInt8
  deriving DecidableEq, Repr

/-- The entry `memset(&de, 0, sizeof(de))` leaves: a free slot. -/
def Dirent.zero : Dirent :=
  ⟨0, List.replicate DIRSIZ NUL⟩

/-- The 16 bytes of an entry. -/
def Dirent.encode (de : Dirent) : List UInt8 :=
  [UInt8.ofNat de.inum.toNat, UInt8.ofNat (de.inum.toNat / 256)] ++ de.name

/-- The entry stored in 16 bytes. -/
def Dirent.decode (b : List UInt8) : Dirent :=
  ⟨UInt16.ofNat ((b.getD 0 0).toNat + 256 * (b.getD 1 0).toNat), (b.drop 2).take DIRSIZ⟩

attribute [grind] Dirent.zero Dirent.encode Dirent.decode

theorem Dirent.length_encode (de : Dirent) : de.encode.length = 2 + de.name.length := by
  simp only [encode, List.cons_append, List.nil_append, List.length_cons]
  omega

/-- Decoding what was encoded gives the entry back, for an entry whose name
field has its `DIRSIZ` bytes. -/
theorem Dirent.decode_encode (de : Dirent) (h : de.name.length = DIRSIZ) :
    Dirent.decode de.encode = de := by
  obtain ⟨inum, name⟩ := de
  have hlt := inum.toNat_lt
  simp only [decode, encode, List.cons_append, List.nil_append, List.getD_cons_zero,
    List.getD_cons_succ, List.drop_succ_cons, List.drop_zero, UInt8.toNat_ofNat']
  congr 1
  · apply UInt16.toNat_inj.mp
    rw [UInt16.toNat_ofNat']
    simp only [Nat.reducePow] at *
    omega
  · rw [← h, List.take_length]

/-! ## Paths -/

/-- `'/'`. -/
def SLASH : UInt8 := 47

/-- `skipelem(path, name)`: the first element of `path` and what follows
it, slashes skipped on both sides; `none` when no element is left.  An
element of `DIRSIZ` bytes or more keeps its first `DIRSIZ` (the buffer
gets no NUL). -/
def skipelem (path : List UInt8) : Option (List UInt8 × List UInt8) :=
  let path := path.dropWhile (· = SLASH)
  if path.headD NUL = NUL then none
  else
    let elem := path.takeWhile (fun c => c ≠ SLASH ∧ c ≠ NUL)
    let rest := path.dropWhile (fun c => c ≠ SLASH ∧ c ≠ NUL)
    some (if DIRSIZ ≤ elem.length then elem.take DIRSIZ else elem, rest.dropWhile (· = SLASH))

attribute [grind] skipelem

end Xv6
