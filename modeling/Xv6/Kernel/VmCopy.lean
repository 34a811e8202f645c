/-
# `Xv6.Kernel.VmCopy` — what `copyout`, `copyin` and `copyinstr` move

`copyout` and `copyin` copy between kernel memory and a range of the
user's virtual addresses a page at a time, finding each page with
`walkaddr`.  Seen from the user, the range is its bytes through the page
table: byte `va + i` is at the physical address `uaddr` gives, the page
`walkaddr` returns for its page and its offset there.

The loops write physical memory while they read page tables that live in
the same memory, so what they do depends on the two being apart.  The
specifications say so in their hypotheses: the bytes written are not
entries on the path of any page of the range, and the user's bytes are
distinct physical bytes.  That is what xv6 keeps by never mapping a table
page for the user.

**Proved here.**

    uaddr_same_page     the bytes of one page are at consecutive
                        physical addresses
    Mapped.of_agree     the range stays mapped, at the same physical
                        bytes, when memory changes off its paths
    copyoutLoop_spec    with enough rounds, copyout returns 0, the user's
                        bytes hold the source and nothing else changed
    copyinLoop_spec     with enough rounds, copyin returns 0 and the
                        destination holds the user's bytes
    copyout_copyin      what copyout writes, copyin reads back
    copyinstrLoop_spec  with enough rounds, copyinstr of a string whose NUL
                        comes before `max` returns 0 and leaves the string
                        and its NUL at the destination
-/
import Xv6.Kernel.Vm

namespace Xv6

namespace Vm

open Kalloc

/-! ## The user's bytes -/

/-- The physical address of the user's byte at `v`: the page `walkaddr`
gives for its page, and its offset; `none` where its page is not mapped
for the user. -/
def uaddr (k : Kmem) (pagetable : UInt64) (v : Nat) : Option Nat :=
  let pa0 := walkaddr k pagetable (PGROUNDDOWN (UInt64.ofNat v))
  if pa0 = 0 then none else some (pa0.toNat + v % 4096)

/-- The user's bytes `[va, va + len)` are mapped for the user, byte `i`
at `φ i`. -/
def Mapped (k : Kmem) (pagetable : UInt64) (va len : Nat) (φ : Nat → Nat) : Prop :=
  ∀ i < len, uaddr k pagetable (va + i) = some (φ i)

/-- `x` is a byte of an entry on the path of a page of `[va, va + len)`. -/
def OnPaths (mem : Nat → UInt8) (pagetable : UInt64) (va len x : Nat) : Prop :=
  ∃ j < len, OnPath mem pagetable (PGROUNDDOWN (UInt64.ofNat (va + j))) x

/-! ## Rounds of the copy loops -/

theorem PGROUNDDOWN_toNat (a : UInt64) : (PGROUNDDOWN a).toNat = a.toNat / 4096 * 4096 :=
  ByteMem.toNat_and_not a (PGSIZE - 1) (k := 12) rfl (by decide)

theorem PGROUNDDOWN_le (a : UInt64) : PGROUNDDOWN a ≤ a := by
  rw [UInt64.le_iff_toNat_le, PGROUNDDOWN_toNat]
  exact Nat.div_mul_le_self _ _

theorem sub_PGROUNDDOWN_toNat (a : UInt64) : (a - PGROUNDDOWN a).toNat = a.toNat % 4096 := by
  rw [UInt64.toNat_sub_of_le _ _ (PGROUNDDOWN_le a), PGROUNDDOWN_toNat]
  omega

/-- A round takes the rest of the page or what is left, whichever is less. -/
theorem round_toNat (a len : UInt64) :
    (if PGSIZE - (a - PGROUNDDOWN a) > len then len else PGSIZE - (a - PGROUNDDOWN a)).toNat =
      min (4096 - a.toNat % 4096) len.toNat := by
  have hoff := sub_PGROUNDDOWN_toNat a
  have hlt : a.toNat % 4096 < 4096 := Nat.mod_lt _ (by decide)
  have hrest : (PGSIZE - (a - PGROUNDDOWN a)).toNat = 4096 - a.toNat % 4096 := by
    rw [UInt64.toNat_sub_of_le _ _ (UInt64.le_iff_toNat_le.mpr (by rw [hoff]; exact Nat.le_of_lt hlt)), hoff]
    rfl
  split
  · rename_i h
    rw [gt_iff_lt, UInt64.lt_iff_toNat_lt, hrest] at h
    omega
  · rename_i h
    rw [gt_iff_lt, UInt64.lt_iff_toNat_lt, hrest] at h
    rw [hrest]
    omega

/-- The next round starts at the next page. -/
theorem next_page_toNat (a : UInt64) (h : a.toNat / 4096 * 4096 + 4096 < 2 ^ 64) :
    (PGROUNDDOWN a + PGSIZE).toNat = a.toNat / 4096 * 4096 + 4096 := by
  rw [UInt64.toNat_add, PGROUNDDOWN_toNat, show PGSIZE.toNat = 4096 from rfl, Nat.mod_eq_of_lt h]

theorem next_page_aligned (a : UInt64) : (PGROUNDDOWN a + PGSIZE).toNat % 4096 = 0 := by
  rw [UInt64.toNat_add, PGROUNDDOWN_toNat, show PGSIZE.toNat = 4096 from rfl,
    Nat.mod_mod_of_dvd _ (by decide : 4096 ∣ 2 ^ 64)]
  omega

/-- A page of words ends at or below `2 ^ 64`: what stays in the page of a
word does not wrap. -/
theorem add_lt_of_page (a : UInt64) {t : Nat} (h : a.toNat % 4096 + t < 4096) : a.toNat + t < 2 ^ 64 := by
  have hlt := a.toNat_lt
  have : a.toNat / 4096 < 2 ^ 52 := by omega
  omega

/-- The physical address a round copies at: the page and the offset. -/
theorem page_add_toNat {pa0 : UInt64} (hal : pa0.toNat % 4096 = 0) (a : UInt64) :
    (pa0 + (a - PGROUNDDOWN a)).toNat = pa0.toNat + a.toNat % 4096 := by
  have hoff : a.toNat % 4096 < 4096 := Nat.mod_lt _ (by decide)
  have hfit := add_lt_of_page pa0 (t := a.toNat % 4096) (by omega)
  rw [UInt64.toNat_add, sub_PGROUNDDOWN_toNat, Nat.mod_eq_of_lt hfit]

section Round

/-! The facts below are about the count `n` of a round, taken through what
`round_toNat` says of it. -/

variable {a b len n : UInt64} (hn : n.toNat = min (4096 - a.toNat % 4096) len.toNat)
include hn

theorem sub_round_toNat : (len - n).toNat = len.toNat - n.toNat := by
  have hle : n ≤ len := by
    rw [UInt64.le_iff_toNat_le, hn]
    exact Nat.min_le_right _ _
  exact UInt64.toNat_sub_of_le _ _ hle

theorem round_toUInt32 : n.toUInt32.toNat = n.toNat := by
  rw [UInt64.toNat_toUInt32, Nat.mod_eq_of_lt (by omega)]

theorem add_round_toNat (hb : b.toNat + len.toNat < 2 ^ 64) : (b + n).toNat = b.toNat + n.toNat := by
  rw [UInt64.toNat_add, Nat.mod_eq_of_lt (by omega)]

/-- A round that does not finish the copy ends the page: the next starts
where it stopped. -/
theorem next_page_of_lt (ha : a.toNat + len.toNat < 2 ^ 64) (hlt : n.toNat < len.toNat) :
    (PGROUNDDOWN a + PGSIZE).toNat = a.toNat + n.toNat := by
  have hmod : a.toNat / 4096 * 4096 + a.toNat % 4096 = a.toNat := Nat.div_add_mod' _ _
  rw [next_page_toNat a (by omega)]
  omega

end Round

/-! ## The user's bytes, page by page -/

theorem uaddr_eq_some {k : Kmem} {pagetable : UInt64} {v x : Nat} :
    uaddr k pagetable v = some x ↔
      walkaddr k pagetable (PGROUNDDOWN (UInt64.ofNat v)) ≠ 0 ∧
        x = (walkaddr k pagetable (PGROUNDDOWN (UInt64.ofNat v))).toNat + v % 4096 := by
  unfold uaddr
  dsimp only
  split
  · rename_i h
    exact ⟨fun h' => absurd h' (by simp), fun h' => absurd h h'.1⟩
  · rename_i h
    rw [Option.some.injEq]
    exact ⟨fun h' => ⟨h, h'.symm⟩, fun h' => h'.2.symm⟩

/-- The bytes of one page are at consecutive physical addresses. -/
theorem uaddr_same_page (k : Kmem) (pagetable : UInt64) {v i : Nat} (hv : v + i < 2 ^ 64)
    (hi : v % 4096 + i < 4096) : uaddr k pagetable (v + i) = (uaddr k pagetable v).map (· + i) := by
  have hpage : PGROUNDDOWN (UInt64.ofNat (v + i)) = PGROUNDDOWN (UInt64.ofNat v) := by
    apply UInt64.toNat_inj.mp
    rw [PGROUNDDOWN_toNat, PGROUNDDOWN_toNat, UInt64.toNat_ofNat', UInt64.toNat_ofNat',
      Nat.mod_eq_of_lt hv, Nat.mod_eq_of_lt (by omega)]
    omega
  unfold uaddr
  dsimp only
  rw [hpage]
  split
  · rfl
  · rw [Option.map_some]
    congr 1
    omega

/-- Bytes off the paths of a range keep the range's walks: it stays mapped
at the same physical bytes, and its paths stay where they were. -/
theorem Mapped.of_agree {k : Kmem} {mem' : Nat → UInt8} {pagetable : UInt64} {va len : Nat} {φ : Nat → Nat}
    (hm : Mapped k pagetable va len φ) (h : ∀ x, OnPaths k.mem pagetable va len x → mem' x = k.mem x) :
    Mapped ⟨mem', k.freelist⟩ pagetable va len φ ∧
      ∀ x, OnPaths mem' pagetable va len x ↔ OnPaths k.mem pagetable va len x := by
  have hwalk : ∀ j < len, walkaddr ⟨mem', k.freelist⟩ pagetable (PGROUNDDOWN (UInt64.ofNat (va + j))) =
      walkaddr k pagetable (PGROUNDDOWN (UInt64.ofNat (va + j))) :=
    fun j hj => walkaddr_congr _ _ _ _ fun x hx => h x ⟨j, hj, hx⟩
  have hpath : ∀ j < len, path mem' (PGROUNDDOWN (UInt64.ofNat (va + j))) 2 pagetable =
      path k.mem (PGROUNDDOWN (UInt64.ofNat (va + j))) 2 pagetable := by
    intro j hj
    exact (walkLoop_congr _ k.freelist k.freelist 2 pagetable fun s hs i hi =>
      h _ ⟨j, hj, s, hs, by omega, by omega⟩).2
  refine ⟨fun i hi => ?_, fun x => ?_⟩
  · have := hm i hi
    unfold uaddr at this ⊢
    rw [hwalk i hi]
    exact this
  · constructor
    · rintro ⟨j, hj, s, hs, hx⟩
      exact ⟨j, hj, s, hpath j hj ▸ hs, hx⟩
    · rintro ⟨j, hj, s, hs, hx⟩
      exact ⟨j, hj, s, (hpath j hj).symm ▸ hs, hx⟩

/-- The pages of the tail of a range are pages of the range. -/
theorem OnPaths.of_drop {mem : Nat → UInt8} {pagetable : UInt64} {va len n x : Nat}
    (h : OnPaths mem pagetable (va + n) (len - n) x) : OnPaths mem pagetable va len x := by
  obtain ⟨j, hj, hx⟩ := h
  refine ⟨n + j, by omega, ?_⟩
  rwa [← Nat.add_assoc]

theorem Mapped.walkaddr_ne_zero {k : Kmem} {pagetable va : UInt64} {len : Nat} {φ : Nat → Nat}
    (hm : Mapped k pagetable va.toNat len φ) (h : 0 < len) : walkaddr k pagetable (PGROUNDDOWN va) ≠ 0 := by
  have h0 := hm 0 h
  rw [Nat.add_zero, uaddr_eq_some, UInt64.ofNat_toNat] at h0
  exact h0.1

/-- The bytes a round copies are consecutive from the page and the
offset: the round's window of physical memory. -/
theorem Mapped.window {k : Kmem} {pagetable va : UInt64} {len : Nat} {φ : Nat → Nat}
    (hm : Mapped k pagetable va.toNat len φ) {t : Nat} (ht : t < len) (hpg : va.toNat % 4096 + t < 4096) :
    φ t = (walkaddr k pagetable (PGROUNDDOWN va)).toNat + va.toNat % 4096 + t := by
  have h := hm t ht
  rw [uaddr_same_page k pagetable (add_lt_of_page va hpg) hpg] at h
  obtain ⟨x, hx, hxt⟩ := Option.map_eq_some_iff.mp h
  rw [uaddr_eq_some, UInt64.ofNat_toNat] at hx
  rw [← hxt, hx.2]

/-- A `memmove` leaves every byte outside its window. -/
theorem memmove_off_window (m : Nat → UInt8) (dst src : Nat) (n : UInt32) {x : Nat}
    (hx : ∀ t < n.toNat, x ≠ dst + t) : Bytes.memmove m dst src n x = m x := by
  apply Bytes.memmove_apply_of_lt
  by_contra hin
  exact hx (x - dst) (by omega) (by omega)

/-- A user page at virtual 0 and physical `0x80004000`, through tables at
`0x80001000`, `0x80002000` and `0x80003000`. -/
def onePage : Kmem :=
  ⟨ByteMem.store64 (ByteMem.store64 (ByteMem.store64 (fun _ => 0) 0x80001000 (PA2PTE 0x80002000 ||| PTE_V))
    0x80002000 (PA2PTE 0x80003000 ||| PTE_V)) 0x80003000 (PA2PTE 0x80004000 ||| PTE_R ||| PTE_W ||| PTE_U ||| PTE_V), 0⟩

example : walkaddr onePage 0x80001000 0 = 0x80004000 := by decide +kernel

/-! ## `copyout` -/

/-- What `copyout` to the user's `[va, va + len)` from the kernel's
`[src, src + len)` needs: the range is mapped for the user at distinct
bytes, none of them a byte of an entry its walks read or of the source. -/
structure CopyOut (k : Kmem) (pagetable : UInt64) (va src len : Nat) (φ : Nat → Nat) : Prop where
  mapped : Mapped k pagetable va len φ
  inj : ∀ i < len, ∀ j < len, φ i = φ j → i = j
  off_paths : ∀ i < len, ¬OnPaths k.mem pagetable va len (φ i)
  apart : ∀ i < len, ∀ j < len, φ i ≠ src + j

/-- After the first `n` user bytes are written, the rest of the copy still
has what it needs. -/
theorem CopyOut.drop {k : Kmem} {pagetable : UInt64} {va src len : Nat} {φ : Nat → Nat}
    (hc : CopyOut k pagetable va src len φ) {n : Nat} (hnl : n ≤ len) {mem' : Nat → UInt8}
    (hmem : ∀ x, (∀ t < n, x ≠ φ t) → mem' x = k.mem x) {va' : Nat} (hva : n < len → va' = va + n) :
    CopyOut ⟨mem', k.freelist⟩ pagetable va' (src + n) (len - n) (fun i => φ (n + i)) := by
  -- the bytes written are the user's, which no walk of the range reads
  have hagree : ∀ x, OnPaths k.mem pagetable va len x → mem' x = k.mem x :=
    fun x hx => hmem x fun t ht hxt => hc.off_paths t (by omega) (hxt ▸ hx)
  obtain ⟨hm', hpaths⟩ := hc.mapped.of_agree hagree
  refine ⟨fun i hi => ?_, fun i hi j hj h => ?_, fun i hi hon => ?_, fun i hi j hj h => ?_⟩
  · rw [hva (by omega), Nat.add_assoc]
    exact hm' (n + i) (by omega)
  · have := hc.inj (n + i) (by omega) (n + j) (by omega) h
    omega
  · rw [hva (by omega)] at hon
    exact hc.off_paths (n + i) (by omega) ((hpaths _).mp hon.of_drop)
  · rw [Nat.add_assoc] at h
    exact hc.apart (n + i) (by omega) (n + j) (by omega) h

/-- `copyout` with enough rounds: it returns 0, each user byte holds its
source byte, and no other byte changed.  One round per page the range
touches, and one to see that nothing is left. -/
theorem copyoutLoop_spec (pagetable : UInt64) :
    ∀ (fuel : Nat) (k : Kmem) (dstva src len : UInt64) (φ : Nat → Nat),
      dstva.toNat % 4096 + len.toNat + 4096 ≤ 4096 * fuel →
      dstva.toNat + len.toNat < 2 ^ 64 → src.toNat + len.toNat < 2 ^ 64 →
      CopyOut k pagetable dstva.toNat src.toNat len.toNat φ →
      ∃ mem', copyoutLoop pagetable fuel k dstva src len = some (⟨mem', k.freelist⟩, 0) ∧
        (∀ i < len.toNat, mem' (φ i) = k.mem (src.toNat + i)) ∧
        ∀ x, (∀ i < len.toNat, x ≠ φ i) → mem' x = k.mem x := by
  intro fuel
  induction fuel with
  | zero => intro k dstva src len φ hfuel; omega
  | succ fuel ih =>
    intro k dstva src len φ hfuel hdst hsrc hc
    by_cases hlen : len > 0
    case neg =>
      have h0 : len.toNat = 0 := by
        rw [UInt64.not_lt, UInt64.le_iff_toNat_le] at hlen
        exact Nat.le_zero.mp hlen
      refine ⟨k.mem, ?_, fun i hi => absurd hi (by omega), fun _ _ => rfl⟩
      rw [copyoutLoop, if_neg hlen]
    case pos =>
      have hlen0 : 0 < len.toNat := UInt64.lt_iff_toNat_lt.mp hlen
      have hpa0 := hc.mapped.walkaddr_ne_zero hlen0
      -- the round: `n` bytes to the window at `dst`
      generalize hn' : (if PGSIZE - (dstva - PGROUNDDOWN dstva) > len then len
        else PGSIZE - (dstva - PGROUNDDOWN dstva)) = n
      have hn := hn' ▸ round_toNat dstva len
      have hdst0 := page_add_toNat (walkaddr_aligned k pagetable (PGROUNDDOWN dstva)) dstva
      generalize hd : (walkaddr k pagetable (PGROUNDDOWN dstva) + (dstva - PGROUNDDOWN dstva)).toNat = dst
        at hdst0
      have hwin : ∀ t < n.toNat, φ t = dst + t := fun t ht => by
        rw [hc.mapped.window (by omega) (by omega), hdst0]
      have h32 := round_toUInt32 hn
      generalize hm₁ : Bytes.memmove k.mem dst src.toNat n.toUInt32 = mem₁
      have hmem₁ : ∀ x, (∀ t < n.toNat, x ≠ φ t) → mem₁ x = k.mem x := fun x hx => by
        rw [← hm₁]
        exact memmove_off_window _ _ _ _ fun t ht => hwin t (h32 ▸ ht) ▸ hx t (h32 ▸ ht)
      -- the rest of the copy, from the next page
      have hsub := sub_round_toNat hn
      have hsrc' := add_round_toNat hn hsrc
      have hc₁ := hc.drop (by omega) hmem₁ (next_page_of_lt hn hdst)
      rw [← hsrc', ← hsub] at hc₁
      have hfuel' : (PGROUNDDOWN dstva + PGSIZE).toNat % 4096 + (len - n).toNat + 4096 ≤ 4096 * fuel := by
        rw [next_page_aligned, hsub]
        omega
      have hdst' : (PGROUNDDOWN dstva + PGSIZE).toNat + (len - n).toNat < 2 ^ 64 := by
        by_cases hlt : n.toNat < len.toNat
        · rw [next_page_of_lt hn hdst hlt, hsub]
          omega
        · rw [hsub, Nat.sub_eq_zero_of_le (by omega), Nat.add_zero]
          exact UInt64.toNat_lt _
      obtain ⟨mem', hrun, hval, hframe⟩ :=
        ih ⟨mem₁, k.freelist⟩ _ (src + n) (len - n) _ hfuel' hdst' (by rw [hsrc', hsub]; omega) hc₁
      dsimp only at hval hframe
      refine ⟨mem', ?_, fun i hi => ?_, fun x hx => ?_⟩
      · rw [copyoutLoop, if_pos hlen]
        dsimp only
        rw [if_neg hpa0, hn', hd, hm₁]
        exact hrun
      · by_cases hin : i < n.toNat
        · -- written in this round, and not again
          have hkeep : ∀ j < (len - n).toNat, φ i ≠ φ (n.toNat + j) := fun j hj h => by
            have := hc.inj i hi (n.toNat + j) (by omega) h
            omega
          rw [hframe (φ i) hkeep, ← hm₁, hwin i hin, Bytes.memmove_apply _ _ _ _ (h32 ▸ hin)]
        · -- written in a later round, from source bytes this one left
          obtain ⟨j, rfl⟩ : ∃ j, i = n.toNat + j := ⟨i - n.toNat, by omega⟩
          have hoff : ∀ t < n.toNat, src.toNat + (n.toNat + j) ≠ φ t :=
            fun t ht h => hc.apart t (by omega) (n.toNat + j) hi h.symm
          rw [hval j (by omega), hsrc', Nat.add_assoc, hmem₁ _ hoff]
      · rw [hframe x fun j hj => hx (n.toNat + j) (by omega), hmem₁ x fun t ht => hx t (by omega)]

/-- Two bytes of `onePage`'s user page, copied from `0x80005000`. -/
theorem onePage_copyOut : CopyOut onePage 0x80001000 0 0x80005000 2 (fun i => 0x80004000 + i) := by
  refine ⟨?_, by decide +kernel, ?_, by decide +kernel⟩
  · unfold Mapped
    decide +kernel
  · unfold OnPaths OnPath
    decide +kernel

theorem copyoutLoop_spec_one_page :
    CopyOut onePage 0x80001000 0 0x80005000 2 (fun i => 0x80004000 + i) ∧
      ∃ mem', copyoutLoop 0x80001000 2 onePage 0 0x80005000 2 = some (⟨mem', onePage.freelist⟩, 0) ∧
        (∀ i < 2, mem' (0x80004000 + i) = onePage.mem (0x80005000 + i)) ∧
        ∀ x, (∀ i < 2, x ≠ 0x80004000 + i) → mem' x = onePage.mem x :=
  ⟨onePage_copyOut,
    copyoutLoop_spec 0x80001000 2 onePage 0 0x80005000 2 _ (by decide) (by decide) (by decide) onePage_copyOut⟩

/-! ## `copyin` -/

/-- What `copyin` to the kernel's `[dst, dst + len)` from the user's
`[va, va + len)` needs: the range is mapped for the user, and the
destination is neither a byte of an entry its walks read nor a user byte. -/
structure CopyIn (k : Kmem) (pagetable : UInt64) (va dst len : Nat) (φ : Nat → Nat) : Prop where
  mapped : Mapped k pagetable va len φ
  off_paths : ∀ i < len, ¬OnPaths k.mem pagetable va len (dst + i)
  apart : ∀ i < len, ∀ j < len, φ i ≠ dst + j

/-- After the first `n` bytes of the destination are written, the rest of
the copy still has what it needs. -/
theorem CopyIn.drop {k : Kmem} {pagetable : UInt64} {va dst len : Nat} {φ : Nat → Nat}
    (hc : CopyIn k pagetable va dst len φ) {n : Nat} (hnl : n ≤ len) {mem' : Nat → UInt8}
    (hmem : ∀ x, (∀ t < n, x ≠ dst + t) → mem' x = k.mem x) {va' : Nat} (hva : n < len → va' = va + n) :
    CopyIn ⟨mem', k.freelist⟩ pagetable va' (dst + n) (len - n) (fun i => φ (n + i)) := by
  -- the bytes written are the destination's, which no walk of the range reads
  have hagree : ∀ x, OnPaths k.mem pagetable va len x → mem' x = k.mem x :=
    fun x hx => hmem x fun t ht hxt => hc.off_paths t (by omega) (hxt ▸ hx)
  obtain ⟨hm', hpaths⟩ := hc.mapped.of_agree hagree
  refine ⟨fun i hi => ?_, fun i hi hon => ?_, fun i hi j hj h => ?_⟩
  · rw [hva (by omega), Nat.add_assoc]
    exact hm' (n + i) (by omega)
  · rw [hva (by omega), Nat.add_assoc] at hon
    exact hc.off_paths (n + i) (by omega) ((hpaths _).mp hon.of_drop)
  · rw [Nat.add_assoc] at h
    exact hc.apart (n + i) (by omega) (n + j) (by omega) h

/-- `copyin` with enough rounds: it returns 0, each destination byte holds
its user byte, and no other byte changed. -/
theorem copyinLoop_spec (pagetable : UInt64) :
    ∀ (fuel : Nat) (k : Kmem) (dst srcva len : UInt64) (φ : Nat → Nat),
      srcva.toNat % 4096 + len.toNat + 4096 ≤ 4096 * fuel →
      srcva.toNat + len.toNat < 2 ^ 64 → dst.toNat + len.toNat < 2 ^ 64 →
      CopyIn k pagetable srcva.toNat dst.toNat len.toNat φ →
      ∃ mem', copyinLoop pagetable fuel k dst srcva len = some (⟨mem', k.freelist⟩, 0) ∧
        (∀ i < len.toNat, mem' (dst.toNat + i) = k.mem (φ i)) ∧
        ∀ x, (∀ i < len.toNat, x ≠ dst.toNat + i) → mem' x = k.mem x := by
  intro fuel
  induction fuel with
  | zero => intro k dst srcva len φ hfuel; omega
  | succ fuel ih =>
    intro k dst srcva len φ hfuel hsrc hdst hc
    by_cases hlen : len > 0
    case neg =>
      have h0 : len.toNat = 0 := by
        rw [UInt64.not_lt, UInt64.le_iff_toNat_le] at hlen
        exact Nat.le_zero.mp hlen
      refine ⟨k.mem, ?_, fun i hi => absurd hi (by omega), fun _ _ => rfl⟩
      rw [copyinLoop, if_neg hlen]
    case pos =>
      have hlen0 : 0 < len.toNat := UInt64.lt_iff_toNat_lt.mp hlen
      have hpa0 := hc.mapped.walkaddr_ne_zero hlen0
      -- the round: `n` bytes from the window at `p`
      generalize hn' : (if PGSIZE - (srcva - PGROUNDDOWN srcva) > len then len
        else PGSIZE - (srcva - PGROUNDDOWN srcva)) = n
      have hn := hn' ▸ round_toNat srcva len
      have hp0 := page_add_toNat (walkaddr_aligned k pagetable (PGROUNDDOWN srcva)) srcva
      generalize hp : (walkaddr k pagetable (PGROUNDDOWN srcva) + (srcva - PGROUNDDOWN srcva)).toNat = p
        at hp0
      have hwin : ∀ t < n.toNat, φ t = p + t := fun t ht => by
        rw [hc.mapped.window (by omega) (by omega), hp0]
      have h32 := round_toUInt32 hn
      generalize hm₁ : Bytes.memmove k.mem dst.toNat p n.toUInt32 = mem₁
      have hmem₁ : ∀ x, (∀ t < n.toNat, x ≠ dst.toNat + t) → mem₁ x = k.mem x := fun x hx => by
        rw [← hm₁]
        exact memmove_off_window _ _ _ _ fun t ht => hx t (h32 ▸ ht)
      -- the rest of the copy, from the next page
      have hsub := sub_round_toNat hn
      have hdst' := add_round_toNat hn hdst
      have hc₁ := hc.drop (by omega) hmem₁ (next_page_of_lt hn hsrc)
      rw [← hdst', ← hsub] at hc₁
      have hfuel' : (PGROUNDDOWN srcva + PGSIZE).toNat % 4096 + (len - n).toNat + 4096 ≤ 4096 * fuel := by
        rw [next_page_aligned, hsub]
        omega
      have hsrc' : (PGROUNDDOWN srcva + PGSIZE).toNat + (len - n).toNat < 2 ^ 64 := by
        by_cases hlt : n.toNat < len.toNat
        · rw [next_page_of_lt hn hsrc hlt, hsub]
          omega
        · rw [hsub, Nat.sub_eq_zero_of_le (by omega), Nat.add_zero]
          exact UInt64.toNat_lt _
      obtain ⟨mem', hrun, hval, hframe⟩ :=
        ih ⟨mem₁, k.freelist⟩ (dst + n) _ (len - n) _ hfuel' hsrc' (by rw [hdst', hsub]; omega) hc₁
      dsimp only at hval hframe
      refine ⟨mem', ?_, fun i hi => ?_, fun x hx => ?_⟩
      · rw [copyinLoop, if_pos hlen]
        dsimp only
        rw [if_neg hpa0, hn', hp, hm₁]
        exact hrun
      · by_cases hin : i < n.toNat
        · -- written in this round, and not again
          have hkeep : ∀ j < (len - n).toNat, dst.toNat + i ≠ (dst + n).toNat + j := fun j hj => by
            rw [hdst']
            omega
          rw [hframe _ hkeep, ← hm₁, hwin i hin, Bytes.memmove_apply _ _ _ _ (h32 ▸ hin)]
        · -- written in a later round, from user bytes this one left
          obtain ⟨j, rfl⟩ : ∃ j, i = n.toNat + j := ⟨i - n.toNat, by omega⟩
          have hoff : ∀ t < n.toNat, φ (n.toNat + j) ≠ dst.toNat + t :=
            fun t ht => hc.apart (n.toNat + j) hi t (by omega)
          have hj := hval j (by omega)
          rw [hdst', Nat.add_assoc] at hj
          rw [hj, hmem₁ _ hoff]
      · have hlater : ∀ j < (len - n).toNat, x ≠ (dst + n).toNat + j := fun j hj => by
          rw [hdst', Nat.add_assoc]
          exact hx (n.toNat + j) (by omega)
        rw [hframe x hlater, hmem₁ x fun t ht => hx t (by omega)]

/-- Two bytes of `onePage`'s user page, copied to `0x80005000`. -/
theorem onePage_copyIn : CopyIn onePage 0x80001000 0 0x80005000 2 (fun i => 0x80004000 + i) := by
  refine ⟨?_, ?_, by decide +kernel⟩
  · unfold Mapped
    decide +kernel
  · unfold OnPaths OnPath
    decide +kernel

theorem copyinLoop_spec_one_page :
    CopyIn onePage 0x80001000 0 0x80005000 2 (fun i => 0x80004000 + i) ∧
      ∃ mem', copyinLoop 0x80001000 2 onePage 0x80005000 0 2 = some (⟨mem', onePage.freelist⟩, 0) ∧
        (∀ i < 2, mem' (0x80005000 + i) = onePage.mem (0x80004000 + i)) ∧
        ∀ x, (∀ i < 2, x ≠ 0x80005000 + i) → mem' x = onePage.mem x :=
  ⟨onePage_copyIn,
    copyinLoop_spec 0x80001000 2 onePage 0x80005000 0 2 _ (by decide) (by decide) (by decide) onePage_copyIn⟩

/-! ## What copyout writes, copyin reads back -/

/-- `copyout` of the kernel's `[src, src + len)` to the user's
`[va, va + len)`, then `copyin` of that range to the kernel's
`[dst, dst + len)`, leaves at `dst` the bytes of `src`.  Both calls
return 0, and neither touches the free list. -/
theorem copyout_copyin {k : Kmem} {pagetable va src dst len : UInt64} {φ : Nat → Nat} {fuel : Nat}
    (hfuel : va.toNat % 4096 + len.toNat + 4096 ≤ 4096 * fuel) (hva : va.toNat + len.toNat < 2 ^ 64)
    (hsrc : src.toNat + len.toNat < 2 ^ 64) (hdst : dst.toNat + len.toNat < 2 ^ 64)
    (hout : CopyOut k pagetable va.toNat src.toNat len.toNat φ)
    (hdpaths : ∀ i < len.toNat, ¬OnPaths k.mem pagetable va.toNat len.toNat (dst.toNat + i))
    (hdapart : ∀ i < len.toNat, ∀ j < len.toNat, φ i ≠ dst.toNat + j) :
    ∃ mem₁ mem₂, copyout fuel k pagetable va src len = some (⟨mem₁, k.freelist⟩, 0) ∧
      copyin fuel ⟨mem₁, k.freelist⟩ pagetable dst va len = some (⟨mem₂, k.freelist⟩, 0) ∧
      ∀ i < len.toNat, mem₂ (dst.toNat + i) = k.mem (src.toNat + i) := by
  obtain ⟨mem₁, hout₁, hval₁, hframe₁⟩ := copyoutLoop_spec pagetable fuel k va src len φ hfuel hva hsrc hout
  -- the user's bytes are off the range's walks, so copyout kept them
  have hagree : ∀ x, OnPaths k.mem pagetable va.toNat len.toNat x → mem₁ x = k.mem x :=
    fun x hx => hframe₁ x fun i hi hxi => hout.off_paths i hi (hxi ▸ hx)
  obtain ⟨hm₁, hpaths₁⟩ := hout.mapped.of_agree hagree
  have hin : CopyIn ⟨mem₁, k.freelist⟩ pagetable va.toNat dst.toNat len.toNat φ :=
    ⟨hm₁, fun i hi hon => hdpaths i hi ((hpaths₁ _).mp hon), hdapart⟩
  obtain ⟨mem₂, hin₂, hval₂, -⟩ := copyinLoop_spec pagetable fuel _ dst va len φ hfuel hva hdst hin
  refine ⟨mem₁, mem₂, hout₁, hin₂, fun i hi => ?_⟩
  rw [hval₂ i hi]
  exact hval₁ i hi

theorem copyout_copyin_one_page :
    CopyOut onePage 0x80001000 0 0x80005000 2 (fun i => 0x80004000 + i) ∧
      (∀ i < 2, ¬OnPaths onePage.mem 0x80001000 0 2 (0x80006000 + i)) ∧
      (∀ i < 2, ∀ j < 2, 0x80004000 + i ≠ 0x80006000 + j) ∧
      ∃ mem₁ mem₂, copyout 2 onePage 0x80001000 0 0x80005000 2 = some (⟨mem₁, onePage.freelist⟩, 0) ∧
        copyin 2 ⟨mem₁, onePage.freelist⟩ 0x80001000 0x80006000 0 2 = some (⟨mem₂, onePage.freelist⟩, 0) ∧
        ∀ i < 2, mem₂ (0x80006000 + i) = onePage.mem (0x80005000 + i) := by
  have hdpaths : ∀ i < 2, ¬OnPaths onePage.mem 0x80001000 0 2 (0x80006000 + i) := by
    unfold OnPaths OnPath
    decide +kernel
  have hdapart : ∀ i < 2, ∀ j < 2, 0x80004000 + i ≠ 0x80006000 + j := by decide
  exact ⟨onePage_copyOut, hdpaths, hdapart,
    copyout_copyin (by decide) (by decide) (by decide) (by decide) onePage_copyOut hdpaths hdapart⟩

/-! ## `copyinstr` -/

theorem toNat_add_ofNat {a : UInt64} {m : Nat} (h : a.toNat + m < 2 ^ 64) :
    (a + UInt64.ofNat m).toNat = a.toNat + m := by
  rw [UInt64.toNat_add, UInt64.toNat_ofNat', Nat.mod_eq_of_lt (by omega : m < 2 ^ 64), Nat.mod_eq_of_lt h]

theorem toNat_sub_ofNat {a : UInt64} {m : Nat} (h : m ≤ a.toNat) :
    (a - UInt64.ofNat m).toNat = a.toNat - m := by
  have hm : (UInt64.ofNat m).toNat = m := by
    rw [UInt64.toNat_ofNat', Nat.mod_eq_of_lt (by have := a.toNat_lt; omega)]
  rw [UInt64.toNat_sub_of_le _ _ (by rw [UInt64.le_iff_toNat_le, hm]; exact h), hm]

/-- Two windows of `n` bytes with no byte in common lie one after the other. -/
theorem windows_apart {p d n : Nat} (h : ∀ i < n, ∀ j < n, p + i ≠ d + j) : p + n ≤ d ∨ d + n ≤ p := by
  by_contra hc
  by_cases hpd : p ≤ d
  · exact h (d - p) (by omega) 0 (by omega) (by omega)
  · exact h 0 (by omega) (p - d) (by omega) (by omega)

/-- The bytes of a round before its first NUL are copied in order, as an
ascending `memmove` of them copies them; by induction on how many. -/
theorem copyinstrPage_copyUp : ∀ (m : Nat) (mem : Nat → UInt8) (n : Nat) (dst p max : UInt64),
    m ≤ n → dst.toNat + m ≤ 2 ^ 64 → p.toNat + m ≤ 2 ^ 64 →
    (∀ i < m, ∀ j < m, p.toNat + i ≠ dst.toNat + j) → (∀ i < m, mem (p.toNat + i) ≠ 0) →
    copyinstrPage mem n dst p max =
      copyinstrPage (Bytes.copyUp mem m p.toNat dst.toNat) (n - m) (dst + UInt64.ofNat m) (p + UInt64.ofNat m)
        (max - UInt64.ofNat m)
  | 0, mem, n, dst, p, max, _, _, _, _, _ => by
    have h0 : UInt64.ofNat 0 = 0 := rfl
    rw [h0, add_zero, add_zero, sub_zero, Nat.sub_zero]
    rfl
  | m + 1, mem, n, dst, p, max, hmn, hd, hp, hap, hnz => by
    obtain ⟨n, rfl⟩ : ∃ n', n = n' + 1 := ⟨n - 1, by omega⟩
    have hnz0 : mem p.toNat ≠ 0 := hnz 0 (by omega)
    -- within the prefix the next byte is one further on, without wrapping
    have hd1 : 0 < m → (dst + 1).toNat = dst.toNat + 1 := fun hm =>
      toNat_add_ofNat (m := 1) (by omega)
    have hp1 : 0 < m → (p + 1).toNat = p.toNat + 1 := fun hm =>
      toNat_add_ofNat (m := 1) (by omega)
    have hap' : ∀ i < m, ∀ j < m, (p + 1).toNat + i ≠ (dst + 1).toNat + j := fun i hi j hj => by
      rw [hp1 (by omega), hd1 (by omega)]
      have := hap (i + 1) (by omega) (j + 1) (by omega)
      omega
    have hnz' : ∀ i < m, Function.update mem dst.toNat (mem p.toNat) ((p + 1).toNat + i) ≠ 0 := fun i hi => by
      rw [hp1 (by omega), Function.update_of_ne (fun h => hap (i + 1) (by omega) 0 (by omega) (by omega))]
      rw [Nat.add_assoc, Nat.add_comm 1 i]
      exact hnz (i + 1) (by omega)
    have hlen : ∀ (a : UInt64), a.toNat + (m + 1) ≤ 2 ^ 64 → (a + 1).toNat + m ≤ 2 ^ 64 := fun a ha => by
      rw [UInt64.toNat_add]
      have : (1 : UInt64).toNat = 1 := rfl
      omega
    rw [copyinstrPage, if_neg hnz0,
      copyinstrPage_copyUp m _ n (dst + 1) (p + 1) (max - 1) (by omega) (hlen dst hd) (hlen p hp) hap' hnz']
    have hcopy : Bytes.copyUp (Function.update mem dst.toNat (mem p.toNat)) m (p + 1).toNat (dst + 1).toNat =
        Bytes.copyUp mem (m + 1) p.toNat dst.toNat := by
      rcases Nat.eq_zero_or_pos m with hm | hm
      · subst hm
        rfl
      · rw [hp1 hm, hd1 hm]
        rfl
    rw [hcopy, Nat.add_sub_add_right, UInt64.ofNat_add, add_assoc, add_assoc, sub_sub, add_comm 1]
    rfl

/-- A round that meets no NUL copies all its bytes and asks for more. -/
theorem copyinstrPage_all (mem : Nat → UInt8) (n : Nat) (dst p max : UInt64)
    (hd : dst.toNat + n ≤ 2 ^ 64) (hp : p.toNat + n ≤ 2 ^ 64) (hap : ∀ i < n, ∀ j < n, p.toNat + i ≠ dst.toNat + j)
    (hnz : ∀ i < n, mem (p.toNat + i) ≠ 0) :
    copyinstrPage mem n dst p max =
      (Bytes.copyUp mem n p.toNat dst.toNat, dst + UInt64.ofNat n, max - UInt64.ofNat n, false) := by
  rw [copyinstrPage_copyUp n mem n dst p max le_rfl hd hp hap hnz, Nat.sub_self]
  rfl

/-- A round that meets a NUL copies the bytes before it, then the NUL, and
stops. -/
theorem copyinstrPage_nul (mem : Nat → UInt8) {n kk : Nat} (hk : kk < n) (dst p max : UInt64)
    (hd : dst.toNat + kk < 2 ^ 64) (hp : p.toNat + kk < 2 ^ 64)
    (hap : ∀ i ≤ kk, ∀ j ≤ kk, p.toNat + i ≠ dst.toNat + j)
    (hnz : ∀ i < kk, mem (p.toNat + i) ≠ 0) (hz : mem (p.toNat + kk) = 0) :
    copyinstrPage mem n dst p max =
      (Function.update (Bytes.copyUp mem kk p.toNat dst.toNat) (dst.toNat + kk) 0, dst + UInt64.ofNat kk,
        max - UInt64.ofNat kk, true) := by
  rw [copyinstrPage_copyUp kk mem n dst p max hk.le hd.le hp.le (fun i hi j hj => hap i hi.le j hj.le) hnz]
  obtain ⟨n', hn'⟩ : ∃ n', n - kk = n' + 1 := ⟨n - kk - 1, by omega⟩
  -- the NUL is read where the prefix wrote nothing
  have hread : Bytes.copyUp mem kk p.toNat dst.toNat (p + UInt64.ofNat kk).toNat = 0 := by
    rw [toNat_add_ofNat hp, Bytes.copyUp_apply_of_not_mem _ ?_, hz]
    by_contra hc
    exact hap kk le_rfl (p.toNat + kk - dst.toNat) (by omega) (by omega)
  rw [hn', copyinstrPage, if_pos hread, toNat_add_ofNat hd]

/-- `copyinstr` of a user string whose NUL is its byte `kk`, with
`kk < max`: with enough rounds it returns 0, the destination holds the `kk`
bytes before the NUL and then a NUL, and no other byte changed.  One round
per page the string touches, and one to see the NUL was copied. -/
theorem copyinstrLoop_spec (pagetable : UInt64) :
    ∀ (fuel : Nat) (k : Kmem) (dst srcva max : UInt64) (kk : Nat) (φ : Nat → Nat),
      srcva.toNat % 4096 + kk + 4097 ≤ 4096 * fuel →
      srcva.toNat + kk < 2 ^ 64 → dst.toNat + kk < 2 ^ 64 → kk < max.toNat →
      CopyIn k pagetable srcva.toNat dst.toNat (kk + 1) φ →
      (∀ i < kk, k.mem (φ i) ≠ 0) → k.mem (φ kk) = 0 →
      ∃ mem', copyinstrLoop pagetable fuel k dst srcva max false = some (⟨mem', k.freelist⟩, 0) ∧
        (∀ i < kk, mem' (dst.toNat + i) = k.mem (φ i)) ∧ mem' (dst.toNat + kk) = 0 ∧
        ∀ x, (∀ i ≤ kk, x ≠ dst.toNat + i) → mem' x = k.mem x := by
  intro fuel
  induction fuel with
  | zero => intro k dst srcva max kk φ hfuel; omega
  | succ fuel ih =>
    intro k dst srcva max kk φ hfuel hsrc hdst hmax hc hnz hz
    have hgo : false = false ∧ max > 0 := ⟨rfl, UInt64.lt_iff_toNat_lt.mpr (by rw [UInt64.toNat_zero]; omega)⟩
    have hpa0 := hc.mapped.walkaddr_ne_zero (by omega : 0 < kk + 1)
    have hal := walkaddr_aligned k pagetable (PGROUNDDOWN srcva)
    generalize hn' : (if PGSIZE - (srcva - PGROUNDDOWN srcva) > max then max
      else PGSIZE - (srcva - PGROUNDDOWN srcva)) = n
    have hn := hn' ▸ round_toNat srcva max
    have hp0 := page_add_toNat hal srcva
    generalize hp : walkaddr k pagetable (PGROUNDDOWN srcva) + (srcva - PGROUNDDOWN srcva) = p at hp0
    -- the round reads the user's bytes, up to the NUL
    have hwin : ∀ t < n.toNat, t ≤ kk → φ t = p.toNat + t := fun t ht htk => by
      rw [hc.mapped.window (by omega) (by omega), hp0]
    have hpfit : ∀ t ≤ n.toNat, p.toNat + t ≤ 2 ^ 64 := fun t ht => by
      have := add_lt_of_page (walkaddr k pagetable (PGROUNDDOWN srcva)) (t := srcva.toNat % 4096 + t - 1)
        (by omega)
      omega
    have hstep : copyinstrLoop pagetable (fuel + 1) k dst srcva max false =
        copyinstrLoop pagetable fuel ⟨(copyinstrPage k.mem n.toNat dst p max).1, k.freelist⟩
          (copyinstrPage k.mem n.toNat dst p max).2.1 (PGROUNDDOWN srcva + PGSIZE)
          (copyinstrPage k.mem n.toNat dst p max).2.2.1 (copyinstrPage k.mem n.toNat dst p max).2.2.2 := by
      rw [copyinstrLoop, if_pos hgo]
      dsimp only
      rw [if_neg hpa0, hn', hp]
    by_cases hk : kk < n.toNat
    case pos =>
      -- the NUL is in this round; the next round sees it was copied
      have hap : ∀ i ≤ kk, ∀ j ≤ kk, p.toNat + i ≠ dst.toNat + j := fun i hi j hj h =>
        hc.apart i (by omega) j (by omega) (by rw [hwin i (by omega) hi]; exact h)
      have hr := copyinstrPage_nul k.mem hk dst p max hdst (by have := hpfit (kk + 1) hk; omega) hap
        (fun i hi => hwin i (by omega) hi.le ▸ hnz i hi) (hwin kk hk le_rfl ▸ hz)
      obtain ⟨fuel, rfl⟩ : ∃ f, fuel = f + 1 := ⟨fuel - 1, by omega⟩
      have hsep := windows_apart fun i hi j hj => hap i hi.le j hj.le
      refine ⟨Function.update (Bytes.copyUp k.mem kk p.toNat dst.toNat) (dst.toNat + kk) 0, ?_,
        fun i hi => ?_, Function.update_self _ _ _, fun x hx => ?_⟩
      · rw [hstep, hr, copyinstrLoop]
        rfl
      · rw [Function.update_of_ne (by omega), Bytes.copyUp_apply _ (by omega) hi, ← hwin i (by omega) hi.le]
      · rw [Function.update_of_ne (hx kk le_rfl), Bytes.copyUp_apply_of_not_mem]
        by_contra hin
        exact hx (x - dst.toNat) (by omega) (by omega)
    case neg =>
      -- the round ends the page without a NUL; the rest of the string follows
      have hnk : n.toNat = 4096 - srcva.toNat % 4096 := by omega
      have hap : ∀ i < n.toNat, ∀ j < n.toNat, p.toNat + i ≠ dst.toNat + j := fun i hi j hj h =>
        hc.apart i (by omega) j (by omega) (by rw [hwin i hi (by omega)]; exact h)
      have hr := copyinstrPage_all k.mem n.toNat dst p max (by omega) (hpfit _ le_rfl) hap
        (fun i hi => hwin i hi (by omega) ▸ hnz i (by omega))
      have hsep := windows_apart hap
      have hmem₁ : ∀ x, (∀ t < n.toNat, x ≠ dst.toNat + t) → Bytes.copyUp k.mem n.toNat p.toNat dst.toNat x = k.mem x :=
        fun x hx => Bytes.copyUp_apply_of_not_mem _ (by
          by_contra hin
          exact hx (x - dst.toNat) (by omega) (by omega))
      have hdst' := toNat_add_ofNat (a := dst) (m := n.toNat) (by omega)
      have hmax' := toNat_sub_ofNat (a := max) (m := n.toNat) (by omega)
      have hsrc' : (PGROUNDDOWN srcva + PGSIZE).toNat = srcva.toNat + n.toNat := by
        have hmod : srcva.toNat / 4096 * 4096 + srcva.toNat % 4096 = srcva.toNat := Nat.div_add_mod' _ _
        rw [next_page_toNat srcva (by omega)]
        omega
      have hc₁ := hc.drop (by omega) hmem₁ (fun _ => hsrc')
      rw [← hdst', show kk + 1 - n.toNat = kk - n.toNat + 1 by omega] at hc₁
      have hnz₁ : ∀ i < kk - n.toNat, Bytes.copyUp k.mem n.toNat p.toNat dst.toNat (φ (n.toNat + i)) ≠ 0 :=
        fun i hi => by
          rw [hmem₁ _ fun t ht => hc.apart (n.toNat + i) (by omega) t (by omega)]
          exact hnz _ (by omega)
      have hz₁ : Bytes.copyUp k.mem n.toNat p.toNat dst.toNat (φ (n.toNat + (kk - n.toNat))) = 0 := by
        rw [Nat.add_sub_cancel' (by omega), hmem₁ _ fun t ht => hc.apart kk (by omega) t (by omega)]
        exact hz
      obtain ⟨mem', hrun, hval, hnul, hframe⟩ := ih ⟨_, k.freelist⟩ (dst + UInt64.ofNat n.toNat)
        (PGROUNDDOWN srcva + PGSIZE) (max - UInt64.ofNat n.toNat) (kk - n.toNat) _
        (by rw [next_page_aligned]; omega) (by rw [hsrc']; omega) (by rw [hdst']; omega) (by rw [hmax']; omega)
        hc₁ hnz₁ hz₁
      dsimp only at hval hnul hframe
      rw [hdst'] at hval hnul hframe
      refine ⟨mem', by rw [hstep, hr]; exact hrun, fun i hi => ?_, ?_, fun x hx => ?_⟩
      · by_cases hin : i < n.toNat
        · -- copied in this round, and not again
          rw [hframe _ fun j _ => by omega, Bytes.copyUp_apply _ (by omega) hin, ← hwin i hin (by omega)]
        · obtain ⟨j, rfl⟩ : ∃ j, i = n.toNat + j := ⟨i - n.toNat, by omega⟩
          rw [← Nat.add_assoc, hval j (by omega), hmem₁ _ fun t ht => hc.apart (n.toNat + j) (by omega) t (by omega)]
      · rw [show dst.toNat + kk = dst.toNat + n.toNat + (kk - n.toNat) by omega]
        exact hnul
      · rw [hframe x fun j hj => by have := hx (n.toNat + j) (by omega); omega,
          hmem₁ x fun t ht => hx t (by omega)]

/-- `onePage` with the string `"hi"` at the start of its user page. -/
def hiPage : Kmem := ⟨ByteMem.put onePage.mem 0x80004000 2 0x6968, 0⟩

/-- The string of `hiPage` and its NUL, read into `0x80005000`. -/
theorem hiPage_copyIn : CopyIn hiPage 0x80001000 0 0x80005000 3 (fun i => 0x80004000 + i) := by
  refine ⟨?_, ?_, by decide +kernel⟩
  · unfold Mapped
    decide +kernel
  · unfold OnPaths OnPath
    decide +kernel

theorem copyinstrLoop_spec_hi :
    CopyIn hiPage 0x80001000 0 0x80005000 3 (fun i => 0x80004000 + i) ∧
      ∃ mem', copyinstrLoop 0x80001000 2 hiPage 0x80005000 0 10 false = some (⟨mem', hiPage.freelist⟩, 0) ∧
        (∀ i < 2, mem' (0x80005000 + i) = hiPage.mem (0x80004000 + i)) ∧ mem' (0x80005000 + 2) = 0 ∧
        ∀ x, (∀ i ≤ 2, x ≠ 0x80005000 + i) → mem' x = hiPage.mem x :=
  ⟨hiPage_copyIn,
    copyinstrLoop_spec 0x80001000 2 hiPage 0x80005000 0 10 2 _ (by decide) (by decide) (by decide) (by decide)
      hiPage_copyIn (by decide +kernel) (by decide +kernel)⟩

end Vm

end Xv6
