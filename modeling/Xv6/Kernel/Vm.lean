/-
# `Xv6.Kernel.Vm` — Sv39 page tables in physical memory (`vm.c`)

A page table is a tree of three levels of pages, each of 512 eight-byte
entries (PTEs).  A virtual address below `MAXVA` is cut into three 9-bit
indices and a 12-bit offset; `walk` follows the valid entries of levels 2
and 1 to the level-0 entry for the address, creating missing tables when
asked to, and `walkaddr` reads that entry: the physical page, or 0 when
the page is not mapped for the user.

**Model.**  The tables live in the physical memory of `Xv6.Kernel.Kalloc`,
and new ones come from its `kalloc`; an entry is the word `load64` reads
at its slot.  Pointers and entries are `uint64`, so the macros of
`riscv.h` are the shifts and masks they are.  A panic is an `.error`.
The loops of `copyout`, `copyin` and `copyinstr` run on fuel, `none` when
it runs out.

**Proved here.**

    PX_toNat, slot_toNat      the index an address selects, and its slot
    PTE2PA_PA2PTE, PA2PTE_and the physical page and the flag bits of an
                              entry made by PA2PTE(pa) | flags
    walkLoop_read             a walk that does not allocate changes nothing
    walkaddr_congr            walkaddr reads memory only at the entries on
                              the path of its address
    walkaddr_aligned          what walkaddr returns is a page

The copying loops are specified in `Xv6.Kernel.VmCopy`.
-/
import Xv6.Kernel.Kalloc

namespace Xv6

namespace Vm

open Kalloc

/-! ## Page-table entries (`riscv.h`) -/

def PGSHIFT : UInt64 := 12

def PTE_V : UInt64 := (1 : UInt64) <<< 0

def PTE_R : UInt64 := (1 : UInt64) <<< 1

def PTE_W : UInt64 := (1 : UInt64) <<< 2

def PTE_X : UInt64 := (1 : UInt64) <<< 3

/-- `PTE_U`: the user can access the page. -/
def PTE_U : UInt64 := (1 : UInt64) <<< 4

/-- `PA2PTE(pa)`: the physical page number, placed above the ten flag bits. -/
def PA2PTE (pa : UInt64) : UInt64 := (pa >>> 12) <<< 10

def PTE2PA (pte : UInt64) : UInt64 := (pte >>> 10) <<< 12

def PTE_FLAGS (pte : UInt64) : UInt64 := pte &&& 0x3FF

def PXMASK : UInt64 := 0x1FF

def PXSHIFT (level : Nat) : UInt64 := PGSHIFT + 9 * UInt64.ofNat level

/-- `PX(level, va)`: the 9-bit index of `va` in a level-`level` table. -/
def PX (level : Nat) (va : UInt64) : UInt64 := (va >>> PXSHIFT level) &&& PXMASK

/-- `MAXVA`: one bit less than Sv39 allows, which keeps clear of sign
extension. -/
def MAXVA : UInt64 := (1 : UInt64) <<< (9 + 9 + 9 + 12 - 1)

def PGROUNDDOWN (a : UInt64) : UInt64 := a &&& ~~~(PGSIZE - 1)

attribute [grind] PA2PTE PTE2PA PX

/-! ## The walk -/

/-- `*pte`: the entry stored at `pte`. -/
def read (mem : Nat → UInt8) (pte : UInt64) : UInt64 := ByteMem.load64 mem pte.toNat

/-- `&pagetable[PX(level, va)]`. -/
def slot (pagetable : UInt64) (level : Nat) (va : UInt64) : UInt64 := pagetable + 8 * PX level va

/-- The loop of `walk` from `level` down to 1, then `&pagetable[PX(0, va)]`;
0 is its null pointer.  A missing table is made, when `alloc` asks for
it, from a page of `kalloc`, zeroed and entered as valid. -/
def walkLoop (va : UInt64) (alloc : Bool) : (level : Nat) → Kmem → UInt64 → Kmem × UInt64
  | 0, k, pagetable => (k, slot pagetable 0 va)
  | level + 1, k, pagetable =>
    let pte := slot pagetable (level + 1) va
    let e := read k.mem pte
    if e &&& PTE_V ≠ 0 then walkLoop va alloc level k (PTE2PA e)
    else if !alloc then (k, 0)
    else
      let (k, p) := kalloc k
      if p = 0 then (k, 0)
      else
        -- `memset(pagetable, 0, PGSIZE); *pte = PA2PTE(pagetable) | PTE_V;`
        let mem := Bytes.memset k.mem p.toNat 0 PGSIZE.toUInt32
        walkLoop va alloc level ⟨ByteMem.store64 mem pte.toNat (PA2PTE p ||| PTE_V), k.freelist⟩ p

/-- `walk(pagetable, va, alloc)`: the address of the level-0 entry for
`va`, 0 when a table is missing and not made. -/
def walk (k : Kmem) (pagetable va : UInt64) (alloc : Bool) : Except String (Kmem × UInt64) :=
  if va ≥ MAXVA then .error "walk" else .ok (walkLoop va alloc 2 k pagetable)

/-- `walkaddr(pagetable, va)`: the physical page of `va`, or 0 when it is
not mapped for the user.  Its call `walk(pagetable, va, 0)` comes after
the check `walk` panics on, so it is the loop. -/
def walkaddr (k : Kmem) (pagetable va : UInt64) : UInt64 :=
  if va ≥ MAXVA then 0
  else
    let pte := (walkLoop va false 2 k pagetable).2
    if pte = 0 then 0
    else
      let e := read k.mem pte
      if e &&& PTE_V = 0 then 0
      else if e &&& PTE_U = 0 then 0
      else PTE2PA e

attribute [grind] read slot walkLoop walk walkaddr

/-! ## Copying between the kernel and the user -/

/-- The loop of `copyout(pagetable, dstva, src, len)`, from `src` in kernel
memory to the user's `dstva`, a page at a time; `-1` at the first page
not mapped for the user. -/
def copyoutLoop (pagetable : UInt64) : (fuel : Nat) → Kmem → (dstva src len : UInt64) → Option (Kmem × Int32)
  | 0, _, _, _, _ => none
  | fuel + 1, k, dstva, src, len =>
    if len > 0 then
      let va0 := PGROUNDDOWN dstva
      let pa0 := walkaddr k pagetable va0
      if pa0 = 0 then some (k, -1)
      else
        let n := PGSIZE - (dstva - va0)
        let n := if n > len then len else n
        let k := ⟨Bytes.memmove k.mem (pa0 + (dstva - va0)).toNat src.toNat n.toUInt32, k.freelist⟩
        copyoutLoop pagetable fuel k (va0 + PGSIZE) (src + n) (len - n)
    else some (k, 0)

def copyout (fuel : Nat) (k : Kmem) (pagetable dstva src len : UInt64) : Option (Kmem × Int32) :=
  copyoutLoop pagetable fuel k dstva src len

/-- The loop of `copyin(pagetable, dst, srcva, len)`, from the user's
`srcva` to `dst` in kernel memory. -/
def copyinLoop (pagetable : UInt64) : (fuel : Nat) → Kmem → (dst srcva len : UInt64) → Option (Kmem × Int32)
  | 0, _, _, _, _ => none
  | fuel + 1, k, dst, srcva, len =>
    if len > 0 then
      let va0 := PGROUNDDOWN srcva
      let pa0 := walkaddr k pagetable va0
      if pa0 = 0 then some (k, -1)
      else
        let n := PGSIZE - (srcva - va0)
        let n := if n > len then len else n
        let k := ⟨Bytes.memmove k.mem dst.toNat (pa0 + (srcva - va0)).toNat n.toUInt32, k.freelist⟩
        copyinLoop pagetable fuel k (dst + n) (va0 + PGSIZE) (len - n)
    else some (k, 0)

def copyin (fuel : Nat) (k : Kmem) (pagetable dst srcva len : UInt64) : Option (Kmem × Int32) :=
  copyinLoop pagetable fuel k dst srcva len

/-- The inner loop of `copyinstr` over the `n` bytes of one page from `p`:
the memory, `dst`, `max`, and whether it met the NUL. -/
def copyinstrPage (mem : Nat → UInt8) : (n : Nat) → (dst p max : UInt64) → (Nat → UInt8) × UInt64 × UInt64 × Bool
  | 0, dst, _, max => (mem, dst, max, false)
  | n + 1, dst, p, max =>
    if mem p.toNat = 0 then (Function.update mem dst.toNat 0, dst, max, true)
    else copyinstrPage (Function.update mem dst.toNat (mem p.toNat)) n (dst + 1) (p + 1) (max - 1)

/-- The outer loop of `copyinstr(pagetable, dst, srcva, max)`: `0` when it
copied a NUL, `-1` when `max` ran out first or a page is not mapped. -/
def copyinstrLoop (pagetable : UInt64) : (fuel : Nat) → Kmem → (dst srcva max : UInt64) → (got_null : Bool) →
    Option (Kmem × Int32)
  | 0, _, _, _, _, _ => none
  | fuel + 1, k, dst, srcva, max, got_null =>
    if got_null = false ∧ max > 0 then
      let va0 := PGROUNDDOWN srcva
      let pa0 := walkaddr k pagetable va0
      if pa0 = 0 then some (k, -1)
      else
        let n := PGSIZE - (srcva - va0)
        let n := if n > max then max else n
        let r := copyinstrPage k.mem n.toNat dst (pa0 + (srcva - va0)) max
        copyinstrLoop pagetable fuel ⟨r.1, k.freelist⟩ r.2.1 (va0 + PGSIZE) r.2.2.1 r.2.2.2
    else some (k, if got_null then 0 else -1)

def copyinstr (fuel : Nat) (k : Kmem) (pagetable dst srcva max : UInt64) : Option (Kmem × Int32) :=
  copyinstrLoop pagetable fuel k dst srcva max false

attribute [grind] copyoutLoop copyinLoop copyinstrPage copyinstrLoop

/-! ## Entries and indices -/

theorem PXSHIFT_toNat : ∀ level < 3, (PXSHIFT level).toNat = 12 + 9 * level := by
  decide

theorem PX_toNat {level : Nat} (h : level < 3) (va : UInt64) :
    (PX level va).toNat = va.toNat / 2 ^ (12 + 9 * level) % 512 := by
  rw [PX, ByteMem.toNat_field va _ PXMASK (k := 9) (by rw [PXSHIFT_toNat level h]; omega) rfl,
    PXSHIFT_toNat level h]
  rfl

theorem PX_lt (level : Nat) (va : UInt64) : (PX level va).toNat < 512 := by
  have h := Nat.and_le_right (n := (va >>> PXSHIFT level).toNat) (m := PXMASK.toNat)
  rw [PX, UInt64.toNat_and]
  exact Nat.lt_of_le_of_lt h (by decide)

/-- A slot of a table below `PHYSTOP` is its start and eight bytes per index. -/
theorem slot_toNat {pagetable : UInt64} (h : pagetable.toNat ≤ PHYSTOP.toNat) (level : Nat) (va : UInt64) :
    (slot pagetable level va).toNat = pagetable.toNat + 8 * (PX level va).toNat := by
  have hx := PX_lt level va
  rw [PHYSTOP_toNat] at h
  have hmul : (8 * PX level va).toNat = 8 * (PX level va).toNat := by
    rw [UInt64.toNat_mul, Nat.mod_eq_of_lt (by rw [show (8 : UInt64).toNat = 8 from rfl]; omega)]
    rfl
  rw [slot, UInt64.toNat_add, hmul, Nat.mod_eq_of_lt (by omega)]

theorem PA2PTE_toNat_mod (pa : UInt64) : (PA2PTE pa).toNat % 2 ^ 10 = 0 := by
  rw [PA2PTE, UInt64.toNat_shiftLeft, show (10 : UInt64).toNat % 64 = 10 from rfl, Nat.shiftLeft_eq,
    Nat.mod_mod_of_dvd _ (Nat.pow_dvd_pow 2 (by decide : 10 ≤ 64)), Nat.mul_mod_left]

theorem PTE2PA_toNat_mod (pte : UInt64) : (PTE2PA pte).toNat % 4096 = 0 := by
  rw [PTE2PA, UInt64.toNat_shiftLeft, show (12 : UInt64).toNat % 64 = 12 from rfl, Nat.shiftLeft_eq,
    show (4096 : Nat) = 2 ^ 12 from rfl, Nat.mod_mod_of_dvd _ (Nat.pow_dvd_pow 2 (by decide : 12 ≤ 64)),
    Nat.mul_mod_left]

/-- The flag bits of `PA2PTE(pa) | flags` are those of `flags`. -/
theorem PA2PTE_and (pa f m : UInt64) (hm : m.toNat < 2 ^ 10) : (PA2PTE pa ||| f) &&& m = f &&& m :=
  ByteMem.and_low _ f m (PA2PTE_toNat_mod pa) hm

/-- An entry made from an aligned page below `2 ^ 56` gives the page back. -/
theorem PTE2PA_PA2PTE {pa f : UInt64} (hal : Aligned pa) (hpa : pa.toNat < 2 ^ 56) (hf : f.toNat < 2 ^ 10) :
    PTE2PA (PA2PTE pa ||| f) = pa := by
  have hpte : (PA2PTE pa).toNat = pa.toNat / 2 ^ 12 * 2 ^ 10 := by
    rw [PA2PTE, ByteMem.toNat_move pa 12 10 (by decide) (by decide) (by
      rw [show (12 : UInt64).toNat = 12 from rfl, show (10 : UInt64).toNat = 10 from rfl]; omega)]
    rfl
  have hor := ByteMem.toNat_or_low (PA2PTE pa) f (PA2PTE_toNat_mod pa) hf
  apply UInt64.toNat_inj.mp
  unfold Aligned at hal
  rw [PTE2PA, ByteMem.toNat_move _ 10 12 (by decide) (by decide) (by
    rw [hor, hpte, show (12 : UInt64).toNat = 12 from rfl, show (10 : UInt64).toNat = 10 from rfl]; omega), hor, hpte]
  rw [show (12 : UInt64).toNat = 12 from rfl, show (10 : UInt64).toNat = 10 from rfl]
  omega

/-! ## Walks that only read -/

theorem walkLoop_read (va : UInt64) : ∀ (level : Nat) (k : Kmem) (pagetable : UInt64),
    (walkLoop va false level k pagetable).1 = k
  | 0, _, _ => rfl
  | level + 1, k, pagetable => by
    rw [walkLoop]
    dsimp only
    split
    · exact walkLoop_read va level k _
    · rfl

/-- The entries `walkaddr` reads for `va`, from the level-`level` table at
`pagetable` down: one slot per level, as far as the entries are valid. -/
def path (mem : Nat → UInt8) (va : UInt64) : (level : Nat) → UInt64 → List UInt64
  | 0, pagetable => [slot pagetable 0 va]
  | level + 1, pagetable =>
    let pte := slot pagetable (level + 1) va
    pte :: (if read mem pte &&& PTE_V ≠ 0 then path mem va level (PTE2PA (read mem pte)) else [])

/-- `x` is a byte of an entry on the path of `va`. -/
def OnPath (mem : Nat → UInt8) (pagetable va : UInt64) (x : Nat) : Prop :=
  ∃ s ∈ path mem va 2 pagetable, s.toNat ≤ x ∧ x < s.toNat + 8

attribute [grind] path

theorem read_congr {mem mem' : Nat → UInt8} {s : UInt64} (h : ∀ i < 8, mem' (s.toNat + i) = mem (s.toNat + i)) :
    read mem' s = read mem s :=
  ByteMem.load64_congr h

/-- The walk without allocation depends only on the entries of the path;
by induction on the levels left. -/
theorem walkLoop_congr {mem mem' : Nat → UInt8} (va : UInt64) (f f' : UInt64) (level : Nat) :
    ∀ (pagetable : UInt64), (∀ s ∈ path mem va level pagetable, ∀ i < 8, mem' (s.toNat + i) = mem (s.toNat + i)) →
      (walkLoop va false level ⟨mem', f'⟩ pagetable).2 = (walkLoop va false level ⟨mem, f⟩ pagetable).2 ∧
        path mem' va level pagetable = path mem va level pagetable := by
  induction level with
  | zero => intro _ _; exact ⟨rfl, rfl⟩
  | succ level ih =>
    intro pagetable h
    have hs := read_congr (h _ List.mem_cons_self)
    rw [walkLoop, walkLoop, path, path]
    rw [path] at h
    dsimp only at h ⊢
    rw [hs]
    by_cases hv : read mem (slot pagetable (level + 1) va) &&& PTE_V ≠ 0
    · rw [if_pos hv] at h
      obtain ⟨hw, hp⟩ := ih _ fun s hs' => h s (List.mem_cons_of_mem _ hs')
      rw [if_pos hv, if_pos hv, if_pos hv, if_pos hv, hw, hp]
      exact ⟨rfl, rfl⟩
    · -- an invalid entry ends a walk that does not allocate
      have hna : (!false) = true := rfl
      rw [if_neg hv, if_neg hv, if_neg hv, if_neg hv, if_pos hna, if_pos hna]
      exact ⟨rfl, rfl⟩

/-- The entry a walk that does not allocate returns is on the path, or
null. -/
theorem walkLoop_mem_path (va : UInt64) (level : Nat) : ∀ (k : Kmem) (pagetable : UInt64),
    (walkLoop va false level k pagetable).2 = 0 ∨ (walkLoop va false level k pagetable).2 ∈ path k.mem va level pagetable := by
  induction level with
  | zero => intro _ _; exact Or.inr List.mem_cons_self
  | succ level ih =>
    intro k pagetable
    rw [walkLoop, path]
    dsimp only
    by_cases hv : read k.mem (slot pagetable (level + 1) va) &&& PTE_V ≠ 0
    · rw [if_pos hv, if_pos hv]
      exact (ih k _).imp_right (List.mem_cons_of_mem _)
    · have hna : (!false) = true := rfl
      rw [if_neg hv, if_neg hv, if_pos hna]
      exact Or.inl rfl

/-- `walkaddr` reads memory only at the entries on the path of its
address. -/
theorem walkaddr_congr {mem mem' : Nat → UInt8} (f f' pagetable va : UInt64)
    (h : ∀ x, OnPath mem pagetable va x → mem' x = mem x) :
    walkaddr ⟨mem', f'⟩ pagetable va = walkaddr ⟨mem, f⟩ pagetable va := by
  have h8 : ∀ s ∈ path mem va 2 pagetable, ∀ i < 8, mem' (s.toNat + i) = mem (s.toNat + i) :=
    fun s hs i hi => h _ ⟨s, hs, by omega, by omega⟩
  obtain ⟨hw, -⟩ := walkLoop_congr va f f' 2 pagetable h8
  simp only [walkaddr]
  rw [hw]
  -- the leaf entry is the last on the path
  by_cases h0 : (walkLoop va false 2 ⟨mem, f⟩ pagetable).2 = 0
  · rw [if_pos h0, if_pos h0]
  · have hmem := (walkLoop_mem_path va 2 ⟨mem, f⟩ pagetable).resolve_left h0
    rw [if_neg h0, if_neg h0, read_congr (h8 _ hmem)]

theorem walkaddr_aligned (k : Kmem) (pagetable va : UInt64) : (walkaddr k pagetable va).toNat % 4096 = 0 := by
  unfold walkaddr
  dsimp only
  split
  · rfl
  split
  · rfl
  split
  · rfl
  split
  · rfl
  exact PTE2PA_toNat_mod _

end Vm

end Xv6
