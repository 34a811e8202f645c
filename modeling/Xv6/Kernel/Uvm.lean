/-
# `Xv6.Kernel.Uvm` — a process's address space (`vm.c`, `growproc`)

The functions of `vm.c` that change a user page table: `mappages` enters
leaf entries, making tables with `walk`; `uvmunmap` clears them and can
give the pages back to `kfree`; `uvmalloc` and `uvmdealloc` grow and
shrink a process's memory a page at a time, and `growproc` of `proc.c`
calls them for `sbrk`.

**Model.**  As in `Xv6.Kernel.Vm`: physical memory and the free list are a
`Kmem`, a panic is an `.error`.  Every loop runs on the same `fuel`, the
bound on the rounds of any loop of the call; `none` when it runs out, so a
result is `Option (Except String _)`.  A loop that calls another passes it
the whole `fuel` and counts its own rounds apart (`rounds`).

`perm` of `mappages` is the `uint64` it becomes in
`PA2PTE(pa) | perm | PTE_V`; the callers pass small positive flags.  The
`int` arguments of `growproc` and the `int npages` of `uvmdealloc` convert
as C converts them: sign-extension to `uint64`, truncation to `int`.

The specifications are in `Xv6.Kernel.UvmSpec`.
-/
import Xv6.Kernel.Vm

namespace Xv6

namespace Vm

open Kalloc

/-! ## `mappages` and `uvmunmap` -/

/-- The loop of `mappages`, from the page `a` to the page `last`, entering
`PA2PTE(pa) | perm | PTE_V` for each: `-1` when `walk` cannot make a
table, a panic when the entry is already valid. -/
def mappagesLoop (pagetable perm last : UInt64) : (fuel : Nat) → Kmem → (a pa : UInt64) →
    Option (Except String (Kmem × Int32))
  | 0, _, _, _ => none
  | fuel + 1, k, a, pa =>
    match walk k pagetable a true with
    | .error e => some (.error e)
    | .ok (k, pte) =>
      if pte = 0 then some (.ok (k, -1))
      else if read k.mem pte &&& PTE_V ≠ 0 then some (.error "mappages: remap")
      else
        let k : Kmem := ⟨ByteMem.store64 k.mem pte.toNat (PA2PTE pa ||| perm ||| PTE_V), k.freelist⟩
        if a = last then some (.ok (k, 0))
        else mappagesLoop pagetable perm last fuel k (a + PGSIZE) (pa + PGSIZE)

/-- `mappages(pagetable, va, size, pa, perm)`. -/
def mappages (fuel : Nat) (k : Kmem) (pagetable va size pa perm : UInt64) :
    Option (Except String (Kmem × Int32)) :=
  if size = 0 then some (.error "mappages: size")
  else mappagesLoop pagetable perm (PGROUNDDOWN (va + size - 1)) fuel k (PGROUNDDOWN va) pa

/-- The loop of `uvmunmap`, from `a` while `a < stop`: each page must be
mapped by a leaf; its page goes to `kfree` when `do_free` says so, and its
entry is cleared. -/
def uvmunmapLoop (kend pagetable stop : UInt64) (do_free : Bool) : (fuel : Nat) → Kmem → (a : UInt64) →
    Option (Except String Kmem)
  | 0, _, _ => none
  | fuel + 1, k, a =>
    if a < stop then
      match walk k pagetable a false with
      | .error e => some (.error e)
      | .ok (k, pte) =>
        if pte = 0 then some (.error "uvmunmap: walk")
        else if read k.mem pte &&& PTE_V = 0 then some (.error "uvmunmap: not mapped")
        else if PTE_FLAGS (read k.mem pte) = PTE_V then some (.error "uvmunmap: not a leaf")
        else
          let freed : Except String Kmem := if do_free then kfree kend k (PTE2PA (read k.mem pte)) else .ok k
          match freed with
          | .error e => some (.error e)
          | .ok k => uvmunmapLoop kend pagetable stop do_free fuel ⟨ByteMem.store64 k.mem pte.toNat 0, k.freelist⟩
              (a + PGSIZE)
    else some (.ok k)

/-- `uvmunmap(pagetable, va, npages, do_free)`. -/
def uvmunmap (kend : UInt64) (fuel : Nat) (k : Kmem) (pagetable va npages : UInt64) (do_free : Bool) :
    Option (Except String Kmem) :=
  if va % PGSIZE ≠ 0 then some (.error "uvmunmap: not aligned")
  else uvmunmapLoop kend pagetable (va + npages * PGSIZE) do_free fuel k va

/-- `uvmcreate()`: a zeroed page for an empty table, or 0. -/
def uvmcreate (k : Kmem) : Kmem × UInt64 :=
  let (k, pagetable) := kalloc k
  if pagetable = 0 then (k, 0)
  else (⟨Bytes.memset k.mem pagetable.toNat 0 PGSIZE.toUInt32, k.freelist⟩, pagetable)

attribute [grind] mappagesLoop mappages uvmunmapLoop uvmunmap uvmcreate

/-! ## Growing and shrinking -/

/-- `uvmdealloc(pagetable, oldsz, newsz)`: the new size, after the whole
pages above it are unmapped and freed. -/
def uvmdealloc (kend : UInt64) (fuel : Nat) (k : Kmem) (pagetable oldsz newsz : UInt64) :
    Option (Except String (Kmem × UInt64)) :=
  if newsz ≥ oldsz then some (.ok (k, oldsz))
  else if PGROUNDUP newsz < PGROUNDUP oldsz then
    -- `int npages = (PGROUNDUP(oldsz) - PGROUNDUP(newsz)) / PGSIZE;`
    let npages : Int32 := ((PGROUNDUP oldsz - PGROUNDUP newsz) / PGSIZE).toUInt32.toInt32
    match uvmunmap kend fuel k pagetable (PGROUNDUP newsz) npages.toInt64.toUInt64 true with
    | none => none
    | some (.error e) => some (.error e)
    | some (.ok k) => some (.ok (k, newsz))
  else some (.ok (k, newsz))

/-- The loop of `uvmalloc` from `a` (`oldsz` already rounded up): a zeroed
page from `kalloc` mapped at each page below `newsz`; on a failure what
was mapped is undone and the result is 0. -/
def uvmallocLoop (kend pagetable oldsz newsz perm : UInt64) (fuel : Nat) : (rounds : Nat) → Kmem → (a : UInt64) →
    Option (Except String (Kmem × UInt64))
  | 0, _, _ => none
  | rounds + 1, k, a =>
    if a < newsz then
      let (k, mem) := kalloc k
      if mem = 0 then
        match uvmdealloc kend fuel k pagetable a oldsz with
        | none => none
        | some (.error e) => some (.error e)
        | some (.ok (k, _)) => some (.ok (k, 0))
      else
        let k : Kmem := ⟨Bytes.memset k.mem mem.toNat 0 PGSIZE.toUInt32, k.freelist⟩
        match mappages fuel k pagetable a PGSIZE mem perm with
        | none => none
        | some (.error e) => some (.error e)
        | some (.ok (k, r)) =>
          if r ≠ 0 then
            match kfree kend k mem with
            | .error e => some (.error e)
            | .ok k =>
              match uvmdealloc kend fuel k pagetable a oldsz with
              | none => none
              | some (.error e) => some (.error e)
              | some (.ok (k, _)) => some (.ok (k, 0))
          else uvmallocLoop kend pagetable oldsz newsz perm fuel rounds k (a + PGSIZE)
    else some (.ok (k, newsz))

/-- `uvmalloc(pagetable, oldsz, newsz, xperm)`: the new size, or 0. -/
def uvmalloc (kend : UInt64) (fuel : Nat) (k : Kmem) (pagetable oldsz newsz xperm : UInt64) :
    Option (Except String (Kmem × UInt64)) :=
  if newsz < oldsz then some (.ok (k, oldsz))
  else uvmallocLoop kend pagetable (PGROUNDUP oldsz) newsz (PTE_R ||| PTE_U ||| xperm) fuel fuel k (PGROUNDUP oldsz)

/-- `growproc(n)` for a process with page table `pagetable` and size `sz`:
the process's new size and the result. -/
def growproc (kend : UInt64) (fuel : Nat) (k : Kmem) (pagetable sz : UInt64) (n : Int32) :
    Option (Except String (Kmem × UInt64 × Int32)) :=
  if n > 0 then
    match uvmalloc kend fuel k pagetable sz (sz + n.toInt64.toUInt64) PTE_W with
    | none => none
    | some (.error e) => some (.error e)
    | some (.ok (k, sz')) => if sz' = 0 then some (.ok (k, sz, -1)) else some (.ok (k, sz', 0))
  else if n < 0 then
    match uvmdealloc kend fuel k pagetable sz (sz + n.toInt64.toUInt64) with
    | none => none
    | some (.error e) => some (.error e)
    | some (.ok (k, sz')) => some (.ok (k, sz', 0))
  else some (.ok (k, sz, 0))

end Vm

end Xv6
