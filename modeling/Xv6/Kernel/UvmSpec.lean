/-
# `Xv6.Kernel.UvmSpec` — what the address-space functions do to a tree

A process's page table and the allocator share physical memory.  `Space`
says how they sit together: the free list read through memory as in
`Xv6.Kernel.Kalloc`, the page table a `Tree`, and no free page a table.
`uvmcreate`, `walk(..., 1)`, `mappages` and `uvmunmap` of one page keep
`Space`, and their effect is stated on the tree's leaves (`leaf`), which
`walkaddr` decodes.  The loops of `uvmalloc` and `uvmdealloc`, and
`growproc` over them, are modelled in `Xv6.Kernel.Uvm` and not specified
here.

**Proved here.**

    Space.empty           a zeroed page off the free list roots an empty
                          address space
    uvmcreate_spec        uvmcreate takes the head of the free list for it
    walkLoop_alloc_step   one level of walk(..., 1): down a valid entry, a
                          new table from the head of the free list, or 0
                          when the list is empty
    Space.addTable        a new table from the free list keeps `Space`
    walk_alloc_spec       walk(..., 1) keeps every leaf and `Space`, takes
                          its tables from the front of the free list, and
                          returns the page's level-0 slot, or 0 only when
                          the list ran out
    mappages_page         mappages of one page sets its leaf and no other,
                          or returns -1, every leaf kept, when the list
                          ran out
    mappages_walkaddr     after mappages, walkaddr gives the new page at
                          its address and what it gave before elsewhere
    Space.push            kfree of a page that is neither free nor a table
                          keeps `Space`
    uvmunmap_page         uvmunmap of one mapped page frees it and clears
                          its leaf, and no other
-/
import Xv6.Kernel.PageTable
import Xv6.Kernel.Uvm
import Xv6.Kernel.VmCopy

namespace Xv6

namespace Vm

open Kalloc

/-- `x` is a byte of the page at `p`. -/
def inPage (p : UInt64) (x : Nat) : Prop := p.toNat ≤ x ∧ x < p.toNat + 4096

/-- A process's page table beside the allocator: the free list is read
through memory and its pages are pages, the table is a tree, and no free
page is one of its tables. -/
structure Space (kend : UInt64) (k : Kmem) (root : UInt64) (free : List UInt64) : Prop where
  chain : Chain k free
  pages : ∀ p ∈ free, Page kend p
  tree : Tree kend k.mem root
  apart : ∀ p ∈ free, ∀ r t, Index r → node k.mem root r = some t → t ≠ p

/-! ## An empty address space -/

section Empty

variable {kend : UInt64} {k : Kmem} {root : UInt64} {free : List UInt64}

/-- A zeroed page off the free list is the root of an empty address
space beside it. -/
theorem Space.empty (hroot : Page kend root) (hz : ∀ x, root.toNat ≤ x → x < root.toNat + 4096 → k.mem x = 0)
    (hc : Chain k free) (hp : ∀ p ∈ free, Page kend p) (hr : root ∉ free) : Space kend k root free := by
  obtain ⟨hT, hnone⟩ := Tree.zero hroot hz
  refine ⟨hc, hp, hT, fun p hpf r t hr' hn => ?_⟩
  cases r with
  | nil =>
    -- the root is the only table
    rw [node_nil, Option.some.injEq] at hn
    exact fun h => hr (hn ▸ h ▸ hpf)
  | cons i r =>
    rw [hnone i (hr'.2 i List.mem_cons_self)] at hn
    cases hn

/-- Physical memory with three free pages from `0x80002000` and the
zeroed page at `0x80001000` below them. -/
def freshSpace : Kmem :=
  ⟨ByteMem.store64 (ByteMem.store64 (fun _ => 0) 0x80002000 0x80003000) 0x80003000 0x80004000, 0x80002000⟩

theorem freshSpace_chain : Chain freshSpace [0x80002000, 0x80003000, 0x80004000] := by
  decide +kernel

-- one page at a time: over all of `UInt64` the bounded quantifier would be decided by enumeration
theorem freshSpace_pages : ∀ p ∈ ([0x80002000, 0x80003000, 0x80004000] : List UInt64), Page KERNBASE p := by
  intro p hp
  simp only [List.mem_cons, List.not_mem_nil, or_false] at hp
  rcases hp with rfl | rfl | rfl <;> decide +kernel

theorem freshSpace_space : Space KERNBASE freshSpace 0x80001000 [0x80002000, 0x80003000, 0x80004000] := by
  have hroot : (0x80001000 : UInt64).toNat = 0x80001000 := rfl
  refine Space.empty (by decide +kernel) (fun x h1 h2 => ?_) freshSpace_chain freshSpace_pages (by decide +kernel)
  rw [hroot] at h1 h2
  -- the two words of the list are in the pages above the root
  show ByteMem.put (ByteMem.put (fun _ => 0) 0x80002000 8 _) 0x80003000 8 _ x = 0
  rw [ByteMem.put_of_not_mem (by omega), ByteMem.put_of_not_mem (by omega)]

theorem uvmcreate_of_ne_zero (h : k.freelist ≠ 0) :
    uvmcreate k = (⟨ByteMem.fill k.mem k.freelist.toNat 4096 0, next k.mem k.freelist⟩, k.freelist) := by
  rw [uvmcreate, kalloc_of_ne_zero h]
  dsimp only
  rw [if_neg h, memset_page, Kmem.pop]
  dsimp only
  rw [ByteMem.fill_fill]
  rfl

/-- `uvmcreate` makes the head of the free list the root of an empty
address space, with the rest of the list beside it, and writes nothing
off that page; with the list empty it returns 0. -/
theorem uvmcreate_spec (hc : Chain k free) (hp : ∀ p ∈ free, Page kend p) :
    (free = [] ∧ uvmcreate k = (k, 0)) ∨
      ∃ rest, free = (uvmcreate k).2 :: rest ∧ Space kend (uvmcreate k).1 (uvmcreate k).2 rest ∧
        (∀ a b l, a < 512 → leaf (uvmcreate k).1.mem (uvmcreate k).2 a b l = 0) ∧
        ∀ x, ¬inPage (uvmcreate k).2 x → (uvmcreate k).1.mem x = k.mem x := by
  cases free with
  | nil =>
    left
    refine ⟨rfl, ?_⟩
    rw [uvmcreate, kalloc_nil hc]
    rfl
  | cons p rest =>
    obtain ⟨hq, hne, hrest⟩ := id hc
    have hnd := Threaded.nodup hc
    have hpp := hp p List.mem_cons_self
    have hrp : ∀ r ∈ rest, Page kend r := fun r hr => hp r (List.mem_cons_of_mem p hr)
    have hfresh : p ∉ rest := (List.nodup_cons.mp hnd).1
    right
    rw [uvmcreate_of_ne_zero hne, hq]
    have hz : ∀ x, p.toNat ≤ x → x < p.toNat + 4096 → ByteMem.fill k.mem p.toNat 4096 0 x = 0 :=
      fun x h1 h2 => ByteMem.fill_of_mem ⟨h1, h2⟩
    -- the zeroing stays inside the popped page, away from the rest's first words
    have hc' : Chain ⟨ByteMem.fill k.mem p.toNat 4096 0, next k.mem p⟩ rest := by
      refine Threaded.congr (fun r hr => ?_) (hq ▸ hrest)
      exact next_fill hpp.aligned (hrp r hr).aligned (fun h => hfresh (h ▸ hr)) 0
    refine ⟨rest, rfl, Space.empty hpp hz hc' hrp hfresh, fun a b l ha => ?_, fun x hx => ?_⟩
    · -- no table below the zeroed root
      unfold leaf
      rw [(Tree.zero hpp hz).2 a ha [b]]
    · unfold inPage at hx
      dsimp only at hx ⊢
      exact ByteMem.fill_of_not_mem (by omega)

theorem uvmcreate_spec_fresh :
    Chain freshSpace [0x80002000, 0x80003000, 0x80004000] ∧
      (∀ p ∈ [0x80002000, 0x80003000, 0x80004000], Page KERNBASE p) ∧
      (([0x80002000, 0x80003000, 0x80004000] : List UInt64) = [] ∧ uvmcreate freshSpace = (freshSpace, 0) ∨
        ∃ rest, [0x80002000, 0x80003000, 0x80004000] = (uvmcreate freshSpace).2 :: rest ∧
          Space KERNBASE (uvmcreate freshSpace).1 (uvmcreate freshSpace).2 rest ∧
          (∀ a b l, a < 512 → leaf (uvmcreate freshSpace).1.mem (uvmcreate freshSpace).2 a b l = 0) ∧
          ∀ x, ¬inPage (uvmcreate freshSpace).2 x → (uvmcreate freshSpace).1.mem x = freshSpace.mem x) :=
  ⟨freshSpace_chain, freshSpace_pages, uvmcreate_spec freshSpace_chain freshSpace_pages⟩

end Empty

/-! ## One level of `walk(..., 1)` -/

theorem addTable_fill (mem : Nat → UInt8) (t : UInt64) (i : Nat) (p : UInt64) (v : UInt8) :
    addTable (ByteMem.fill mem p.toNat 4096 v) t i p = addTable mem t i p := by
  rw [addTable, addTable, ByteMem.fill_fill]

/-- One level of a walk that allocates, at a table below `PHYSTOP`: down a
valid entry; else a table from `kalloc`, zeroed and entered; else 0. -/
theorem walkLoop_alloc_step {t : UInt64} (ht : t.toNat ≤ PHYSTOP.toNat) (va : UInt64) (level : Nat) (k : Kmem) :
    walkLoop va true (level + 1) k t =
      match child k.mem t (PX (level + 1) va).toNat with
      | some c => walkLoop va true level k c
      | none =>
        if k.freelist = 0 then (k, 0)
        else walkLoop va true level ⟨addTable k.mem t (PX (level + 1) va).toNat k.freelist, next k.mem k.freelist⟩
          k.freelist := by
  rw [walkLoop]
  dsimp only
  rw [child, read_slot ht]
  by_cases hv : entry k.mem t (PX (level + 1) va).toNat &&& PTE_V ≠ 0
  · rw [if_pos hv, if_pos hv]
  · have hna : ¬(!true) = true := by decide
    rw [if_neg hv, if_neg hv, if_neg hna]
    by_cases hf : k.freelist = 0
    · rw [if_pos hf, kalloc, if_neg (not_not.mpr hf)]
      simp only [hf]
      rfl
    · rw [if_neg hf, kalloc_of_ne_zero hf]
      simp only [Kmem.pop, if_neg hf, memset_page, slot_toNat ht]
      rw [show ((0 : Int32).toUInt32.toUInt8) = 0 from rfl, ← addTable_fill _ t _ k.freelist 5]
      rfl

/-! ## A new table from the free list -/

section AddTable

variable {kend : UInt64} {k : Kmem} {root : UInt64} {p : UInt64} {rest : List UInt64} {q : List Nat} {i : Nat}
  {t : UInt64}

/-- Entering the head of the free list as a table keeps `Space`, with the
rest of the list. -/
theorem Space.addTable (hS : Space kend k root (p :: rest)) (hq : Index (q ++ [i])) (ht : node k.mem root q = some t) :
    Space kend ⟨addTable k.mem t i p, next k.mem p⟩ root rest ∧
      node (addTable k.mem t i p) root (q ++ [i]) = some p := by
  have hp := hS.pages p List.mem_cons_self
  have hfresh : ∀ r u, Index r → node k.mem root r = some u → u ≠ p := hS.apart p List.mem_cons_self
  have htp := hS.tree.page q t hq.of_append ht
  have hi : i < 512 := hq.2 i (by simp)
  obtain ⟨hhead, -, hrest⟩ := id hS.chain
  have hnd := Threaded.nodup hS.chain
  have hself := node_addTable_self hS.tree hq ht hp hfresh [] (by simpa using hq)
  rw [if_pos rfl] at hself
  refine ⟨⟨?_, fun r hr => hS.pages r (List.mem_cons_of_mem p hr), Tree.of_addTable hS.tree hq ht hp hfresh, ?_⟩, hself⟩
  · -- the rest of the list is read at pages that are neither the new table nor a table
    show Threaded (next (Vm.addTable k.mem t i p)) 0 (next k.mem p) rest
    rw [hhead] at hrest
    refine Threaded.congr (fun r hr => ?_) hrest
    have hrp := hS.pages r (List.mem_cons_of_mem p hr)
    have hrne : r ≠ p := fun h => (List.nodup_cons.mp hnd).1 (h ▸ hr)
    have hrt : r ≠ t := (hS.apart r (List.mem_cons_of_mem p hr) q t hq.of_append ht).symm
    have hw : entry (Vm.addTable k.mem t i p) r 0 = entry (ByteMem.fill k.mem p.toNat 4096 0) r 0 :=
      entry_store_of_ne htp.aligned hrp.aligned hi (by omega) (Or.inl hrt) _
    have hf : entry (ByteMem.fill k.mem p.toNat 4096 0) r 0 = entry k.mem r 0 :=
      entry_fill_of_ne hp.aligned hrp.aligned hrne (by omega) 0
    simp only [entry, Nat.mul_zero, Nat.add_zero] at hw hf
    rw [next, next, hw, hf]
  · -- the new table was at the head of the list, not in its rest
    intro r hr s u hs hn
    by_cases hthrough : ∃ s', s = q ++ i :: s'
    · obtain ⟨s', rfl⟩ := hthrough
      rw [node_addTable_self hS.tree hq ht hp hfresh s' hs] at hn
      split at hn
      · cases hn
        exact fun h => (List.nodup_cons.mp hnd).1 (h ▸ hr)
      · cases hn
    · simp only [not_exists] at hthrough
      rw [node_addTable_of_ne hS.tree hq ht hp hfresh hs hthrough] at hn
      exact hS.apart r (List.mem_cons_of_mem p hr) s u hs hn

end AddTable

/-! ## Growing the tree from the free list -/

/-- `k'` is `k` with the first `n` free pages taken as new tables: the old
tables are as they were, every table is old or one of those pages, and
memory off the old tables and those pages is untouched. -/
structure Grows (kend root : UInt64) (free : List UInt64) (k k' : Kmem) (n : Nat) : Prop where
  space : Space kend k' root (free.drop n)
  old : ∀ r t, Index r → node k.mem root r = some t → node k'.mem root r = some t
  new : ∀ r t, Index r → node k'.mem root r = some t → node k.mem root r = some t ∨ t ∈ free.take n
  frame : ∀ x, (∀ p ∈ free.take n, ¬inPage p x) →
    (∀ r t, Index r → node k.mem root r = some t → ¬inPage t x) → k'.mem x = k.mem x

section Grows

variable {kend root : UInt64} {free : List UInt64} {k k₁ k₂ : Kmem} {n₁ n₂ : Nat}

theorem Grows.refl (hS : Space kend k root free) : Grows kend root free k k 0 where
  space := hS
  old _ _ _ h := h
  new _ _ _ h := Or.inl h
  frame _ _ _ := rfl

theorem Grows.trans (h₁ : Grows kend root free k k₁ n₁) (h₂ : Grows kend root (free.drop n₁) k₁ k₂ n₂) :
    Grows kend root free k k₂ (n₁ + n₂) where
  space := by
    rw [← List.drop_drop]
    exact h₂.space
  old r t hr hn := h₂.old r t hr (h₁.old r t hr hn)
  new r t hr hn := by
    rcases h₂.new r t hr hn with h | h
    · rcases h₁.new r t hr h with h' | h'
      · exact Or.inl h'
      · exact Or.inr (List.take_subset_take_left _ (by omega) h')
    · rw [List.take_add]
      exact Or.inr (List.mem_append_right _ h)
  frame x hx hold := by
    rw [List.take_add] at hx
    -- off the first pages and the old tables, `x` is off `k₁`'s tables too
    have hx₁ : ∀ r t, Index r → node k₁.mem root r = some t → ¬inPage t x := fun r t hr hn => by
      rcases h₁.new r t hr hn with h | h
      · exact hold r t hr h
      · exact hx t (List.mem_append_left _ h)
    rw [h₂.frame x (fun p hp => hx p (List.mem_append_right _ hp)) hx₁,
      h₁.frame x (fun p hp => hx p (List.mem_append_left _ hp)) hold]

end Grows

section AddTableGrows

variable {kend : UInt64} {k : Kmem} {root : UInt64} {p : UInt64} {rest : List UInt64} {q : List Nat} {i : Nat}
  {t : UInt64}

/-- Entering the head of the free list as a table grows the tree by it. -/
theorem Grows.addTable (hS : Space kend k root (p :: rest)) (hq : Index (q ++ [i])) (ht : node k.mem root q = some t)
    (hnone : child k.mem t i = none) :
    Grows kend root (p :: rest) k ⟨addTable k.mem t i p, next k.mem p⟩ 1 := by
  have hp := hS.pages p List.mem_cons_self
  have hfresh : ∀ r u, Index r → node k.mem root r = some u → u ≠ p := hS.apart p List.mem_cons_self
  have htp := hS.tree.page q t hq.of_append ht
  have hi : i < 512 := hq.2 i (by simp)
  -- a path either goes through the new entry or reads what it read before
  have hcases : ∀ r, Index r → (∃ s, r = q ++ i :: s) ∨ node (Vm.addTable k.mem t i p) root r = node k.mem root r :=
    fun r hr => by
      by_cases hthrough : ∃ s, r = q ++ i :: s
      · exact Or.inl hthrough
      · simp only [not_exists] at hthrough
        exact Or.inr (node_addTable_of_ne hS.tree hq ht hp hfresh hr hthrough)
  refine ⟨(hS.addTable hq ht).1, fun r u hr hn => ?_, fun r u hr hn => ?_, fun x hx hold => ?_⟩
  · rcases hcases r hr with ⟨s, rfl⟩ | h
    · -- below an entry that was not valid there was no table
      rw [node_append, ht, Option.bind_some, node_cons, hnone] at hn
      cases hn
    · rw [h]
      exact hn
  · rcases hcases r hr with ⟨s, rfl⟩ | h
    · rw [node_addTable_self hS.tree hq ht hp hfresh s hr] at hn
      split at hn
      · cases hn
        exact Or.inr (by simp)
      · cases hn
    · exact Or.inl (h ▸ hn)
  · have hxp : ¬inPage p x := hx p (by simp)
    have hxt : ¬inPage t x := hold q t hq.of_append ht
    unfold inPage at hxp hxt
    show ByteMem.store64 (ByteMem.fill k.mem p.toNat 4096 0) (t.toNat + 8 * i) (PA2PTE p ||| PTE_V) x = k.mem x
    rw [ByteMem.store64, ByteMem.put_of_not_mem (by omega), ByteMem.fill_of_not_mem (by omega)]

end AddTableGrows

/-! ## `walk(..., 1)` -/

/-- The path to the level-0 table of an address. -/
theorem PX_index (va : UInt64) : Index [(PX 2 va).toNat, (PX 1 va).toNat] := ⟨by simp, by simp [PX_lt]⟩

/-- The entry at the level-0 slot of an address is its leaf. -/
theorem read_slot_leaf {mem : Nat → UInt8} {root t va : UInt64}
    (ht : node mem root [(PX 2 va).toNat, (PX 1 va).toNat] = some t) (htp : t.toNat ≤ PHYSTOP.toNat) :
    read mem (slot t 0 va) = leaf mem root (PX 2 va).toNat (PX 1 va).toNat (PX 0 va).toNat := by
  rw [read_slot htp]
  unfold leaf
  rw [ht]

section Walk

variable {kend : UInt64} {k : Kmem} {root : UInt64} {free : List UInt64}

theorem Space.nil_of_freelist (hS : Space kend k root free) (h : k.freelist = 0) : free = [] := by
  cases free with
  | nil => rfl
  | cons p rest => exact absurd (hS.chain.1 ▸ h) hS.chain.2.1

theorem Space.head_of_freelist (hS : Space kend k root free) (h : k.freelist ≠ 0) :
    ∃ rest, free = k.freelist :: rest := by
  cases free with
  | nil => exact absurd hS.chain h
  | cons p rest => exact ⟨rest, by rw [hS.chain.1]⟩

/-- The last level of `walk(..., 1)`, from the level-1 table `c` of the
address: its level-0 table, made from the head of the free list if it is
missing, and the slot in it. -/
theorem walk_level1 (hS : Space kend k root free) {c : UInt64} (va : UInt64)
    (hc : node k.mem root [(PX 2 va).toNat] = some c) :
    ∃ n, Grows kend root free k (walkLoop va true 1 k c).1 n ∧
      (∀ a b l, a < 512 → b < 512 → l < 512 → leaf (walkLoop va true 1 k c).1.mem root a b l = leaf k.mem root a b l) ∧
      ((walkLoop va true 1 k c).2 = 0 ∧ free.drop n = [] ∨
        ∃ t, node (walkLoop va true 1 k c).1.mem root [(PX 2 va).toNat, (PX 1 va).toNat] = some t ∧
          (walkLoop va true 1 k c).2 = slot t 0 va) := by
  have hidx := PX_index va
  have hcp := hS.tree.page _ c ⟨by simp, by simp [PX_lt]⟩ hc
  have hpath : node k.mem root [(PX 2 va).toNat, (PX 1 va).toNat] =
      child k.mem c (PX 1 va).toNat := by
    rw [show [(PX 2 va).toNat, (PX 1 va).toNat] = [(PX 2 va).toNat] ++ [(PX 1 va).toNat] from rfl, node_append, hc,
      Option.bind_some, node_cons]
    cases child k.mem c (PX 1 va).toNat <;> rfl
  rw [walkLoop_alloc_step hcp.toNat_le va 0 k]
  cases hc0 : child k.mem c (PX (0 + 1) va).toNat with
  | some c0 =>
    -- the table is there: nothing changes
    dsimp only
    refine ⟨0, Grows.refl hS, fun _ _ _ _ _ _ => rfl, Or.inr ⟨c0, ?_, rfl⟩⟩
    show node k.mem root [(PX 2 va).toNat, (PX 1 va).toNat] = some c0
    rw [hpath]
    exact hc0
  | none =>
    dsimp only
    by_cases hf : k.freelist = 0
    · rw [if_pos hf]
      exact ⟨0, Grows.refl hS, fun _ _ _ _ _ _ => rfl, Or.inl ⟨rfl, hS.nil_of_freelist hf⟩⟩
    · rw [if_neg hf]
      obtain ⟨rest, hfree⟩ := hS.head_of_freelist hf
      subst hfree
      have hq : Index ([(PX 2 va).toNat] ++ [(PX 1 va).toNat]) := hidx
      obtain ⟨-, hnew⟩ := hS.addTable hq hc
      have hp := hS.pages _ List.mem_cons_self
      exact ⟨1, Grows.addTable hS hq hc hc0,
        fun a b l ha hb hl => leaf_addTable hS.tree hq hc hp (hS.apart _ List.mem_cons_self) hc0 ha hb hl,
        Or.inr ⟨_, hnew, rfl⟩⟩

/-- `walk(pagetable, va, 1)`'s loop keeps every leaf and `Space`, enters
tables only from the front of the free list, and returns the slot of the
address in its level-0 table, or 0 only when the free list ran out. -/
theorem walk_alloc_spec (hS : Space kend k root free) (va : UInt64) :
    ∃ n, Grows kend root free k (walkLoop va true 2 k root).1 n ∧
      (∀ a b l, a < 512 → b < 512 → l < 512 → leaf (walkLoop va true 2 k root).1.mem root a b l = leaf k.mem root a b l) ∧
      ((walkLoop va true 2 k root).2 = 0 ∧ free.drop n = [] ∨
        ∃ t, node (walkLoop va true 2 k root).1.mem root [(PX 2 va).toNat, (PX 1 va).toNat] = some t ∧
          (walkLoop va true 2 k root).2 = slot t 0 va) := by
  have hroot := hS.tree.page [] root ⟨by simp, by simp⟩ rfl
  have hpath : node k.mem root [(PX 2 va).toNat] = child k.mem root (PX 2 va).toNat := by
    rw [node_cons]
    cases child k.mem root (PX 2 va).toNat <;> rfl
  rw [walkLoop_alloc_step hroot.toNat_le va 1 k]
  cases hc : child k.mem root (PX (1 + 1) va).toNat with
  | some c => exact walk_level1 hS va (hpath.trans hc)
  | none =>
    dsimp only
    by_cases hf : k.freelist = 0
    · rw [if_pos hf]
      exact ⟨0, Grows.refl hS, fun _ _ _ _ _ _ => rfl, Or.inl ⟨rfl, hS.nil_of_freelist hf⟩⟩
    · rw [if_neg hf]
      obtain ⟨rest, hfree⟩ := hS.head_of_freelist hf
      subst hfree
      have hq : Index ([] ++ [(PX 2 va).toNat]) := ⟨by simp, by simp [PX_lt]⟩
      obtain ⟨hS₁, hnew⟩ := hS.addTable hq rfl
      -- then the last level, in the grown tree
      obtain ⟨n, hg, hleaf, hres⟩ := walk_level1 hS₁ va hnew
      have hp := hS.pages _ List.mem_cons_self
      refine ⟨1 + n, (Grows.addTable hS hq rfl hc).trans hg, fun a b l ha hb hl => ?_, ?_⟩
      · rw [hleaf a b l ha hb hl]
        exact leaf_addTable hS.tree hq rfl hp (hS.apart _ List.mem_cons_self) hc ha hb hl
      · rw [← List.drop_drop]
        exact hres

end Walk

/-! ## A leaf entry in a grown tree -/

section SetLeafGrows

variable {kend root : UInt64} {free : List UInt64} {k k₁ : Kmem} {n : Nat}

/-- A leaf written into a table of a grown tree keeps it grown: the write
is inside a table. -/
theorem Grows.setLeaf (h : Grows kend root free k k₁ n) {a b l : Nat} {t : UInt64} (ha : a < 512) (hb : b < 512)
    (hl : l < 512) (ht : node k₁.mem root [a, b] = some t) (v : UInt64) :
    Grows kend root free k ⟨setLeaf k₁.mem t l v, k₁.freelist⟩ n := by
  have hT := h.space.tree
  have hab : Index [a, b] := ⟨by simp, by simp [ha, hb]⟩
  have htp := hT.page _ t hab ht
  have hnode := fun r (hr : Index r) => node_setLeaf hT ha hb hl ht v hr
  refine ⟨⟨?_, h.space.pages, Tree.of_setLeaf hT ha hb hl ht v, fun p hp r u hr hn =>
    h.space.apart p hp r u hr (hnode r hr ▸ hn)⟩, fun r u hr hn => (hnode r hr).symm ▸ h.old r u hr hn,
    fun r u hr hn => h.new r u hr (hnode r hr ▸ hn), fun x hx hold => ?_⟩
  · -- the free pages are not the leaf's table
    refine Threaded.congr (fun r hr => ?_) h.space.chain
    have hrp := h.space.pages r hr
    have hrt : r ≠ t := (h.space.apart r hr _ t hab ht).symm
    have hw : entry (Vm.setLeaf k₁.mem t l v) r 0 = entry k₁.mem r 0 :=
      entry_store_of_ne htp.aligned hrp.aligned hl (by omega) (Or.inl hrt) v
    simp only [entry, Nat.mul_zero, Nat.add_zero] at hw
    rw [next, next, hw]
  · -- `x` is off the leaf's table, which is old or one of the new pages
    have hxt : ¬inPage t x := by
      rcases h.new _ t hab ht with hold' | hnew
      · exact hold _ t hab hold'
      · exact hx t hnew
    unfold inPage at hxt
    show ByteMem.store64 k₁.mem (t.toNat + 8 * l) v x = k.mem x
    rw [ByteMem.store64, ByteMem.put_of_not_mem (by omega)]
    exact h.frame x hx hold

end SetLeafGrows

/-! ## `mappages` of one page -/

theorem PGROUNDDOWN_of_aligned {a : UInt64} (h : a.toNat % 4096 = 0) : PGROUNDDOWN a = a := by
  apply UInt64.toNat_inj.mp
  rw [PGROUNDDOWN_toNat]
  omega

/-- The last byte of an aligned page below `MAXVA` rounds down to the page. -/
theorem PGROUNDDOWN_last {a : UInt64} (h : a.toNat % 4096 = 0) (hva : a < MAXVA) :
    PGROUNDDOWN (a + PGSIZE - 1) = a := by
  have hlt : a.toNat < 2 ^ 38 := UInt64.lt_iff_toNat_lt.mp hva
  have hadd : (a + PGSIZE - 1).toNat = a.toNat + 4095 := by
    rw [UInt64.toNat_sub_of_le _ _ (by rw [UInt64.le_iff_toNat_le, UInt64.toNat_add]; simp [PGSIZE]; omega),
      UInt64.toNat_add]
    simp [PGSIZE]
    omega
  apply UInt64.toNat_inj.mp
  rw [PGROUNDDOWN_toNat, hadd]
  omega

section Mappages

variable {kend : UInt64} {k : Kmem} {root : UInt64} {free : List UInt64}

/-- `mappages` of one page whose leaf is not valid: the leaf written, or
-1 with every leaf kept, and the tree grown from the front of the free
list.  Both views of the call below are read off it. -/
theorem mappages_one (hS : Space kend k root free) (hend : 0 < kend) {va : UInt64} (hal : va.toNat % 4096 = 0)
    (hva : va < MAXVA) (hinv : leaf k.mem root (PX 2 va).toNat (PX 1 va).toNat (PX 0 va).toNat &&& PTE_V = 0)
    (fuel : Nat) (pa perm : UInt64) :
    ∃ n k' r, mappages (fuel + 1) k root va PGSIZE pa perm = some (.ok (k', r)) ∧ Grows kend root free k k' n ∧
      ((r = 0 ∧ ∀ a b l, a < 512 → b < 512 → l < 512 →
          leaf k'.mem root a b l = if a = (PX 2 va).toNat ∧ b = (PX 1 va).toNat ∧ l = (PX 0 va).toNat
            then PA2PTE pa ||| perm ||| PTE_V else leaf k.mem root a b l) ∨
      (r = -1 ∧ free.drop n = [] ∧
        ∀ a b l, a < 512 → b < 512 → l < 512 → leaf k'.mem root a b l = leaf k.mem root a b l)) := by
  obtain ⟨n, hg, hleaf, hres⟩ := walk_alloc_spec hS va
  have hwalk : walk k root va true = .ok (walkLoop va true 2 k root) := by
    rw [walk, if_neg (UInt64.not_le.mpr hva)]
  generalize hw : walkLoop va true 2 k root = w at hg hleaf hres hwalk
  obtain ⟨k₁, pte⟩ := w
  have hsize : PGSIZE ≠ 0 := by decide
  rw [mappages, if_neg hsize, PGROUNDDOWN_last hal hva, PGROUNDDOWN_of_aligned hal, mappagesLoop, hwalk]
  dsimp only
  rcases hres with ⟨hpte, hnil⟩ | ⟨t, ht, hpte⟩
  · -- no table could be made
    dsimp only at hpte
    rw [if_pos hpte]
    exact ⟨n, k₁, -1, rfl, hg, Or.inr ⟨rfl, hnil, hleaf⟩⟩
  · dsimp only at hpte ht hleaf hg
    have hT := hg.space.tree
    have htp := hT.page _ t (PX_index va) ht
    -- the entry found is the page's leaf, which is not valid
    have hread : read k₁.mem pte = leaf k.mem root (PX 2 va).toNat (PX 1 va).toNat (PX 0 va).toNat := by
      rw [← hleaf _ _ _ (PX_lt 2 va) (PX_lt 1 va) (PX_lt 0 va), hpte, read_slot_leaf ht htp.toNat_le]
    rw [if_neg (hpte ▸ slot_ne_zero htp hend 0 va), hread, if_neg (not_not.mpr hinv), if_pos rfl]
    refine ⟨n, ⟨setLeaf k₁.mem t (PX 0 va).toNat (PA2PTE pa ||| perm ||| PTE_V), k₁.freelist⟩, 0, ?_,
      hg.setLeaf (PX_lt 2 va) (PX_lt 1 va) (PX_lt 0 va) ht _, Or.inl ⟨rfl, fun a b l ha hb hl => ?_⟩⟩
    · rw [hpte, slot_toNat htp.toNat_le]
      rfl
    · show leaf (Vm.setLeaf k₁.mem t (PX 0 va).toNat _) root a b l = _
      rw [leaf_setLeaf hT (PX_lt 2 va) (PX_lt 1 va) (PX_lt 0 va) ht _ ha hb hl]
      split
      · rfl
      · exact hleaf a b l ha hb hl

/-- `mappages` of the one page at `va`, whose leaf is not valid: it returns
0 with that leaf set to `PA2PTE(pa) | perm | PTE_V` and every other leaf as
it was; or -1 when the free list runs out before the tables are made, with
every leaf as it was.  Either way its new tables come from the front of
the free list. -/
theorem mappages_page (hS : Space kend k root free) (hend : 0 < kend) {va : UInt64} (hal : va.toNat % 4096 = 0)
    (hva : va < MAXVA) (hinv : leaf k.mem root (PX 2 va).toNat (PX 1 va).toNat (PX 0 va).toNat &&& PTE_V = 0)
    (fuel : Nat) (pa perm : UInt64) :
    ∃ n k' r, mappages (fuel + 1) k root va PGSIZE pa perm = some (.ok (k', r)) ∧ Grows kend root free k k' n ∧
      ((r = 0 ∧ ∀ a b l, a < 512 → b < 512 → l < 512 →
          leaf k'.mem root a b l = if a = (PX 2 va).toNat ∧ b = (PX 1 va).toNat ∧ l = (PX 0 va).toNat
            then PA2PTE pa ||| perm ||| PTE_V else leaf k.mem root a b l) ∨
      (r = -1 ∧ free.drop n = [] ∧
        ∀ a b l, a < 512 → b < 512 → l < 512 → leaf k'.mem root a b l = leaf k.mem root a b l)) :=
  mappages_one hS hend hal hva hinv fuel pa perm

theorem mappages_page_fresh :
    Space KERNBASE freshSpace 0x80001000 [0x80002000, 0x80003000, 0x80004000] ∧ 0 < KERNBASE ∧
      (0 : UInt64).toNat % 4096 = 0 ∧ 0 < MAXVA ∧
      leaf freshSpace.mem 0x80001000 (PX 2 0).toNat (PX 1 0).toNat (PX 0 0).toNat &&& PTE_V = 0 ∧
      ∃ n k' r, mappages 1 freshSpace 0x80001000 0 PGSIZE 0x80005000 (PTE_R ||| PTE_U) = some (.ok (k', r)) ∧
        Grows KERNBASE 0x80001000 [0x80002000, 0x80003000, 0x80004000] freshSpace k' n ∧
        ((r = 0 ∧ ∀ a b l, a < 512 → b < 512 → l < 512 →
            leaf k'.mem 0x80001000 a b l = if a = (PX 2 0).toNat ∧ b = (PX 1 0).toNat ∧ l = (PX 0 0).toNat
              then PA2PTE 0x80005000 ||| (PTE_R ||| PTE_U) ||| PTE_V else leaf freshSpace.mem 0x80001000 a b l) ∨
        (r = -1 ∧ ([0x80002000, 0x80003000, 0x80004000] : List UInt64).drop n = [] ∧
          ∀ a b l, a < 512 → b < 512 → l < 512 → leaf k'.mem 0x80001000 a b l = leaf freshSpace.mem 0x80001000 a b l)) :=
  ⟨freshSpace_space, by decide, by decide, by decide, by decide +kernel,
    mappages_page freshSpace_space (by decide) (by decide) (by decide) (by decide +kernel) 0 0x80005000 (PTE_R ||| PTE_U)⟩

end Mappages

/-! ## `uvmunmap` of one page -/

section Unmap

variable {kend : UInt64} {k : Kmem} {root : UInt64} {free : List UInt64} {p : UInt64}

/-- `kfree` of a page that is not a table writes only inside that page,
so off every table. -/
theorem push_off_tables (hS : Space kend k root free) (hp : Page kend p)
    (htab : ∀ r t, Index r → node k.mem root r = some t → t ≠ p) :
    ∀ r t, Index r → node k.mem root r = some t → ∀ x, t.toNat ≤ x → x < t.toNat + 4096 → (k.push p).mem x = k.mem x := by
  intro r t hr hn x h1 h2
  have := pages_apart (hS.tree.page r t hr hn).aligned hp.aligned (htab r t hr hn)
  show ByteMem.store64 (ByteMem.fill k.mem p.toNat 4096 1) p.toNat k.freelist x = k.mem x
  rw [ByteMem.store64, ByteMem.put_of_not_mem (by omega), ByteMem.fill_of_not_mem (by omega)]

/-- `kfree` of a page that is neither free nor a table puts it at the head
of the free list and keeps `Space`. -/
theorem Space.push (hS : Space kend k root free) (hend : 0 < kend) (hp : Page kend p) (hfree : p ∉ free)
    (htab : ∀ r t, Index r → node k.mem root r = some t → t ≠ p) : Space kend (k.push p) root (p :: free) := by
  have hframe := push_off_tables hS hp htab
  obtain ⟨k', hk, hc⟩ := kfree_chain hend hp (fun q hq => (hS.pages q hq).aligned) hfree hS.chain
  rw [kfree_of_page k hp, Except.ok.injEq] at hk
  refine ⟨hk ▸ hc, ?_, Tree.frame hS.tree hframe, fun q hq r t hr hn => ?_⟩
  · intro q hq
    rcases List.mem_cons.mp hq with rfl | hq
    · exact hp
    · exact hS.pages q hq
  · rw [node_frame hframe hr] at hn
    rcases List.mem_cons.mp hq with rfl | hq
    · exact htab r t hr hn
    · exact hS.apart q hq r t hr hn

/-- `uvmunmap(pagetable, va, 1, 1)` of a page mapped by a leaf whose page
is neither free nor a table: no panic; the page goes to the head of the
free list, its leaf becomes 0 and every other leaf is as it was. -/
theorem uvmunmap_page (hS : Space kend k root free) (hend : 0 < kend) {va : UInt64} (hal : va.toNat % 4096 = 0)
    (hva : va < MAXVA) (hV : leaf k.mem root (PX 2 va).toNat (PX 1 va).toNat (PX 0 va).toNat &&& PTE_V ≠ 0)
    (hflags : PTE_FLAGS (leaf k.mem root (PX 2 va).toNat (PX 1 va).toNat (PX 0 va).toNat) ≠ PTE_V)
    (hp : Page kend (PTE2PA (leaf k.mem root (PX 2 va).toNat (PX 1 va).toNat (PX 0 va).toNat)))
    (hfree : PTE2PA (leaf k.mem root (PX 2 va).toNat (PX 1 va).toNat (PX 0 va).toNat) ∉ free)
    (htab : ∀ r t, Index r → node k.mem root r = some t →
      t ≠ PTE2PA (leaf k.mem root (PX 2 va).toNat (PX 1 va).toNat (PX 0 va).toNat)) (fuel : Nat) :
    ∃ k', uvmunmap kend (fuel + 2) k root va 1 true = some (.ok k') ∧
      Space kend k' root (PTE2PA (leaf k.mem root (PX 2 va).toNat (PX 1 va).toNat (PX 0 va).toNat) :: free) ∧
      ∀ a b l, a < 512 → b < 512 → l < 512 →
        leaf k'.mem root a b l = if a = (PX 2 va).toNat ∧ b = (PX 1 va).toNat ∧ l = (PX 0 va).toNat
          then 0 else leaf k.mem root a b l := by
  generalize hpa : PTE2PA (leaf k.mem root (PX 2 va).toNat (PX 1 va).toNat (PX 0 va).toNat) = pa at hp hfree htab
  have hidx := PX_index va
  -- a valid leaf has its level-0 table
  obtain ⟨t, ht⟩ : ∃ t, node k.mem root [(PX 2 va).toNat, (PX 1 va).toNat] = some t := by
    cases hn : node k.mem root [(PX 2 va).toNat, (PX 1 va).toNat] with
    | none =>
      unfold leaf at hV
      rw [hn] at hV
      dsimp only at hV
      exact absurd (by decide) hV
    | some t => exact ⟨t, rfl⟩
  have htp := hS.tree.page _ t hidx ht
  have hleaf := read_slot_leaf ht htp.toNat_le
  have hwalk : walk k root va false = .ok (k, slot t 0 va) := by
    have hslot := walkLoop_eq_node hS.tree k.freelist va
    rw [ht] at hslot
    rw [walk, if_neg (UInt64.not_le.mpr hva)]
    exact congrArg Except.ok (Prod.ext (walkLoop_read va 2 k root) hslot)
  -- the one round, and the bound it stops at
  have hva' : va.toNat < 2 ^ 38 := UInt64.lt_iff_toNat_lt.mp hva
  have hstop : va + 1 * PGSIZE = va + PGSIZE := by rw [UInt64.one_mul]
  have hlt : va < va + PGSIZE := by
    rw [UInt64.lt_iff_toNat_lt, UInt64.toNat_add]
    simp [PGSIZE]
    omega
  have hal' : va % PGSIZE = 0 := by
    apply UInt64.toNat_inj.mp
    rw [UInt64.toNat_mod]
    exact hal
  -- the page goes to the free list without touching a table, then the leaf is cleared
  have hS₁ := hS.push hend hp hfree htab
  have hframe := push_off_tables hS hp htab
  have ht₁ : node (k.push pa).mem root [(PX 2 va).toNat, (PX 1 va).toNat] = some t := by
    rw [node_frame hframe hidx]
    exact ht
  refine ⟨⟨setLeaf (k.push pa).mem t (PX 0 va).toNat 0, pa⟩, ?_, ?_, fun a b l ha hb hl => ?_⟩
  · rw [uvmunmap, if_neg (not_not.mpr hal'), hstop, uvmunmapLoop, if_pos hlt, hwalk]
    dsimp only
    rw [if_neg (slot_ne_zero htp hend 0 va), hleaf, if_neg hV, if_neg hflags, if_pos rfl, hpa, kfree_of_page k hp]
    dsimp only
    have hnlt : ¬(va + PGSIZE < va + PGSIZE) := UInt64.lt_irrefl _
    rw [uvmunmapLoop, if_neg hnlt, slot_toNat htp.toNat_le]
    rfl
  · exact (Grows.setLeaf (Grows.refl hS₁) (PX_lt 2 va) (PX_lt 1 va) (PX_lt 0 va) ht₁ 0).space
  · show leaf (setLeaf (k.push pa).mem t (PX 0 va).toNat 0) root a b l = _
    rw [leaf_setLeaf hS₁.tree (PX_lt 2 va) (PX_lt 1 va) (PX_lt 0 va) ht₁ 0 ha hb hl, leaf_frame hframe ha hb hl]

/-- `freshSpace` with tables at `0x80002000` and `0x80003000` for address
0, mapping it to the user page `0x80004000`, and nothing left free. -/
def mappedSpace : Kmem :=
  ⟨setLeaf (addTable (addTable freshSpace.mem 0x80001000 0 0x80002000) 0x80002000 0 0x80003000) 0x80003000 0
    (PA2PTE 0x80004000 ||| (PTE_R ||| PTE_U) ||| PTE_V), 0⟩

/-- The two tables of `mappedSpace` enter two pages of `freshSpace`'s list,
and its user page is the third, so no table. -/
theorem mappedSpace_space :
    Space KERNBASE mappedSpace 0x80001000 [] ∧
      ∀ r t, Index r → node mappedSpace.mem 0x80001000 r = some t → t ≠ 0x80004000 := by
  obtain ⟨hS₁, hn₁⟩ := Space.addTable (q := []) (i := 0) freshSpace_space ⟨by simp, by simp⟩ rfl
  obtain ⟨hS₂, hn₂⟩ := Space.addTable (q := [0]) (i := 0) hS₁ ⟨by simp, by simp⟩ hn₁
  have hnode := fun r (hr : Index r) =>
    node_setLeaf (l := 0) hS₂.tree (by decide) (by decide) (by decide) hn₂ (PA2PTE 0x80004000 ||| (PTE_R ||| PTE_U) ||| PTE_V) hr
  refine ⟨⟨rfl, by simp, Tree.of_setLeaf hS₂.tree (by decide) (by decide) (by decide) hn₂ _, by simp⟩,
    fun r t hr hn => ?_⟩
  exact hS₂.apart 0x80004000 List.mem_cons_self r t hr ((hnode r hr).symm.trans hn)

theorem uvmunmap_page_mapped :
    Space KERNBASE mappedSpace 0x80001000 [] ∧ 0 < KERNBASE ∧ (0 : UInt64).toNat % 4096 = 0 ∧ 0 < MAXVA ∧
      leaf mappedSpace.mem 0x80001000 (PX 2 0).toNat (PX 1 0).toNat (PX 0 0).toNat &&& PTE_V ≠ 0 ∧
      PTE_FLAGS (leaf mappedSpace.mem 0x80001000 (PX 2 0).toNat (PX 1 0).toNat (PX 0 0).toNat) ≠ PTE_V ∧
      Page KERNBASE (PTE2PA (leaf mappedSpace.mem 0x80001000 (PX 2 0).toNat (PX 1 0).toNat (PX 0 0).toNat)) ∧
      PTE2PA (leaf mappedSpace.mem 0x80001000 (PX 2 0).toNat (PX 1 0).toNat (PX 0 0).toNat) ∉ ([] : List UInt64) ∧
      (∀ r t, Index r → node mappedSpace.mem 0x80001000 r = some t →
        t ≠ PTE2PA (leaf mappedSpace.mem 0x80001000 (PX 2 0).toNat (PX 1 0).toNat (PX 0 0).toNat)) ∧
      ∃ k', uvmunmap KERNBASE 2 mappedSpace 0x80001000 0 1 true = some (.ok k') ∧
        Space KERNBASE k' 0x80001000 [PTE2PA (leaf mappedSpace.mem 0x80001000 (PX 2 0).toNat (PX 1 0).toNat (PX 0 0).toNat)] ∧
        ∀ a b l, a < 512 → b < 512 → l < 512 →
          leaf k'.mem 0x80001000 a b l = if a = (PX 2 0).toNat ∧ b = (PX 1 0).toNat ∧ l = (PX 0 0).toNat
            then 0 else leaf mappedSpace.mem 0x80001000 a b l := by
  obtain ⟨hS, htab⟩ := mappedSpace_space
  -- the leaf of address 0 is the entry entered for the user page
  have hpa : PTE2PA (leaf mappedSpace.mem 0x80001000 (PX 2 0).toNat (PX 1 0).toNat (PX 0 0).toNat) = 0x80004000 := by
    decide +kernel
  have hV : leaf mappedSpace.mem 0x80001000 (PX 2 0).toNat (PX 1 0).toNat (PX 0 0).toNat &&& PTE_V ≠ 0 := by
    decide +kernel
  have hflags : PTE_FLAGS (leaf mappedSpace.mem 0x80001000 (PX 2 0).toNat (PX 1 0).toNat (PX 0 0).toNat) ≠ PTE_V := by
    decide +kernel
  have hp : Page KERNBASE (PTE2PA (leaf mappedSpace.mem 0x80001000 (PX 2 0).toNat (PX 1 0).toNat (PX 0 0).toNat)) := by
    rw [hpa]
    decide +kernel
  have htab' : ∀ r t, Index r → node mappedSpace.mem 0x80001000 r = some t →
      t ≠ PTE2PA (leaf mappedSpace.mem 0x80001000 (PX 2 0).toNat (PX 1 0).toNat (PX 0 0).toNat) := by
    rw [hpa]
    exact htab
  exact ⟨hS, by decide, by decide, by decide, hV, hflags, hp, List.not_mem_nil, htab',
    uvmunmap_page hS (by decide) (by decide) (by decide) hV hflags hp List.not_mem_nil htab' 0⟩

end Unmap

/-! ## What `walkaddr` sees after `mappages` -/

/-- Setting more bits keeps the bits of `z` that `x` has. -/
theorem or_and_eq {x y z : UInt64} (h : x &&& z = z) : (x ||| y) &&& z = z := by
  apply UInt64.toBitVec_inj.mp
  ext i hi
  have hb : (x.toBitVec &&& z.toBitVec)[i] = z.toBitVec[i] := by rw [← UInt64.toBitVec_and, h]
  simp only [UInt64.toBitVec_and, UInt64.toBitVec_or, BitVec.getElem_and, BitVec.getElem_or] at hb ⊢
  cases hx : x.toBitVec[i] <;> cases hz : z.toBitVec[i] <;> simp_all

/-- The leaf `mappages` writes, with the user bit among its flags, decodes
to its page. -/
theorem userPage_PA2PTE {pa perm : UInt64} (hal : Aligned pa) (hpa : pa.toNat < 2 ^ 56) (hperm : perm.toNat < 2 ^ 10)
    (hU : perm &&& PTE_U = PTE_U) : userPage (PA2PTE pa ||| perm ||| PTE_V) = pa := by
  have hf : (perm ||| PTE_V).toNat < 2 ^ 10 := by
    rw [UInt64.toNat_or]
    exact Nat.or_lt_two_pow hperm (by decide)
  have hV : (perm ||| PTE_V) &&& PTE_V = PTE_V := by
    rw [UInt64.or_comm]
    exact or_and_eq UInt64.and_self
  have hU' : (perm ||| PTE_V) &&& PTE_U = PTE_U := or_and_eq hU
  unfold userPage
  rw [UInt64.or_assoc, PA2PTE_and _ _ _ (by decide), hV, if_neg (by decide), PA2PTE_and _ _ _ (by decide), hU',
    if_neg (by decide), PTE2PA_PA2PTE hal hpa hf]

/-- Below `MAXVA` the three indices of an address name its page. -/
theorem PX_eq_iff {va va' : UInt64} (hva : va < MAXVA) (hva' : va' < MAXVA) (hal : va.toNat % 4096 = 0) :
    ((PX 2 va').toNat = (PX 2 va).toNat ∧ (PX 1 va').toNat = (PX 1 va).toNat ∧ (PX 0 va').toNat = (PX 0 va).toNat) ↔
      PGROUNDDOWN va' = va := by
  have h1 := UInt64.lt_iff_toNat_lt.mp hva
  have h2 := UInt64.lt_iff_toNat_lt.mp hva'
  have hmax : MAXVA.toNat = 2 ^ 38 := rfl
  rw [hmax] at h1 h2
  rw [PX_toNat (by decide), PX_toNat (by decide), PX_toNat (by decide), PX_toNat (by decide), PX_toNat (by decide),
    PX_toNat (by decide), ← UInt64.toNat_inj, PGROUNDDOWN_toNat]
  constructor
  · rintro ⟨h2', h1', h0'⟩
    omega
  · intro h
    omega

/-- Addresses at or above `MAXVA` are never mapped. -/
theorem walkaddr_of_le {va : UInt64} (k : Kmem) (pagetable : UInt64) (h : MAXVA ≤ va) : walkaddr k pagetable va = 0 := by
  unfold walkaddr
  rw [if_pos h]

section Walkaddr

variable {kend : UInt64} {k : Kmem} {root : UInt64} {free : List UInt64}

/-- What `walkaddr` sees after `mappages` of one user page whose leaf is
not valid: its page gives `pa` and every other address what it gave
before; or, when the free list ran out, every address gives what it gave
before. -/
theorem mappages_walkaddr (hS : Space kend k root free) (hend : 0 < kend) {va : UInt64} (hal : va.toNat % 4096 = 0)
    (hva : va < MAXVA) (hinv : leaf k.mem root (PX 2 va).toNat (PX 1 va).toNat (PX 0 va).toNat &&& PTE_V = 0)
    (fuel : Nat) {pa perm : UInt64} (hpa : Aligned pa) (hpa56 : pa.toNat < 2 ^ 56) (hperm : perm.toNat < 2 ^ 10)
    (hU : perm &&& PTE_U = PTE_U) :
    ∃ k' r, mappages (fuel + 1) k root va PGSIZE pa perm = some (.ok (k', r)) ∧
      ((r = 0 ∧ ∀ va', va' < MAXVA →
          walkaddr k' root va' = if PGROUNDDOWN va' = va then pa else walkaddr k root va') ∨
        (r = -1 ∧ ∀ va', walkaddr k' root va' = walkaddr k root va')) := by
  obtain ⟨n, k', r, hrun, hg, hres⟩ := mappages_one hS hend hal hva hinv fuel pa perm
  refine ⟨k', r, hrun, ?_⟩
  -- both trees decode through their leaves
  have hdec : ∀ va', va' < MAXVA → walkaddr k root va' =
      userPage (leaf k.mem root (PX 2 va').toNat (PX 1 va').toNat (PX 0 va').toNat) :=
    fun va' hva' => walkaddr_eq_leaf hS.tree hend k.freelist hva'
  have hdec' : ∀ va', va' < MAXVA → walkaddr k' root va' =
      userPage (leaf k'.mem root (PX 2 va').toNat (PX 1 va').toNat (PX 0 va').toNat) :=
    fun va' hva' => walkaddr_eq_leaf hg.space.tree hend k'.freelist hva'
  rcases hres with ⟨hr, hleaf⟩ | ⟨hr, -, hleaf⟩
  · refine Or.inl ⟨hr, fun va' hva' => ?_⟩
    rw [hdec' va' hva', hleaf _ _ _ (PX_lt 2 va') (PX_lt 1 va') (PX_lt 0 va')]
    by_cases hpage : PGROUNDDOWN va' = va
    · rw [if_pos ((PX_eq_iff hva hva' hal).mpr hpage), if_pos hpage, userPage_PA2PTE hpa hpa56 hperm hU]
    · rw [if_neg (mt (PX_eq_iff hva hva' hal).mp hpage), if_neg hpage, hdec va' hva']
  · refine Or.inr ⟨hr, fun va' => ?_⟩
    by_cases hva' : va' < MAXVA
    · rw [hdec' va' hva', hdec va' hva', hleaf _ _ _ (PX_lt 2 va') (PX_lt 1 va') (PX_lt 0 va')]
    · rw [walkaddr_of_le _ _ (UInt64.not_lt.mp hva'), walkaddr_of_le _ _ (UInt64.not_lt.mp hva')]

theorem mappages_walkaddr_fresh :
    Space KERNBASE freshSpace 0x80001000 [0x80002000, 0x80003000, 0x80004000] ∧ 0 < KERNBASE ∧
      (0 : UInt64).toNat % 4096 = 0 ∧ 0 < MAXVA ∧
      leaf freshSpace.mem 0x80001000 (PX 2 0).toNat (PX 1 0).toNat (PX 0 0).toNat &&& PTE_V = 0 ∧
      Aligned 0x80005000 ∧ (0x80005000 : UInt64).toNat < 2 ^ 56 ∧ (PTE_R ||| PTE_U).toNat < 2 ^ 10 ∧
      (PTE_R ||| PTE_U) &&& PTE_U = PTE_U ∧
      ∃ k' r, mappages 1 freshSpace 0x80001000 0 PGSIZE 0x80005000 (PTE_R ||| PTE_U) = some (.ok (k', r)) ∧
        ((r = 0 ∧ ∀ va', va' < MAXVA →
            walkaddr k' 0x80001000 va' = if PGROUNDDOWN va' = 0 then 0x80005000 else walkaddr freshSpace 0x80001000 va') ∨
          (r = -1 ∧ ∀ va', walkaddr k' 0x80001000 va' = walkaddr freshSpace 0x80001000 va')) :=
  ⟨freshSpace_space, by decide, by decide, by decide, by decide +kernel, rfl, by decide, by decide, by decide,
    mappages_walkaddr freshSpace_space (by decide) (by decide) (by decide) (by decide +kernel) 0 rfl (by decide)
      (by decide) (by decide)⟩

end Walkaddr

end Vm

end Xv6
