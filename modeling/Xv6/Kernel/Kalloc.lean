/-
# `Xv6.Kernel.Kalloc` — the physical page allocator of `kalloc.c`

`kmem.freelist` heads a list threaded through the free pages themselves:
the first eight bytes of a free page are its `struct run`, whose `next` is
the address of the next free page, and the null pointer ends the list.
`kfree` pushes a page, `kalloc` pops one, `getfreemem` walks the list, and
`kinit` frees every whole page from the end of the kernel to `PHYSTOP`.

**Model.**  Physical memory is a byte memory (`Xv6.Lib.ByteMem`) and
pointers are `uint64`; `r->next` is the word `load64` reads at `r`.
`end`, the first address after the kernel, is placed by the linker and is
the parameter `kend`.  A panic is an `.error`.  The lock is not modelled:
each call is one step.  The loops of `getfreemem` and `freerange` run on
fuel and give `none` when it runs out.

**Proved here.**

    Chain                    kmem's list, read through memory
    kfree_chain              kfree pushes an aligned page in range
    kalloc_chain             kalloc pops the head
    getfreememLoop_chain     getfreemem counts PGSIZE for each free page
    freerangeLoop_chain      freerange frees its pages in ascending order
    kinit_chain              after kinit the free pages are every page
                             from PGROUNDUP(end) below PHYSTOP, top first
    kfree_twice              a page freed twice is its own next: kalloc
                             hands it out twice and getfreemem never returns

The allocator run together with the code that holds its pages is in
`Xv6.Kernel.KallocRun`.
-/
import Xv6.Lib.ByteMem
import Xv6.Lib.Threaded
import Xv6.Kernel.String

namespace Xv6

/-! ## Pages (`riscv.h`, `memlayout.h`) -/

/-- `PGSIZE`: bytes per page. -/
def PGSIZE : UInt64 := 4096

def KERNBASE : UInt64 := 0x80000000

/-- `PHYSTOP`: the end of the RAM the kernel uses. -/
def PHYSTOP : UInt64 := KERNBASE + 128 * 1024 * 1024

def PGROUNDUP (sz : UInt64) : UInt64 := (sz + PGSIZE - 1) &&& ~~~(PGSIZE - 1)

attribute [grind] PGSIZE PGROUNDUP

theorem PHYSTOP_toNat : PHYSTOP.toNat = 2281701376 := rfl

theorem PGROUNDUP_toNat {sz : UInt64} (h : sz.toNat + 4095 < 2 ^ 64) :
    (PGROUNDUP sz).toNat = (sz.toNat + 4095) / 4096 * 4096 := by
  have hadd : (sz + PGSIZE - 1).toNat = sz.toNat + 4095 := by
    have hs : sz + PGSIZE - 1 = sz + 4095 := by
      rw [PGSIZE, UInt64.sub_eq_add_neg, UInt64.add_assoc]
      rfl
    have h4095 : (4095 : UInt64).toNat = 4095 := rfl
    rw [hs, UInt64.toNat_add, h4095, Nat.mod_eq_of_lt h]
  rw [PGROUNDUP, ByteMem.toNat_and_not _ _ (k := 12) (by decide) (by decide), hadd]
  rfl

namespace Kalloc

/-- `kmem`, with the physical memory its list is threaded through. -/
structure Kmem where
  mem : Nat → UInt8
  freelist : UInt64

/-- `r->next`: the first word of the page at `r`, its `struct run`. -/
def next (mem : Nat → UInt8) (r : UInt64) : UInt64 := ByteMem.load64 mem r.toNat

/-- `kmem`'s list visits the pages of `l`, in order, and ends at the null
pointer. -/
def Chain (k : Kmem) (l : List UInt64) : Prop := Threaded (next k.mem) 0 k.freelist l

attribute [grind] next

instance (k : Kmem) (l : List UInt64) : Decidable (Chain k l) :=
  Threaded.decidable (next k.mem) 0 k.freelist l

/-! ## The calls -/

/-- `kfree(pa)`: a page not aligned, below `end` or at or above `PHYSTOP`
is a panic. -/
def kfree (kend : UInt64) (k : Kmem) (pa : UInt64) : Except String Kmem :=
  if pa % PGSIZE ≠ 0 ∨ pa < kend ∨ pa ≥ PHYSTOP then .error "kfree"
  else
    -- fill with junk to catch dangling refs
    let mem := Bytes.memset k.mem pa.toNat 1 PGSIZE.toUInt32
    -- `r->next = kmem.freelist; kmem.freelist = r;`
    .ok { mem := ByteMem.store64 mem pa.toNat k.freelist, freelist := pa }

/-- `kalloc()`: the head of the list, filled with junk, or 0 when the list
is empty.  The head's `next` is read before the junk is written. -/
def kalloc (k : Kmem) : Kmem × UInt64 :=
  let r := k.freelist
  if r ≠ 0 then ({ mem := Bytes.memset k.mem r.toNat 5 PGSIZE.toUInt32, freelist := next k.mem r }, r)
  else (k, 0)

/-- `for (r = kmem.freelist; r; r = r->next) bytes += PGSIZE;`, for at most
`fuel` rounds. -/
def getfreememLoop (mem : Nat → UInt8) : (fuel : Nat) → (r bytes : UInt64) → Option UInt64
  | 0, _, _ => none
  | fuel + 1, r, bytes => if r ≠ 0 then getfreememLoop mem fuel (next mem r) (bytes + PGSIZE) else some bytes

/-- `getfreemem()`. -/
def getfreemem (fuel : Nat) (k : Kmem) : Option UInt64 :=
  getfreememLoop k.mem fuel k.freelist 0

/-- `for(; p + PGSIZE <= (char*)pa_end; p += PGSIZE) kfree(p);`, for at
most `fuel` rounds. -/
def freerangeLoop (kend pa_end : UInt64) : (fuel : Nat) → Kmem → UInt64 → Option (Except String Kmem)
  | 0, _, _ => none
  | fuel + 1, k, p =>
    if p + PGSIZE ≤ pa_end then
      match kfree kend k p with
      | .ok k => freerangeLoop kend pa_end fuel k (p + PGSIZE)
      | .error e => some (.error e)
    else some (.ok k)

/-- `freerange(pa_start, pa_end)`. -/
def freerange (kend : UInt64) (fuel : Nat) (k : Kmem) (pa_start pa_end : UInt64) : Option (Except String Kmem) :=
  freerangeLoop kend pa_end fuel k (PGROUNDUP pa_start)

/-- `kinit()`: `kmem.freelist` starts null, as a global does. -/
def kinit (kend : UInt64) (fuel : Nat) (mem : Nat → UInt8) : Option (Except String Kmem) :=
  freerange kend fuel { mem := mem, freelist := 0 } kend PHYSTOP

attribute [grind] kfree kalloc getfreememLoop getfreemem freerangeLoop

/-! ## Pages and their first words -/

/-- The pages `kfree` takes without a panic. -/
def Page (kend pa : UInt64) : Prop := pa % PGSIZE = 0 ∧ kend ≤ pa ∧ pa < PHYSTOP

attribute [grind] Page

instance (kend pa : UInt64) : Decidable (Page kend pa) := inferInstanceAs (Decidable (_ ∧ _ ∧ _))

/-- A page starts at a multiple of `PGSIZE`. -/
def Aligned (pa : UInt64) : Prop := pa.toNat % 4096 = 0

theorem Page.aligned {kend pa : UInt64} (h : Page kend pa) : Aligned pa := by
  have := congrArg UInt64.toNat h.1
  rwa [UInt64.toNat_mod] at this

theorem Page.toNat_le {kend pa : UInt64} (h : Page kend pa) : pa.toNat ≤ PHYSTOP.toNat :=
  Nat.le_of_lt (UInt64.lt_iff_toNat_lt.mp h.2.2)

theorem Page.ne_zero {kend pa : UInt64} (h : Page kend pa) (hend : 0 < kend) : pa ≠ 0 := by
  intro h0
  have hlt := UInt64.lt_of_lt_of_le hend h.2.1
  rw [h0] at hlt
  exact UInt64.not_lt_zero hlt

/-- The first word of a page lies outside every other page. -/
theorem word_disjoint {p q : UInt64} (hp : Aligned p) (hq : Aligned q) (hne : p ≠ q) :
    q.toNat + 8 ≤ p.toNat ∨ p.toNat + 4096 ≤ q.toNat := by
  have : p.toNat ≠ q.toNat := fun h => hne (UInt64.toNat_inj.mp h)
  unfold Aligned at hp hq
  omega

theorem next_fill {mem : Nat → UInt8} {p q : UInt64} (hp : Aligned p) (hq : Aligned q) (hne : p ≠ q) (v : UInt8) :
    next (ByteMem.fill mem p.toNat 4096 v) q = next mem q :=
  ByteMem.load64_fill_of_disjoint v (word_disjoint hp hq hne).symm

theorem next_store64 {mem : Nat → UInt8} {p q : UInt64} (hp : Aligned p) (hq : Aligned q) (hne : p ≠ q) (w : UInt64) :
    next (ByteMem.store64 mem p.toNat w) q = next mem q := by
  have := word_disjoint hp hq hne
  exact ByteMem.load64_store64_of_disjoint w (by omega)

theorem memset_page (mem : Nat → UInt8) (pa : UInt64) (c : Int32) :
    Bytes.memset mem pa.toNat c PGSIZE.toUInt32 = ByteMem.fill mem pa.toNat 4096 c.toUInt32.toUInt8 :=
  Bytes.memset_eq_fill mem pa.toNat c _

/-! ## The calls on the list -/

/-- What `kfree` leaves when its page passes the checks. -/
def Kmem.push (k : Kmem) (pa : UInt64) : Kmem :=
  ⟨ByteMem.store64 (ByteMem.fill k.mem pa.toNat 4096 1) pa.toNat k.freelist, pa⟩

attribute [grind] Kmem.push

@[simp] theorem Kmem.push_freelist (k : Kmem) (pa : UInt64) : (k.push pa).freelist = pa := rfl

/-- What `kalloc` leaves when the list is not empty. -/
def Kmem.pop (k : Kmem) : Kmem :=
  ⟨ByteMem.fill k.mem k.freelist.toNat 4096 5, next k.mem k.freelist⟩

attribute [grind] Kmem.pop

theorem kfree_of_page {kend pa : UInt64} (k : Kmem) (h : Page kend pa) : kfree kend k pa = .ok (k.push pa) := by
  have hc : ¬(pa % PGSIZE ≠ 0 ∨ pa < kend ∨ pa ≥ PHYSTOP) := by
    rw [not_or, not_or, not_not, UInt64.not_lt, ge_iff_le, UInt64.not_le]
    exact h
  rw [kfree, if_neg hc, memset_page]
  rfl

theorem kfree_of_not_page {kend pa : UInt64} (k : Kmem) (h : ¬Page kend pa) : kfree kend k pa = .error "kfree" := by
  have hc : pa % PGSIZE ≠ 0 ∨ pa < kend ∨ pa ≥ PHYSTOP := by
    rw [Page, not_and_or, not_and_or, UInt64.not_le, UInt64.not_lt] at h
    exact h
  rw [kfree, if_pos hc]

section Lists

variable {kend : UInt64} {k : Kmem} {l : List UInt64}

/-- `kfree` pushes a page that is not on the list, without a panic. -/
theorem kfree_chain {pa : UInt64} (hend : 0 < kend) (hpa : Page kend pa) (hl : ∀ q ∈ l, Aligned q)
    (hfresh : pa ∉ l) (h : Chain k l) : ∃ k', kfree kend k pa = .ok k' ∧ Chain k' (pa :: l) := by
  refine ⟨_, kfree_of_page k hpa, ?_⟩
  show Threaded (next (ByteMem.store64 (ByteMem.fill k.mem pa.toNat 4096 1) pa.toNat k.freelist)) 0 pa (pa :: l)
  refine Threaded.push (hpa.ne_zero hend) (ByteMem.load64_store64 _ _ _) ?_ h
  -- the junk and the new `next` stay inside the page, away from the others' first words
  intro q hq
  have hne : pa ≠ q := fun he => hfresh (he ▸ hq)
  rw [next_store64 hpa.aligned (hl q hq) hne, next_fill hpa.aligned (hl q hq) hne]

theorem kalloc_of_ne_zero (h : k.freelist ≠ 0) : kalloc k = (k.pop, k.freelist) := by
  rw [kalloc, if_pos h, memset_page]
  rfl

theorem kalloc_nil (h : Chain k []) : kalloc k = (k, 0) := by
  have h0 : k.freelist = 0 := h
  rw [kalloc, if_neg (not_not.mpr h0)]

/-- `kalloc` pops the head of the list. -/
theorem kalloc_chain {q : UInt64} (hl : ∀ r ∈ q :: l, Aligned r) (h : Chain k (q :: l)) :
    (kalloc k).2 = q ∧ Chain (kalloc k).1 l := by
  obtain ⟨hq, hne, hrest⟩ := id h
  have hnd := Threaded.nodup h
  rw [kalloc_of_ne_zero hne, hq]
  refine ⟨rfl, ?_⟩
  show Threaded (next (ByteMem.fill k.mem k.freelist.toNat 4096 5)) 0 (next k.mem k.freelist) l
  rw [hq]
  -- the junk stays inside the popped page
  refine Threaded.congr (fun r hr => ?_) (hq ▸ hrest)
  have hqr : q ≠ r := fun he => (List.nodup_cons.mp hnd).1 (he ▸ hr)
  exact next_fill (hl q List.mem_cons_self) (hl r (List.mem_cons_of_mem q hr)) hqr 5

/-- The walk of `getfreemem` counts `PGSIZE` for each page of a list and
stops at its end, given a round more than the list has pages. -/
theorem getfreememLoop_chain {mem : Nat → UInt8} :
    ∀ (l : List UInt64) (fuel : Nat) (p bytes : UInt64), Threaded (next mem) 0 p l → l.length < fuel →
      getfreememLoop mem fuel p bytes = some (bytes + PGSIZE * UInt64.ofNat l.length)
  | [], fuel + 1, p, bytes, h, _ => by
    have h0 : p = 0 := h
    rw [getfreememLoop, if_neg (not_not.mpr h0), List.length_nil]
    simp
  | q :: l, fuel + 1, p, bytes, ⟨_, hp, hl⟩, hlen => by
    rw [getfreememLoop, if_pos hp, getfreememLoop_chain l fuel _ _ hl (Nat.lt_of_succ_lt_succ hlen),
      List.length_cons, UInt64.ofNat_add, UInt64.ofNat_one, UInt64.mul_add, UInt64.mul_one, UInt64.add_assoc,
      UInt64.add_comm PGSIZE]

theorem getfreemem_chain (h : Chain k l) {fuel : Nat} (hfuel : l.length < fuel) :
    getfreemem fuel k = some (PGSIZE * UInt64.ofNat l.length) := by
  rw [getfreemem, getfreememLoop_chain l fuel _ _ h hfuel, UInt64.zero_add]

end Lists

/-! ## `kinit` -/

/-- The `n` pages from `p` on, in the order `freerange` frees them. -/
def pageRange (p : UInt64) : Nat → List UInt64
  | 0 => []
  | n + 1 => p :: pageRange (p + PGSIZE) n

attribute [grind] pageRange

@[simp] theorem length_pageRange : ∀ (p : UInt64) (n : Nat), (pageRange p n).length = n
  | _, 0 => rfl
  | p, n + 1 => by rw [pageRange, List.length_cons, length_pageRange]

theorem toNat_add_PGSIZE {p : UInt64} (h : p.toNat ≤ PHYSTOP.toNat) : (p + PGSIZE).toNat = p.toNat + 4096 := by
  have hs : PGSIZE.toNat = 4096 := rfl
  rw [PHYSTOP_toNat] at h
  rw [UInt64.toNat_add, hs, Nat.mod_eq_of_lt (by omega)]

/-- The pages of a range lie above its start, below its end, and aligned
with it. -/
theorem mem_pageRange : ∀ {n : Nat} {p q : UInt64}, p.toNat + 4096 * n ≤ PHYSTOP.toNat → q ∈ pageRange p n →
    p.toNat ≤ q.toNat ∧ q.toNat + 4096 ≤ p.toNat + 4096 * n ∧ q.toNat % 4096 = p.toNat % 4096
  | 0, _, _, _, hq => absurd hq List.not_mem_nil
  | n + 1, p, q, hn, hq => by
    have hp := toNat_add_PGSIZE (p := p) (by omega)
    rcases List.mem_cons.mp hq with rfl | hq
    · omega
    · have := mem_pageRange (n := n) (p := p + PGSIZE) (by omega) hq
      omega

theorem pageRange_nodup : ∀ {n : Nat} {p : UInt64}, p.toNat + 4096 * n ≤ PHYSTOP.toNat → (pageRange p n).Nodup
  | 0, _, _ => List.nodup_nil
  | n + 1, p, hn => by
    have hp := toNat_add_PGSIZE (p := p) (by omega)
    refine List.nodup_cons.mpr ⟨fun hmem => ?_, pageRange_nodup (by omega)⟩
    have := (mem_pageRange (n := n) (p := p + PGSIZE) (by omega) hmem).1
    omega

/-- The loop of `freerange` with `n` rounds to go frees the `n` pages from
`p` on top of the list it started with, without a panic, given the pages
are in range and above those already on the list.  By induction on the
rounds to go. -/
theorem freerangeLoop_chain {kend pa_end : UInt64} (hend : 0 < kend) (hphys : pa_end ≤ PHYSTOP) (n : Nat) :
    ∀ {fuel : Nat} {k : Kmem} {p : UInt64} {l : List UInt64},
      Aligned p → kend ≤ p → p.toNat + 4096 * n ≤ pa_end.toNat → pa_end.toNat < p.toNat + 4096 * n + 4096 →
      (∀ q ∈ l, Aligned q ∧ q.toNat < p.toNat) → Chain k l → n < fuel →
      ∃ k', freerangeLoop kend pa_end fuel k p = some (.ok k') ∧ Chain k' ((pageRange p n).reverse ++ l) := by
  have hpe := UInt64.le_iff_toNat_le.mp hphys
  induction n with
  | zero =>
    intro fuel k p l _ _ _ hhi _ h hfuel
    obtain ⟨fuel, rfl⟩ := Nat.exists_eq_add_of_lt hfuel
    have hp := toNat_add_PGSIZE (p := p) (by omega)
    -- the page at `p` would end above `pa_end`: the loop stops
    have hstop : ¬p + PGSIZE ≤ pa_end := by
      rw [UInt64.le_iff_toNat_le, hp]
      omega
    rw [Nat.zero_add, freerangeLoop, if_neg hstop]
    exact ⟨k, rfl, h⟩
  | succ n ih =>
    intro fuel k p l hal hk hlo hhi hl h hfuel
    obtain ⟨fuel, rfl⟩ := Nat.exists_eq_add_of_lt (Nat.zero_lt_of_lt hfuel)
    rw [Nat.mul_succ, ← Nat.add_assoc] at hlo hhi
    have hp := toNat_add_PGSIZE (p := p) (by omega)
    have hgo : p + PGSIZE ≤ pa_end := by
      rw [UInt64.le_iff_toNat_le, hp]
      omega
    have hpage : Page kend p := by
      refine ⟨?_, hk, UInt64.lt_iff_toNat_lt.mpr (by omega)⟩
      apply UInt64.toNat_inj.mp
      rw [UInt64.toNat_mod]
      exact hal
    -- the page is above every page on the list, so not on it
    obtain ⟨k₁, hk₁, h₁⟩ := kfree_chain hend hpage (fun q hq => (hl q hq).1)
      (fun hmem => Nat.lt_irrefl _ (hl p hmem).2) h
    have hl' : ∀ q ∈ p :: l, Aligned q ∧ q.toNat < (p + PGSIZE).toNat := by
      intro q hq
      rcases List.mem_cons.mp hq with rfl | hq
      · exact ⟨hal, by omega⟩
      · exact ⟨(hl q hq).1, by have := (hl q hq).2; omega⟩
    obtain ⟨k', hk', h'⟩ := @ih fuel k₁ (p + PGSIZE) (p :: l)
      (by unfold Aligned at hal ⊢; omega) (UInt64.le_trans hk (UInt64.le_iff_toNat_le.mpr (by omega)))
      (by omega) (by omega) hl' h₁ (by omega)
    refine ⟨k', ?_, ?_⟩
    · rw [Nat.zero_add, freerangeLoop, if_pos hgo, hk₁]
      exact hk'
    · rw [pageRange, List.reverse_cons, List.append_assoc]
      exact h'

/-- The pages `kinit` frees: every whole page from `PGROUNDUP(end)` below
`PHYSTOP`. -/
def npages (kend : UInt64) : Nat := (PHYSTOP.toNat - (PGROUNDUP kend).toNat) / 4096

def allPages (kend : UInt64) : List UInt64 := pageRange (PGROUNDUP kend) (npages kend)

attribute [grind] allPages

section Boot

variable {kend : UInt64} (hphys : kend ≤ PHYSTOP)
include hphys

theorem PGROUNDUP_bounds : kend.toNat ≤ (PGROUNDUP kend).toNat ∧ (PGROUNDUP kend).toNat % 4096 = 0 ∧
    (PGROUNDUP kend).toNat ≤ PHYSTOP.toNat := by
  have hk := UInt64.le_iff_toNat_le.mp hphys
  rw [PHYSTOP_toNat] at hk ⊢
  rw [PGROUNDUP_toNat (by omega)]
  omega

/-- `npages` is the number of whole pages that fit. -/
theorem npages_spec : (PGROUNDUP kend).toNat + 4096 * npages kend ≤ PHYSTOP.toNat ∧
    PHYSTOP.toNat < (PGROUNDUP kend).toNat + 4096 * npages kend + 4096 := by
  have hhi := (PGROUNDUP_bounds hphys).2.2
  have h1 := Nat.mul_div_le (PHYSTOP.toNat - (PGROUNDUP kend).toNat) 4096
  have h2 := Nat.lt_mul_div_succ (PHYSTOP.toNat - (PGROUNDUP kend).toNat) (Nat.succ_pos 4095)
  rw [Nat.mul_succ] at h2
  unfold npages
  omega

/-- The pages the allocator manages are pages `kfree` takes. -/
theorem allPages_page {q : UInt64} (hq : q ∈ allPages kend) : Page kend q := by
  obtain ⟨hlo, hal, -⟩ := PGROUNDUP_bounds hphys
  obtain ⟨h1, h2, h3⟩ := mem_pageRange (npages_spec hphys).1 hq
  have hn := (npages_spec hphys).1
  refine ⟨?_, UInt64.le_iff_toNat_le.mpr (by omega), UInt64.lt_iff_toNat_lt.mpr (by omega)⟩
  apply UInt64.toNat_inj.mp
  rw [UInt64.toNat_mod]
  exact h3.trans hal

theorem allPages_nodup : (allPages kend).Nodup :=
  pageRange_nodup (npages_spec hphys).1

/-- `kinit` frees every page from `PGROUNDUP(end)` below `PHYSTOP`, without
a panic; the list holds them top first. -/
theorem kinit_chain (hend : 0 < kend) (mem : Nat → UInt8) {fuel : Nat} (hfuel : npages kend < fuel) :
    ∃ k, kinit kend fuel mem = some (.ok k) ∧ Chain k (allPages kend).reverse := by
  obtain ⟨hlo, hal, -⟩ := PGROUNDUP_bounds hphys
  obtain ⟨k, hk, h⟩ := @freerangeLoop_chain kend PHYSTOP hend (UInt64.le_refl _) (npages kend) fuel ⟨mem, 0⟩
    (PGROUNDUP kend) [] hal (UInt64.le_iff_toNat_le.mpr hlo) (npages_spec hphys).1 (npages_spec hphys).2
    (fun _ hq => absurd hq List.not_mem_nil) rfl hfuel
  rw [List.append_nil] at h
  exact ⟨k, hk, h⟩

end Boot

theorem kinit_chain_two_pages : PHYSTOP - 8192 ≤ PHYSTOP ∧ 0 < PHYSTOP - 8192 ∧ npages (PHYSTOP - 8192) < 3 ∧
    ∃ k, kinit (PHYSTOP - 8192) 3 (fun _ => 0) = some (.ok k) ∧ Chain k (allPages (PHYSTOP - 8192)).reverse :=
  ⟨by decide, by decide, by decide, kinit_chain (by decide) (by decide) _ (by decide)⟩

/-! ## Freeing a page twice -/

theorem getfreememLoop_self {mem : Nat → UInt8} {p : UInt64} (hp : p ≠ 0) (hself : next mem p = p) :
    ∀ (fuel : Nat) (bytes : UInt64), getfreememLoop mem fuel p bytes = none
  | 0, _ => rfl
  | fuel + 1, bytes => by
    rw [getfreememLoop, if_pos hp, hself]
    exact getfreememLoop_self hp hself fuel _

/-- `kfree` does not look for its page on the list: a page freed twice
becomes its own `next`.  `kalloc` then hands it out twice in a row, and
`getfreemem` never gets to the end of the list. -/
theorem kfree_twice {kend pa : UInt64} (hend : 0 < kend) (hpa : Page kend pa) (k : Kmem) :
    ∃ k₂, ((kfree kend k pa).bind fun k₁ => kfree kend k₁ pa) = .ok k₂ ∧
      (kalloc k₂).2 = pa ∧ (kalloc (kalloc k₂).1).2 = pa ∧ ∀ fuel, getfreemem fuel k₂ = none := by
  have hne := hpa.ne_zero hend
  have hk₂ : ((kfree kend k pa).bind fun k₁ => kfree kend k₁ pa) = .ok ((k.push pa).push pa) := by
    rw [kfree_of_page k hpa]
    exact kfree_of_page _ hpa
  -- the second `kfree` wrote `pa` as `pa`'s own `next`
  have hself : next ((k.push pa).push pa).mem pa = pa := by
    rw [Kmem.push, next]
    exact ByteMem.load64_store64 _ _ _
  -- so popping `pa` leaves `pa` at the head
  have hpop : kalloc ((k.push pa).push pa) = (((k.push pa).push pa).pop, pa) := by
    rw [kalloc_of_ne_zero (by rw [Kmem.push_freelist]; exact hne), Kmem.push_freelist]
  have hhead : ((k.push pa).push pa).pop.freelist = pa := by
    rw [Kmem.pop, Kmem.push_freelist]
    exact hself
  refine ⟨_, hk₂, by rw [hpop], ?_, fun fuel => ?_⟩
  · rw [hpop, kalloc_of_ne_zero (by rw [hhead]; exact hne), hhead]
  · rw [getfreemem, Kmem.push_freelist]
    exact getfreememLoop_self hne hself fuel 0

theorem kfree_twice_top_page : 0 < PHYSTOP - 8192 ∧ Page (PHYSTOP - 8192) (PHYSTOP - 4096) ∧
    ∃ k₂, ((kfree (PHYSTOP - 8192) ⟨fun _ => 0, 0⟩ (PHYSTOP - 4096)).bind
        fun k₁ => kfree (PHYSTOP - 8192) k₁ (PHYSTOP - 4096)) = .ok k₂ ∧
      (kalloc k₂).2 = PHYSTOP - 4096 ∧ (kalloc (kalloc k₂).1).2 = PHYSTOP - 4096 ∧
      ∀ fuel, getfreemem fuel k₂ = none :=
  ⟨by decide, by decide, kfree_twice (by decide) (by decide) _⟩

end Kalloc

end Xv6
