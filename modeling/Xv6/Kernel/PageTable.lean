/-
# `Xv6.Kernel.PageTable` — a page table as the tree `walk` reads

`walk` reads a page table as a tree: the root table, the tables its valid
entries point to, and the tables theirs point to.  Here that tree is read
off memory.  A table is named by the indices that lead to it from the root
(`node`, a path of at most two indices below 512), and the leaf entry of a
page by its three indices (`leaf`).  `Tree` is what xv6 keeps of it: every
table is a page of its own, and no two paths lead to the same table.

Two writes change a tree: `walk` entering a zeroed page as a missing table
(`addTable`), and `mappages` or `uvmunmap` writing a leaf entry
(`setLeaf`).  Every other write the kernel makes to a process's memory
lands outside its tables, and leaves the tree alone (`Tree.frame`).

**Proved here.**

    walkLoop_eq_node   the walk without allocation follows the nodes
    walkaddr_eq_leaf   walkaddr decodes the leaf entry of the page
    Tree.frame         writes outside the tables keep nodes and leaves
    Tree.of_addTable   a new zeroed table keeps every leaf, keeps the tree
                       a tree, and is the node it was entered as
    leaf_setLeaf       a leaf write changes that one leaf
    Tree.zero          a zeroed page is the tree of an empty address space
-/
import Xv6.Kernel.Vm

namespace Xv6

namespace Vm

open Kalloc

/-! ## Tables, nodes and leaves -/

/-- Entry `i` of the table at `t`. -/
def entry (mem : Nat → UInt8) (t : UInt64) (i : Nat) : UInt64 := ByteMem.load64 mem (t.toNat + 8 * i)

/-- The table entry `i` of `t` points to, when it is valid. -/
def child (mem : Nat → UInt8) (t : UInt64) (i : Nat) : Option UInt64 :=
  if entry mem t i &&& PTE_V ≠ 0 then some (PTE2PA (entry mem t i)) else none

/-- The table a path of indices leads to from `t`. -/
def node (mem : Nat → UInt8) : UInt64 → List Nat → Option UInt64
  | t, [] => some t
  | t, i :: p => (child mem t i).bind fun c => node mem c p

/-- The leaf entry of the page with indices `i`, `j`, `l`; 0 where a table
is missing. -/
def leaf (mem : Nat → UInt8) (root : UInt64) (i j l : Nat) : UInt64 :=
  match node mem root [i, j] with
  | some t => entry mem t l
  | none => 0

/-- A path from the root to a table: at most two indices, each below 512. -/
def Index (p : List Nat) : Prop := p.length ≤ 2 ∧ ∀ x ∈ p, x < 512

attribute [grind] entry child

instance (p : List Nat) : Decidable (Index p) := inferInstanceAs (Decidable (_ ∧ _))

/-- What xv6 keeps of a page table: every table is a page, and each is
reached by one path only. -/
structure Tree (kend : UInt64) (mem : Nat → UInt8) (root : UInt64) : Prop where
  page : ∀ p t, Index p → node mem root p = some t → Page kend t
  inj : ∀ p q t, Index p → Index q → node mem root p = some t → node mem root q = some t → p = q

/-- What `walk` writes to enter the zeroed page `p` as table `i` of `t`. -/
def addTable (mem : Nat → UInt8) (t : UInt64) (i : Nat) (p : UInt64) : Nat → UInt8 :=
  ByteMem.store64 (ByteMem.fill mem p.toNat 4096 0) (t.toNat + 8 * i) (PA2PTE p ||| PTE_V)

/-- Entry `l` of the level-0 table `t` set to `v`. -/
def setLeaf (mem : Nat → UInt8) (t : UInt64) (l : Nat) (v : UInt64) : Nat → UInt8 :=
  ByteMem.store64 mem (t.toNat + 8 * l) v

/-- The page `walkaddr` returns for a leaf entry: none unless it is valid
and user-accessible. -/
def userPage (e : UInt64) : UInt64 :=
  if e &&& PTE_V = 0 then 0 else if e &&& PTE_U = 0 then 0 else PTE2PA e

attribute [grind] addTable

/-! ## Paths -/

@[simp] theorem node_nil (mem : Nat → UInt8) (t : UInt64) : node mem t [] = some t := rfl

theorem node_cons (mem : Nat → UInt8) (t : UInt64) (i : Nat) (p : List Nat) :
    node mem t (i :: p) = (child mem t i).bind fun c => node mem c p := rfl

theorem node_append (mem : Nat → UInt8) (p q : List Nat) :
    ∀ t, node mem t (p ++ q) = (node mem t p).bind fun c => node mem c q := by
  induction p with
  | nil => intro t; rfl
  | cons i p ih =>
    intro t
    rw [List.cons_append, node_cons, node_cons]
    cases child mem t i with
    | none => rfl
    | some c => exact ih c

/-- A path reads one entry of each table it passes; where those entries
agree, so does the path. -/
theorem node_congr {mem mem' : Nat → UInt8} (p : List Nat) :
    ∀ t, (∀ q i s, p = q ++ i :: s → ∀ u, node mem t q = some u → entry mem' u i = entry mem u i) →
      node mem' t p = node mem t p := by
  induction p with
  | nil => intro t _; rfl
  | cons i p ih =>
    intro t h
    have hi : child mem' t i = child mem t i := by
      unfold child
      rw [h [] i p rfl t rfl]
    rw [node_cons, node_cons, hi]
    cases hc : child mem t i with
    | none => rfl
    | some c =>
      -- the rest of the path starts at `c`, one index further down
      refine ih c fun q j s hp u hu => h (i :: q) j s (by rw [hp]; rfl) u ?_
      rw [node_cons, hc]
      exact hu

theorem Index.of_append {p q : List Nat} (h : Index (p ++ q)) : Index p := by
  refine ⟨?_, fun x hx => h.2 x (List.mem_append_left q hx)⟩
  have := h.1
  rw [List.length_append] at this
  omega

theorem Index.mem_lt {q s : List Nat} {i : Nat} (h : Index (q ++ i :: s)) : i < 512 :=
  h.2 i (List.mem_append_right q List.mem_cons_self)

/-! ## Entries under writes -/

/-- Two pages that differ do not overlap. -/
theorem pages_apart {p q : UInt64} (hp : Aligned p) (hq : Aligned q) (hne : p ≠ q) :
    p.toNat + 4096 ≤ q.toNat ∨ q.toNat + 4096 ≤ p.toNat := by
  have : p.toNat ≠ q.toNat := fun h => hne (UInt64.toNat_inj.mp h)
  unfold Aligned at hp hq
  omega

section Entries

variable {mem : Nat → UInt8}

/-- A write outside a table's page leaves its entries. -/
theorem entry_frame {mem' : Nat → UInt8} {t : UInt64} {i : Nat} (hi : i < 512)
    (h : ∀ x, t.toNat ≤ x → x < t.toNat + 4096 → mem' x = mem x) : entry mem' t i = entry mem t i :=
  ByteMem.load64_congr fun b hb => h _ (by omega) (by omega)

/-- Storing entry `i` of `t` leaves every other entry of every table. -/
theorem entry_store_of_ne {t u : UInt64} (ht : Aligned t) (hu : Aligned u) {i j : Nat} (hi : i < 512) (hj : j < 512)
    (hne : u ≠ t ∨ j ≠ i) (w : UInt64) :
    entry (ByteMem.store64 mem (t.toNat + 8 * i) w) u j = entry mem u j := by
  apply ByteMem.load64_store64_of_disjoint
  by_cases hut : u = t
  · subst hut
    have hji := hne.resolve_left (not_not.mpr rfl)
    omega
  · have := pages_apart hu ht hut
    omega

theorem entry_store_self (t : UInt64) (i : Nat) (w : UInt64) :
    entry (ByteMem.store64 mem (t.toNat + 8 * i) w) t i = w :=
  ByteMem.load64_store64 _ _ _

/-- Filling a page leaves the entries of every other table. -/
theorem entry_fill_of_ne {p u : UInt64} (hp : Aligned p) (hu : Aligned u) (hne : u ≠ p) {j : Nat} (hj : j < 512)
    (z : UInt8) : entry (ByteMem.fill mem p.toNat 4096 z) u j = entry mem u j := by
  apply ByteMem.load64_fill_of_disjoint
  have := pages_apart hu hp hne
  omega

theorem entry_fill_zero (p : UInt64) {j : Nat} (hj : j < 512) : entry (ByteMem.fill mem p.toNat 4096 0) p j = 0 :=
  ByteMem.load64_fill_zero (by omega) (by omega)

end Entries

/-! ## Writes outside the tables -/

section Frame

variable {kend : UInt64} {mem mem' : Nat → UInt8} {root : UInt64}

/-- Writes outside the tables keep every node. -/
theorem node_frame (h : ∀ p t, Index p → node mem root p = some t → ∀ x, t.toNat ≤ x → x < t.toNat + 4096 → mem' x = mem x)
    {p : List Nat} (hp : Index p) : node mem' root p = node mem root p := by
  apply node_congr p root
  intro q i s hqs u hu
  rw [hqs] at hp
  exact entry_frame hp.mem_lt (h q u hp.of_append hu)

/-- Writes outside the tables keep every leaf. -/
theorem leaf_frame (h : ∀ p t, Index p → node mem root p = some t → ∀ x, t.toNat ≤ x → x < t.toNat + 4096 → mem' x = mem x)
    {i j l : Nat} (hi : i < 512) (hj : j < 512) (hl : l < 512) : leaf mem' root i j l = leaf mem root i j l := by
  have hij : Index [i, j] := ⟨by simp, by simp [hi, hj]⟩
  unfold leaf
  rw [node_frame h hij]
  cases hn : node mem root [i, j] with
  | none => rfl
  | some t => exact entry_frame hl (h _ t hij hn)

/-- Writes outside the tables keep the tree. -/
theorem Tree.frame (hT : Tree kend mem root)
    (h : ∀ p t, Index p → node mem root p = some t → ∀ x, t.toNat ≤ x → x < t.toNat + 4096 → mem' x = mem x) :
    Tree kend mem' root where
  page p t hp hn := hT.page p t hp (node_frame h hp ▸ hn)
  inj p q t hp hq hnp hnq := hT.inj p q t hp hq (node_frame h hp ▸ hnp) (node_frame h hq ▸ hnq)

end Frame

/-! ## A new table -/

section AddTable

/-! `walk` enters the zeroed page `p` as table `i` of the node `q`, whose
entry `i` is not valid; `p` is a page and no table yet. -/

variable {kend : UInt64} {mem : Nat → UInt8} {root : UInt64} {q : List Nat} {i : Nat} {t p : UInt64}
  (hT : Tree kend mem root) (hq : Index (q ++ [i])) (ht : node mem root q = some t)
  (hnone : child mem t i = none) (hp : Page kend p)
  (hfresh : ∀ r u, Index r → node mem root r = some u → u ≠ p)
include hT hq ht hp hfresh

/-- Paths that do not go through the new entry keep their nodes. -/
theorem node_addTable_of_ne {r : List Nat} (hr : Index r) (hne : ∀ s, r ≠ q ++ i :: s) :
    node (addTable mem t i p) root r = node mem root r := by
  have hi : i < 512 := hq.2 i (by simp)
  have htp := hT.page q t hq.of_append ht
  apply node_congr r root
  intro q' j s hrs u hu
  rw [hrs] at hr
  have hup := hT.page q' u hr.of_append hu
  -- the entry read is neither in the new page nor the new entry
  have hne' : u ≠ t ∨ j ≠ i := by
    by_cases hut : u = t
    · subst hut
      have := hT.inj q' q u hr.of_append hq.of_append hu ht
      subst this
      exact Or.inr fun hji => hne s (by rw [hrs, hji])
    · exact Or.inl hut
  rw [addTable, entry_store_of_ne htp.aligned hup.aligned hi hr.mem_lt hne',
    entry_fill_of_ne hp.aligned hup.aligned (hfresh q' u hr.of_append hu) hr.mem_lt]

/-- The new entry leads to the new page, and nothing lies below it. -/
theorem node_addTable_self (s : List Nat) (hs : Index (q ++ i :: s)) :
    node (addTable mem t i p) root (q ++ i :: s) = if s = [] then some p else none := by
  have hi : i < 512 := hq.2 i (by simp)
  have htp := hT.page q t hq.of_append ht
  have htne : t ≠ p := hfresh q t hq.of_append ht
  have hq' : node (addTable mem t i p) root q = some t := by
    rw [node_addTable_of_ne hT hq ht hp hfresh hq.of_append fun s h => by
      have := congrArg List.length h
      simp at this]
    exact ht
  have hchild : child (addTable mem t i p) t i = some p := by
    have hv : (PA2PTE p ||| PTE_V) &&& PTE_V ≠ 0 := by
      rw [PA2PTE_and _ _ _ (by decide)]
      decide
    have hpa : PTE2PA (PA2PTE p ||| PTE_V) = p :=
      PTE2PA_PA2PTE hp.aligned (by have := hp.2.2; rw [UInt64.lt_iff_toNat_lt, PHYSTOP_toNat] at this; omega)
        (by decide)
    rw [child, addTable, entry_store_self, if_pos hv, hpa]
  rw [node_append, hq', Option.bind_some, node_cons, hchild, Option.bind_some]
  cases s with
  | nil => rfl
  | cons j s =>
    -- the new table is zero: its entry `j` is not valid
    have hj : j < 512 := hs.2 j (by simp)
    have hz : child (addTable mem t i p) p j = none := by
      rw [child, addTable, entry_store_of_ne htp.aligned hp.aligned hi hj (Or.inl htne.symm),
        entry_fill_zero p hj]
      rfl
    rw [node_cons, hz]
    rfl

/-- A new table holds no leaf, so every leaf stays as it was. -/
theorem leaf_addTable (hnone : child mem t i = none) {a b l : Nat} (ha : a < 512) (hb : b < 512) (hl : l < 512) :
    leaf (addTable mem t i p) root a b l = leaf mem root a b l := by
  have hab : Index [a, b] := ⟨by simp, by simp [ha, hb]⟩
  have hi : i < 512 := hq.2 i (by simp)
  have htp := hT.page q t hq.of_append ht
  by_cases hthrough : ∃ s, [a, b] = q ++ i :: s
  · -- the page's tables lie below the new entry: its leaf was and is 0
    obtain ⟨s, hs⟩ := hthrough
    have hold : node mem root [a, b] = none := by
      rw [hs, node_append, ht, Option.bind_some, node_cons, hnone]
      rfl
    have hnew := node_addTable_self hT hq ht hp hfresh s (by rw [← hs]; exact hab)
    rw [← hs] at hnew
    have hzero : entry (addTable mem t i p) p l = 0 := by
      rw [addTable, entry_store_of_ne htp.aligned hp.aligned hi hl (Or.inl (hfresh q t hq.of_append ht).symm),
        entry_fill_zero p hl]
    unfold leaf
    rw [hold, hnew]
    by_cases hs0 : s = []
    · rw [if_pos hs0]
      exact hzero
    · rw [if_neg hs0]
  · simp only [not_exists] at hthrough
    unfold leaf
    rw [node_addTable_of_ne hT hq ht hp hfresh hab hthrough]
    cases hn : node mem root [a, b] with
    | none => rfl
    | some u =>
      have hup := hT.page _ u hab hn
      -- `u` is a level-0 table, `t` a higher one
      have hut : u ≠ t := fun h => by
        subst h
        have := congrArg List.length (hT.inj _ q u hab hq.of_append hn ht)
        have := hq.1
        simp at *
        omega
      show entry (addTable mem t i p) u l = entry mem u l
      rw [addTable, entry_store_of_ne htp.aligned hup.aligned hi hl (Or.inl hut),
        entry_fill_of_ne hp.aligned hup.aligned (hfresh _ u hab hn) hl]

/-- The tree with the new table is a tree. -/
theorem Tree.of_addTable : Tree kend (addTable mem t i p) root := by
  -- a path through the new entry ends at the new page
  have hcases : ∀ r u, Index r → node (addTable mem t i p) root r = some u →
      (r = q ++ [i] ∧ u = p) ∨ node mem root r = some u := by
    intro r u hr hn
    by_cases hthrough : ∃ s, r = q ++ i :: s
    · obtain ⟨s, rfl⟩ := hthrough
      rw [node_addTable_self hT hq ht hp hfresh s hr] at hn
      split at hn
      · rename_i hs
        subst hs
        exact Or.inl ⟨rfl, (Option.some.inj hn).symm⟩
      · cases hn
    · simp only [not_exists] at hthrough
      exact Or.inr (node_addTable_of_ne hT hq ht hp hfresh hr hthrough ▸ hn)
  refine ⟨fun r u hr hn => ?_, fun r r' u hr hr' hn hn' => ?_⟩
  · rcases hcases r u hr hn with ⟨-, rfl⟩ | hold
    · exact hp
    · exact hT.page r u hr hold
  · rcases hcases r u hr hn with ⟨rfl, rfl⟩ | hold <;> rcases hcases r' u hr' hn' with ⟨rfl, hu⟩ | hold'
    · rfl
    · exact absurd rfl (hfresh r' u hr' hold')
    · exact absurd hu (hfresh r u hr hold)
    · exact hT.inj r r' u hr hr' hold hold'

end AddTable

/-! ## A leaf entry -/

section SetLeaf

/-! `mappages` and `uvmunmap` write entry `l` of the level-0 table `t` of
page `(a, b, ·)`. -/

variable {kend : UInt64} {mem : Nat → UInt8} {root : UInt64} {a b l : Nat} {t : UInt64}
  (hT : Tree kend mem root) (ha : a < 512) (hb : b < 512) (hl : l < 512) (ht : node mem root [a, b] = some t)
include hT ha hb hl ht

/-- A leaf write is in a level-0 table, which no path to a table reads. -/
theorem node_setLeaf (v : UInt64) {r : List Nat} (hr : Index r) : node (setLeaf mem t l v) root r = node mem root r := by
  have hab : Index [a, b] := ⟨by simp, by simp [ha, hb]⟩
  have htp := hT.page _ t hab ht
  apply node_congr r root
  intro q j s hrs u hu
  rw [hrs] at hr
  have hup := hT.page q u hr.of_append hu
  -- `u` lies above level 0: its path is shorter than `t`'s
  have hut : u ≠ t := fun h => by
    subst h
    have hq := congrArg List.length (hT.inj q _ u hr.of_append hab hu ht)
    have hlen := hr.1
    rw [List.length_append, List.length_cons] at hlen
    simp at hq
    omega
  exact entry_store_of_ne htp.aligned hup.aligned hl hr.mem_lt (Or.inl hut) v

/-- A leaf write changes that one leaf. -/
theorem leaf_setLeaf (v : UInt64) {a' b' l' : Nat} (ha' : a' < 512) (hb' : b' < 512) (hl' : l' < 512) :
    leaf (setLeaf mem t l v) root a' b' l' = if a' = a ∧ b' = b ∧ l' = l then v else leaf mem root a' b' l' := by
  have hab : Index [a, b] := ⟨by simp, by simp [ha, hb]⟩
  have hab' : Index [a', b'] := ⟨by simp, by simp [ha', hb']⟩
  have htp := hT.page _ t hab ht
  unfold leaf
  rw [node_setLeaf hT ha hb hl ht v hab']
  by_cases hsame : a' = a ∧ b' = b
  · obtain ⟨rfl, rfl⟩ := hsame
    rw [ht]
    by_cases hll : l' = l
    · subst hll
      rw [if_pos ⟨rfl, rfl, rfl⟩]
      exact entry_store_self t l' v
    · rw [if_neg fun h => hll h.2.2]
      exact entry_store_of_ne htp.aligned htp.aligned hl hl' (Or.inr hll) v
  · rw [if_neg fun h => hsame ⟨h.1, h.2.1⟩]
    cases hn : node mem root [a', b'] with
    | none => rfl
    | some u =>
      -- another page's table is another table
      have hut : u ≠ t := fun h => by
        subst h
        have := hT.inj _ _ u hab' hab hn ht
        simp at this
        exact hsame this
      exact entry_store_of_ne htp.aligned (hT.page _ u hab' hn).aligned hl hl' (Or.inl hut) v

theorem Tree.of_setLeaf (v : UInt64) : Tree kend (setLeaf mem t l v) root where
  page r u hr hn := hT.page r u hr (node_setLeaf hT ha hb hl ht v hr ▸ hn)
  inj r r' u hr hr' hn hn' :=
    hT.inj r r' u hr hr' (node_setLeaf hT ha hb hl ht v hr ▸ hn) (node_setLeaf hT ha hb hl ht v hr' ▸ hn')

end SetLeaf

/-! ## What the walk reads -/

section Walk

variable {kend : UInt64} {mem : Nat → UInt8} {root : UInt64}

/-- A table below `PHYSTOP` read at the slot of an address is its entry at
the address's index. -/
theorem read_slot {u : UInt64} (hu : u.toNat ≤ PHYSTOP.toNat) (level : Nat) (va : UInt64) :
    read mem (slot u level va) = entry mem u (PX level va).toNat := by
  rw [read, entry, slot_toNat hu]

/-- A slot of a table above 0 is not null. -/
theorem slot_ne_zero {t : UInt64} (htp : Page kend t) (hend : 0 < kend) (level : Nat) (va : UInt64) :
    slot t level va ≠ 0 := fun h => by
  have h' := congrArg UInt64.toNat h
  rw [slot_toNat htp.toNat_le] at h'
  have hpos := UInt64.lt_iff_toNat_lt.mp (UInt64.lt_of_lt_of_le hend htp.2.1)
  rw [UInt64.toNat_zero] at hpos h'
  omega

/-- One level of a walk that does not allocate: down the valid entry, or
stop with 0. -/
theorem walkLoop_succ_read {u : UInt64} (hu : u.toNat ≤ PHYSTOP.toNat) (va : UInt64) (level : Nat) (k : Kmem) :
    walkLoop va false (level + 1) k u =
      match child k.mem u (PX (level + 1) va).toNat with
      | some c => walkLoop va false level k c
      | none => (k, 0) := by
  rw [walkLoop]
  dsimp only
  rw [child, read_slot hu]
  by_cases hv : entry k.mem u (PX (level + 1) va).toNat &&& PTE_V ≠ 0
  · rw [if_pos hv, if_pos hv]
  · have hna : (!false) = true := rfl
    rw [if_neg hv, if_neg hv, if_pos hna]

/-- The walk without allocation follows the nodes of the address's two
upper indices, and returns the slot of the lower one in the table it
reaches. -/
theorem walkLoop_eq_node (hT : Tree kend mem root) (f va : UInt64) :
    (walkLoop va false 2 ⟨mem, f⟩ root).2 =
      match node mem root [(PX 2 va).toNat, (PX 1 va).toNat] with
      | some t => slot t 0 va
      | none => 0 := by
  have hroot := (hT.page [] root ⟨by simp, by simp⟩ rfl).toNat_le
  rw [walkLoop_succ_read hroot, node_cons]
  cases hc : child mem root (PX 2 va).toNat with
  | none => rfl
  | some c =>
    have hcp : Page kend c := hT.page [(PX 2 va).toNat] c ⟨by simp, by simp [PX_lt]⟩ (by rw [node_cons, hc]; rfl)
    rw [Option.bind_some]
    dsimp only
    rw [walkLoop_succ_read hcp.toNat_le, node_cons]
    cases child mem c (PX 1 va).toNat with
    | none => rfl
    | some c0 => rfl

/-- `walkaddr` decodes the leaf entry of the page. -/
theorem walkaddr_eq_leaf (hT : Tree kend mem root) (hend : 0 < kend) (f : UInt64) {va : UInt64} (hva : va < MAXVA) :
    walkaddr ⟨mem, f⟩ root va = userPage (leaf mem root (PX 2 va).toNat (PX 1 va).toNat (PX 0 va).toNat) := by
  unfold walkaddr
  rw [if_neg (UInt64.not_le.mpr hva)]
  dsimp only
  rw [walkLoop_eq_node hT f va]
  unfold leaf
  cases hn : node mem root [(PX 2 va).toNat, (PX 1 va).toNat] with
  | none =>
    dsimp only
    rw [if_pos rfl]
    decide
  | some t =>
    have htp := hT.page _ t ⟨by simp, by simp [PX_lt]⟩ hn
    dsimp only
    rw [if_neg (slot_ne_zero htp hend 0 va), read_slot htp.toNat_le]
    rfl

end Walk

/-! ## An empty address space -/

/-- A zeroed page is the root of a tree with no table below it and no
leaf. -/
theorem Tree.zero {kend : UInt64} {mem : Nat → UInt8} {root : UInt64} (hroot : Page kend root)
    (hz : ∀ x, root.toNat ≤ x → x < root.toNat + 4096 → mem x = 0) :
    Tree kend mem root ∧ ∀ i, i < 512 → ∀ r, node mem root (i :: r) = none := by
  have hchild : ∀ i, i < 512 → child mem root i = none := fun i hi => by
    have he : entry mem root i = entry (fun _ => 0) root i := entry_frame hi fun x h1 h2 => hz x h1 h2
    have h0 : entry (fun _ => 0) root i = 0 := by
      rw [entry, ByteMem.load64, ByteMem.value_zero]
      rfl
    rw [child, he, h0, if_neg (by decide)]
  have hnone : ∀ i, i < 512 → ∀ r, node mem root (i :: r) = none := fun i hi r => by
    rw [node_cons, hchild i hi]
    rfl
  have hnil : ∀ r t, Index r → node mem root r = some t → r = [] ∧ t = root := by
    intro r t hr hn
    cases r with
    | nil => exact ⟨rfl, (Option.some.inj hn).symm⟩
    | cons i r => rw [hnone i (hr.2 i List.mem_cons_self)] at hn; cases hn
  refine ⟨⟨fun r t hr hn => ?_, fun r r' t hr hr' hn hn' => ?_⟩, hnone⟩
  · rw [(hnil r t hr hn).2]
    exact hroot
  · rw [(hnil r t hr hn).1, (hnil r' t hr' hn').1]

end Vm

end Xv6
