/-
# `Xv6.Lib.DList` — a circular doubly linked list through a head node

Every node of a type `P` carries two links, `next` and `prev`.  `Ring L h l`
says that from the head `h` the `next` links run through the nodes of `l`,
in order, and back to `h`; that each `prev` link undoes the `next` link
into its node; and that no node is met twice.  The list `l` is the
abstract value of the links, and the pointer operations are shown to act
on it as list operations:

    Ring.flip          read backwards, the ring is one of the `prev` links
                       through the reversed list
    Ring.pushFront     linking a new node right after the head puts it first
    Ring.unlink        linking a node's neighbours to each other removes it
    Ring.moveToFront   the two in turn move a node of the ring to the front
    Ring.foldl_pushFront  linking new nodes after the head one by one lists
                       them in reverse

with the facts about first matches (`find?`) that reading a list in order
needs, and a loop that walks the links until it is back at the head, stopping
early at the first node that passes a test, finds what `List.find?` finds:

    scan_path          along any path of links that ends at the stop node
    Ring.scan_next     from the head forward, over `l`
    Ring.scan_prev     from the head backward, over `l.reverse`

The walk is bounded by a fuel argument, and the ring lemmas say that any
fuel beyond the length of `l` is enough: on a ring the walk always gets
back to the head.

Nothing here names the program the list belongs to.
-/
import Mathlib.Data.List.Chain
import Mathlib.Data.List.Nodup

namespace DList

variable {P : Type}

/-- The two links of every node. -/
structure Links (P : Type) where
  next : P → P
  prev : P → P

namespace Links

/-- `a` links forward to `b`, and `b` back to `a`. -/
def Step (L : Links P) (a b : P) : Prop := L.next a = b ∧ L.prev b = a

/-- The links read the other way round. -/
def flip (L : Links P) : Links P := ⟨L.prev, L.next⟩

variable [DecidableEq P]

/-- Take `b` out: `b->next->prev = b->prev; b->prev->next = b->next`. -/
def unlink (L : Links P) (b : P) : Links P :=
  ⟨Function.update L.next (L.prev b) (L.next b), Function.update L.prev (L.next b) (L.prev b)⟩

/-- Put `b` right after the head `h`:
`b->next = h->next; b->prev = h; h->next->prev = b; h->next = b`. -/
def pushFront (L : Links P) (h b : P) : Links P :=
  let next₁ := Function.update L.next b (L.next h)
  let prev₁ := Function.update L.prev b h
  ⟨Function.update next₁ h b, Function.update prev₁ (next₁ h) b⟩

attribute [grind] unlink pushFront

end Links

open Links

/-- The links run from `h` through `l` and back to `h`, no node twice. -/
structure Ring (L : Links P) (h : P) (l : List P) : Prop where
  nodup : (h :: l).Nodup
  chain : (h :: (l ++ [h])).IsChain L.Step

/-- A path of links stays a path when the links change only at nodes it
does not leave (for `next`) or enter (for `prev`). -/
theorem isChain_step_congr {L L' : Links P} : ∀ {c : List P}, c.IsChain L.Step →
    (∀ x ∈ c.dropLast, L'.next x = L.next x) → (∀ y ∈ c.tail, L'.prev y = L.prev y) →
    c.IsChain L'.Step
  | [], _, _, _ => .nil
  | [_], _, _, _ => .singleton _
  | a :: b :: c, hc, hn, hp => by
      rw [List.isChain_cons_cons] at hc ⊢
      obtain ⟨⟨hab, hba⟩, hc⟩ := hc
      have hn' : ∀ x ∈ (b :: c).dropLast, L'.next x = L.next x := fun x hx =>
        hn x (by rw [List.dropLast_cons_cons]; exact List.mem_cons_of_mem a hx)
      have hp' : ∀ y ∈ (b :: c).tail, L'.prev y = L.prev y := fun y hy =>
        hp y (List.mem_cons_of_mem b hy)
      refine ⟨⟨?_, ?_⟩, isChain_step_congr hc hn' hp'⟩
      · rw [hn a (by simp [List.dropLast_cons_cons])]
        exact hab
      · rw [hp b (by simp)]
        exact hba

/-- A head alone, linked to itself, is the empty ring. -/
theorem Ring.self {L : Links P} {h : P} (hn : L.next h = h) (hp : L.prev h = h) : Ring L h [] where
  nodup := List.nodup_singleton h
  chain := List.isChain_pair.mpr ⟨hn, hp⟩

theorem Ring.flip {L : Links P} {h : P} {l : List P} (hR : Ring L h l) : Ring L.flip h l.reverse where
  nodup := by
    have hnd := List.nodup_cons.mp hR.nodup
    exact List.nodup_cons.mpr ⟨by simpa using hnd.1, List.nodup_reverse.mpr hnd.2⟩
  chain := by
    -- the path read backwards is the reversed path
    have hrev : h :: (l.reverse ++ [h]) = (h :: (l ++ [h])).reverse := by simp
    rw [hrev, List.isChain_reverse]
    exact hR.chain.imp fun a b hab => ⟨hab.2, hab.1⟩

/-- The head's successor is the first node of the ring, or the head itself. -/
theorem Ring.next_head {L : Links P} {h : P} {l : List P} (hR : Ring L h l) :
    L.next h = l.headD h := by
  have hc := hR.chain
  cases l with
  | nil => exact (List.isChain_pair.mp hc).1
  | cons x l => exact (List.isChain_cons_cons.mp hc).1.1

variable [DecidableEq P]

theorem Ring.pushFront {L : Links P} {h b : P} {l : List P} (hR : Ring L h l) (hb : b ∉ h :: l) :
    Ring (L.pushFront h b) h (b :: l) := by
  have hbh : b ≠ h := fun e => hb (e ▸ List.mem_cons_self)
  have hbl : b ∉ l := fun e => hb (List.mem_cons_of_mem h e)
  have hhl : h ∉ l := (List.nodup_cons.mp hR.nodup).1
  -- the path after the head, `l ++ [h]`, starts at the head's old successor `f`
  obtain ⟨f, r, hfr⟩ : ∃ f r, l ++ [h] = f :: r := List.exists_cons_of_ne_nil (by simp)
  have hf : L.next h = f := by
    have := hR.chain
    rw [hfr, List.isChain_cons_cons] at this
    exact this.1.1
  have hbf : b ≠ f := fun e => by
    have : f ∈ l ++ [h] := by rw [hfr]; exact List.mem_cons_self
    rw [← e, List.mem_append, List.mem_singleton] at this
    exact this.elim hbl hbh
  have hfr_nd : (f :: r).Nodup := by
    rw [← hfr]
    exact (List.nodup_append.mpr ⟨(List.nodup_cons.mp hR.nodup).2, List.nodup_singleton h,
      fun x hx y hy => by rw [List.mem_singleton] at hy; rintro rfl; exact hhl (hy ▸ hx)⟩)
  have hrest : (f :: r).IsChain L.Step := by
    have := hR.chain
    rw [hfr, List.isChain_cons_cons] at this
    exact this.2
  refine ⟨?_, ?_⟩
  · refine List.nodup_cons.mpr ⟨?_, List.nodup_cons.mpr ⟨hbl, (List.nodup_cons.mp hR.nodup).2⟩⟩
    rintro (_ | ⟨_, hm⟩)
    · exact hbh rfl
    · exact hhl hm
  · rw [List.cons_append, hfr, List.isChain_cons_cons, List.isChain_cons_cons]
    refine ⟨⟨by simp [Links.pushFront], ?_⟩, ⟨?_, by simp [Links.pushFront, hbh.symm, hf]⟩,
      isChain_step_congr hrest (fun x hx => ?_) (fun y hy => ?_)⟩
    · simp [Links.pushFront, hbh.symm, hf, hbf]
    · simp [Links.pushFront, hbh]
      exact hf
    · -- `x` is a node of `l`: neither the head nor `b`
      have hxl : x ∈ l := by
        rw [← hfr, List.dropLast_concat] at hx
        exact hx
      have hxh : x ≠ h := fun e => hhl (e ▸ hxl)
      have hxb : x ≠ b := fun e => hbl (e ▸ hxl)
      simp [Links.pushFront, hxh, hxb]
    · -- `y` comes after `f`: neither `f` nor `b`
      have hyf : y ≠ f := fun e => (List.nodup_cons.mp hfr_nd).1 (e ▸ hy)
      have hyb : y ≠ b := fun e => by
        have : y ∈ l ++ [h] := by rw [hfr]; exact List.mem_cons_of_mem f hy
        rw [e, List.mem_append, List.mem_singleton] at this
        exact this.elim hbl hbh
      simp [Links.pushFront, hbh.symm, hf, hyf, hyb]

theorem Ring.unlink {L : Links P} {h b : P} {l₁ l₂ : List P} (hR : Ring L h (l₁ ++ b :: l₂)) :
    Ring (L.unlink b) h (l₁ ++ l₂) := by
  have hnd := hR.nodup
  simp only [List.nodup_cons, List.nodup_append, List.mem_append, List.mem_cons, not_or] at hnd
  obtain ⟨⟨hh₁, hhb, hh₂⟩, hnd₁, ⟨hb₂, hnd₂⟩, hdis⟩ := hnd
  -- around `b` the path is `A' ++ a :: b :: c :: B'`, with `A' ++ [a] = h :: l₁`
  -- and `c :: B' = l₂ ++ [h]`
  obtain ⟨A', a, hA⟩ : ∃ A' a, h :: l₁ = A' ++ [a] := by
    rcases List.eq_nil_or_concat (h :: l₁) with he | ⟨A', a, he⟩
    · cases he
    · exact ⟨A', a, by simpa using he⟩
  obtain ⟨c, B', hB⟩ : ∃ c B', l₂ ++ [h] = c :: B' := List.exists_cons_of_ne_nil (by simp)
  have hold : h :: ((l₁ ++ b :: l₂) ++ [h]) = A' ++ a :: b :: c :: B' := calc
    _ = (h :: l₁) ++ b :: (l₂ ++ [h]) := by simp
    _ = (A' ++ [a]) ++ b :: c :: B' := by rw [hA, hB]
    _ = A' ++ a :: b :: c :: B' := by simp
  have hnew : h :: ((l₁ ++ l₂) ++ [h]) = A' ++ a :: c :: B' := calc
    _ = (h :: l₁) ++ (l₂ ++ [h]) := by simp
    _ = (A' ++ [a]) ++ c :: B' := by rw [hA, hB]
    _ = A' ++ a :: c :: B' := by simp
  have hchain := hR.chain
  rw [hold, List.isChain_append_cons_cons, List.isChain_cons_cons] at hchain
  obtain ⟨hApart, ⟨hab, hba⟩, ⟨hbc, hcb⟩, hBpart⟩ := hchain
  have ha : a ∈ h :: l₁ := by rw [hA]; simp
  have hc : c ∈ l₂ ++ [h] := by rw [hB]; simp
  have hAnd : (A' ++ [a]).Nodup := by rw [← hA]; exact List.nodup_cons.mpr ⟨hh₁, hnd₁⟩
  have hBnd : (c :: B').Nodup := by
    rw [← hB]
    exact List.nodup_append.mpr ⟨hnd₂, List.nodup_singleton h, fun x hx y hy => by
      rw [List.mem_singleton] at hy
      rintro rfl
      exact hh₂ (hy ▸ hx)⟩
  -- the new links differ from the old only at `next a` and `prev c`
  have hnext : ∀ x, x ≠ a → (L.unlink b).next x = L.next x := fun x hx => by
    simp [Links.unlink, hba, hx]
  have hprev : ∀ y, y ≠ c → (L.unlink b).prev y = L.prev y := fun y hy => by
    simp [Links.unlink, hbc, hy]
  refine ⟨?_, ?_⟩
  · exact List.nodup_cons.mpr ⟨by simp [hh₁, hh₂], List.nodup_append.mpr
      ⟨hnd₁, hnd₂, fun x hx y hy => hdis x hx y (Or.inr hy)⟩⟩
  · rw [hnew, List.isChain_append_cons_cons]
    refine ⟨isChain_step_congr hApart (fun x hx => hnext x ?_) (fun y hy => hprev y ?_),
      ⟨by simp [Links.unlink, hba, hbc], by simp [Links.unlink, hba, hbc]⟩,
      isChain_step_congr hBpart (fun x hx => hnext x ?_) (fun y hy => hprev y ?_)⟩
    · -- `x` is before `a` on the path
      rw [List.dropLast_concat] at hx
      exact fun e => (List.nodup_append.mp hAnd).2.2 x hx a (List.mem_singleton_self a) e
    · -- `y` is a node of `l₁`, and `c` is not
      rw [← hA] at hy
      rintro rfl
      rcases List.mem_append.mp hc with hc₂ | hch
      · exact hdis y hy y (Or.inr hc₂) rfl
      · exact hh₁ (List.mem_singleton.mp hch ▸ hy)
    · -- `x` is a node of `l₂`, and `a` is not
      rw [← hB, List.dropLast_concat] at hx
      rintro rfl
      rcases List.mem_cons.mp ha with hah | ha₁
      · exact hh₂ (hah ▸ hx)
      · exact hdis x ha₁ x (Or.inr hx) rfl
    · -- `y` comes after `c`
      exact fun e => (List.nodup_cons.mp hBnd).1 (e ▸ hy)

theorem Ring.moveToFront {L : Links P} {h b : P} {l₁ l₂ : List P} (hR : Ring L h (l₁ ++ b :: l₂)) :
    Ring ((L.unlink b).pushFront h b) h (b :: (l₁ ++ l₂)) := by
  have hnd := hR.nodup
  simp only [List.nodup_cons, List.nodup_append, List.mem_append, List.mem_cons, not_or] at hnd
  obtain ⟨⟨-, hhb, -⟩, -, ⟨hb₂, -⟩, hdis⟩ := hnd
  have hb₁ : b ∉ l₁ := fun hm => hdis b hm b (Or.inl rfl) rfl
  refine hR.unlink.pushFront ?_
  simp only [List.mem_cons, List.mem_append, not_or]
  exact ⟨Ne.symm hhb, hb₁, hb₂⟩

/-- Nodes linked in one by one right after the head end up in reverse
order in front of the ring. -/
theorem Ring.foldl_pushFront {h : P} :
    ∀ {xs : List P} {L : Links P} {l : List P}, Ring L h l → xs.Nodup → (∀ x ∈ xs, x ∉ h :: l) →
      Ring (xs.foldl (fun L b => L.pushFront h b) L) h (xs.reverse ++ l)
  | [], _, _, hR, _, _ => hR
  | x :: xs, L, l, hR, hnd, hfresh => by
      have hx := List.nodup_cons.mp hnd
      have hR' : Ring (L.pushFront h x) h (x :: l) := hR.pushFront (hfresh x List.mem_cons_self)
      -- the rest are still fresh: not `x`, and not in the old ring
      have hfresh' : ∀ y ∈ xs, y ∉ h :: x :: l := fun y hy hm => by
        rcases List.mem_cons.mp hm with rfl | hm'
        · exact hfresh y (List.mem_cons_of_mem x hy) List.mem_cons_self
        · rcases List.mem_cons.mp hm' with rfl | hl
          · exact hx.1 hy
          · exact hfresh y (List.mem_cons_of_mem x hy) (List.mem_cons_of_mem h hl)
      simpa using Ring.foldl_pushFront hR' hx.2 hfresh'

/-! ## Walking the ring -/

/-- Follow `step` from `p`, through at most `fuel` nodes, until the node
`stop`: the first node before it that passes `test`, or `none`. -/
def scan (step : P → P) (stop : P) (test : P → Bool) : Nat → P → Option P
  | 0, _ => none
  | fuel + 1, p => if p = stop then none else if test p then some p else scan step stop test fuel (step p)

attribute [grind] scan

/-- Along a path of links that ends at `stop` and does not pass it before,
the walk finds what `find?` finds. -/
theorem scan_path {step : P → P} {stop : P} {test : P → Bool} :
    ∀ {l : List P} {fuel : Nat}, (l ++ [stop]).IsChain (fun a b => step a = b) → stop ∉ l →
      l.length < fuel → scan step stop test fuel (l.headD stop) = l.find? test
  | [], fuel + 1, _, _, _ => by simp [scan]
  | x :: l, fuel + 1, hc, hs, hlen => by
      rw [List.cons_append, List.isChain_cons] at hc
      have hxs : x ≠ stop := fun e => hs (e ▸ List.mem_cons_self)
      -- one node on: the path's next node is where the rest of the walk starts
      have hnext : step x = l.headD stop := by
        cases l with
        | nil => exact hc.1 stop rfl
        | cons y l => exact hc.1 y rfl
      have ih : scan step stop test fuel (l.headD stop) = l.find? test :=
        scan_path hc.2 (fun hm => hs (List.mem_cons_of_mem x hm)) (Nat.lt_of_succ_lt_succ hlen)
      simp only [List.headD_cons, scan, if_neg hxs, List.find?_cons, hnext, ih]
      cases test x <;> rfl

/-- Forward from the head, the walk over a ring finds the first node of `l`
that passes the test, given fuel beyond the length of `l`. -/
theorem Ring.scan_next {L : Links P} {h : P} {l : List P} (hR : Ring L h l) {test : P → Bool}
    {fuel : Nat} (hfuel : l.length < fuel) : scan L.next h test fuel (L.next h) = l.find? test := by
  have hc := hR.chain
  rw [List.isChain_cons] at hc
  rw [hR.next_head]
  exact scan_path (hc.2.imp fun _ _ hab => hab.1) (List.nodup_cons.mp hR.nodup).1 hfuel

/-- Backward from the head, it finds the last node of `l` that passes. -/
theorem Ring.scan_prev {L : Links P} {h : P} {l : List P} (hR : Ring L h l) {test : P → Bool}
    {fuel : Nat} (hfuel : l.length < fuel) :
    scan L.prev h test fuel (L.prev h) = l.reverse.find? test :=
  hR.flip.scan_next (by simpa using hfuel)

/-! ## First matches -/

section Find

variable {α : Type} {l : List α} {p q : α → Bool} {b : α}

/-- Tests that agree on the list find the same element. -/
theorem find?_congr_mem (h : ∀ x ∈ l, p x = q x) : l.find? p = l.find? q := by
  rw [← List.head?_filter, ← List.head?_filter, List.filter_congr h]

/-- The first match stays the first match of a stronger test that it passes. -/
theorem find?_of_imp (h : l.find? p = some b) (hqp : ∀ x, q x = true → p x = true)
    (hq : q b = true) : l.find? q = some b := by
  obtain ⟨-, as, bs, rfl, has⟩ := List.find?_eq_some_iff_append.mp h
  refine List.find?_eq_some_iff_append.mpr ⟨hq, as, bs, rfl, fun a ha => ?_⟩
  -- an earlier element fails `p`, so it fails the stronger `q`
  have hpa : p a = false := by simpa using has a ha
  cases hqa : q a with
  | false => rfl
  | true => simp [hqp a hqa] at hpa

/-- Taking out an element that fails the test leaves the first match. -/
theorem find?_erase_of_false [DecidableEq α] (hb : q b = false) : (l.erase b).find? q = l.find? q := by
  induction l with
  | nil => rfl
  | cons x l ih =>
      by_cases hx : x = b
      · subst hx
        simp [hb]
      · rw [List.erase_cons_tail (by simpa using hx), List.find?_cons, List.find?_cons, ih]

end Find

end DList
