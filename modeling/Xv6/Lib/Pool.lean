/-
# `Xv6.Lib.Pool` — a pool of interchangeable resources

A pool hands out resources one at a time and takes them back.  `Pool`
keeps those free, in the order they will be handed out, and those held.
`take` hands out the first free one, `give a` takes back a held one and
puts it first: the free resources are a stack.

With `all` the resources the pool was made with, `Covers all P` says each
of them is free or held, and only once.  That is what a pool is for: what
it hands out nobody holds.

**Provided.**

    Covers.take, Covers.give   both operations keep the cover
    Covers.nodup               no resource is twice in the pool
    Covers.take_not_held       what `take` hands out was free and is held
                               by nobody
    Covers.length              the free and the held add up to `all`
    take_none                  `take` fails only when nothing is free

Nothing here names the program whose resources these are.
-/
import Mathlib.Data.List.Perm.Basic

/-- The free resources, first to be handed out first, and the held ones. -/
structure Pool (α : Type) where
  free : List α
  held : List α

namespace Pool

variable {α : Type} {all : List α} {P P' : Pool α} {a : α}

/-- Hand out the first free resource, `none` when there is none. -/
def take (P : Pool α) : Pool α × Option α :=
  match P.free with
  | [] => (P, none)
  | a :: l => (⟨l, a :: P.held⟩, some a)

/-- Take back `a`, which must be held; it is the next to be handed out. -/
def give [DecidableEq α] (P : Pool α) (a : α) : Option (Pool α) :=
  if a ∈ P.held then some ⟨a :: P.free, P.held.erase a⟩ else none

/-- Each of `all` is free or held, once. -/
def Covers (all : List α) (P : Pool α) : Prop := (P.free ++ P.held).Perm all

attribute [grind] take give Covers

theorem take_nil (h : P.free = []) : P.take = (P, none) := by
  rw [take, h]

theorem take_cons {l : List α} (h : P.free = a :: l) : P.take = (⟨l, a :: P.held⟩, some a) := by
  rw [take, h]

theorem take_none : P.take.2 = none ↔ P.free = [] := by
  cases h : P.free with
  | nil => rw [take_nil h]; exact iff_of_true rfl rfl
  | cons a l => rw [take_cons h]; simp

theorem give_some [DecidableEq α] (h : a ∈ P.held) : P.give a = some ⟨a :: P.free, P.held.erase a⟩ := by
  rw [give, if_pos h]

theorem give_eq_none [DecidableEq α] (h : a ∉ P.held) : P.give a = none := by
  rw [give, if_neg h]

namespace Covers

theorem nodup (hc : Covers all P) (hall : all.Nodup) : (P.free ++ P.held).Nodup :=
  hc.nodup_iff.mpr hall

theorem mem (hc : Covers all P) {a : α} : a ∈ P.free ∨ a ∈ P.held ↔ a ∈ all := by
  rw [← List.mem_append]
  exact hc.mem_iff

theorem take (hc : Covers all P) : Covers all P.take.1 := by
  cases h : P.free with
  | nil => rw [take_nil h]; exact hc
  | cons a l =>
    rw [take_cons h]
    -- moving the head of the free list to the front of the held
    have hm : (l ++ a :: P.held).Perm (a :: l ++ P.held) := List.perm_middle
    unfold Covers at hc
    rw [h] at hc
    exact hm.trans hc

theorem give [DecidableEq α] (hc : Covers all P) (h : P.give a = some P') : Covers all P' := by
  by_cases ha : a ∈ P.held
  · rw [give_some ha, Option.some.injEq] at h
    subst h
    have hm : (a :: P.free ++ P.held.erase a).Perm (P.free ++ P.held) :=
      (List.perm_middle.symm.trans (List.Perm.append_left P.free (List.perm_cons_erase ha).symm))
    exact hm.trans hc
  · rw [give_eq_none ha] at h
    cases h

/-- What `take` hands out was free, and nobody holds it. -/
theorem take_not_held (hc : Covers all P) (hall : all.Nodup) (h : P.take.2 = some a) :
    a ∈ P.free ∧ a ∉ P.held := by
  cases hf : P.free with
  | nil => rw [take_nil hf] at h; cases h
  | cons b l =>
    rw [take_cons hf, Option.some.injEq] at h
    subst h
    have hnd := hc.nodup hall
    rw [hf] at hnd
    exact ⟨List.mem_cons_self, fun hb => (List.nodup_append.mp hnd).2.2 b List.mem_cons_self b hb rfl⟩

theorem length (hc : Covers all P) : P.free.length + P.held.length = all.length := by
  rw [← List.length_append]
  exact hc.length_eq

end Covers

end Pool
