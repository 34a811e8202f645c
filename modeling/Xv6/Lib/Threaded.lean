/-
# `Xv6.Lib.Threaded` — a list threaded through a successor function

A singly linked list kept in memory is read by following a `next` function
from a head until a null value.  `Threaded next null p l` says that
following `next` from `p` visits the elements of `l` in order and then
reaches `null`.  The memory enters only through `next`, so a write that
leaves `next` alone on the elements leaves the list alone.

**Provided.**

    Threaded.congr          a list depends only on `next` at its elements
    Threaded.unique         the head determines the list
    Threaded.nodup          a list that reaches null repeats no element
    Threaded.null_not_mem   null is not an element
    Threaded.push           a fresh head whose `next` is the old head
    Threaded.not_of_next_self  an element that is its own `next` heads
                            no list

Nothing here names the program whose lists these are.
-/
import Mathlib.Data.List.Basic

variable {α : Type}

/-- Following `next` from `p` visits `l`, in order, and then reaches
`null`. -/
def Threaded (next : α → α) (null : α) : α → List α → Prop
  | p, [] => p = null
  | p, q :: l => p = q ∧ p ≠ null ∧ Threaded next null (next p) l

namespace Threaded

variable {next next' : α → α} {null : α}

instance decidable [DecidableEq α] (next : α → α) (null : α) : ∀ p l, Decidable (Threaded next null p l)
  | p, [] => inferInstanceAs (Decidable (p = null))
  | p, _ :: l =>
    haveI := decidable next null (next p) l
    inferInstanceAs (Decidable (_ ∧ _ ∧ _))

@[simp] theorem nil_iff {p : α} : Threaded next null p [] ↔ p = null := Iff.rfl

@[simp] theorem cons_iff {p q : α} {l : List α} :
    Threaded next null p (q :: l) ↔ p = q ∧ p ≠ null ∧ Threaded next null (next p) l := Iff.rfl

/-- A list survives any change of `next` away from its elements. -/
theorem congr : ∀ {p : α} {l : List α}, (∀ q ∈ l, next' q = next q) →
    Threaded next null p l → Threaded next' null p l
  | _, [], _, h => h
  | p, q :: l, hn, ⟨hpq, hp, hl⟩ => by
    have hq : next' p = next p := hpq ▸ hn q List.mem_cons_self
    refine ⟨hpq, hp, ?_⟩
    rw [hq]
    exact congr (fun r hr => hn r (List.mem_cons_of_mem q hr)) hl

/-- The head determines the list: `next` is followed deterministically. -/
theorem unique : ∀ {p : α} {l l' : List α}, Threaded next null p l → Threaded next null p l' → l = l'
  | _, [], [], _, _ => rfl
  | _, [], _ :: _, h, ⟨_, hp, _⟩ => absurd h hp
  | _, _ :: _, [], ⟨_, hp, _⟩, h => absurd h hp
  | _, _ :: _, _ :: _, ⟨hq, _, hl⟩, ⟨hq', _, hl'⟩ => by
    rw [← hq, ← hq', unique hl hl']

theorem null_not_mem : ∀ {p : α} {l : List α}, Threaded next null p l → null ∉ l
  | _, [], _ => List.not_mem_nil
  | _, _ :: _, ⟨hq, hp, hl⟩ => by
    rw [List.mem_cons, not_or, ← hq]
    exact ⟨Ne.symm hp, null_not_mem hl⟩

/-- From an element on, the list is threaded again, and no longer. -/
theorem suffix : ∀ {p : α} {l : List α}, Threaded next null p l → ∀ {r : α}, r ∈ l →
    ∃ l₂, Threaded next null r (r :: l₂) ∧ l₂.length < l.length
  | _, [], _, _, hr => absurd hr List.not_mem_nil
  | p, q :: l, h, r, hr => by
    have ⟨hq, _, hl⟩ := h
    rcases List.mem_cons.mp hr with rfl | hr
    · exact ⟨l, hq ▸ h, Nat.lt_succ_self _⟩
    · obtain ⟨l₂, h₂, hlen⟩ := suffix hl hr
      exact ⟨l₂, h₂, Nat.lt_succ_of_lt hlen⟩

/-- A list that reaches null repeats no element: coming back to an
element would follow the same `next`s forever. -/
theorem nodup : ∀ {p : α} {l : List α}, Threaded next null p l → l.Nodup
  | _, [], _ => List.nodup_nil
  | p, q :: l, h => by
    have ⟨hq, _, hl⟩ := h
    refine List.nodup_cons.mpr ⟨fun hmem => ?_, nodup hl⟩
    -- from its second visit `q` would head a list shorter than from its first
    obtain ⟨l₂, h₂, hlen⟩ := suffix hl hmem
    have heq := unique (hq ▸ h) h₂
    rw [List.cons.injEq] at heq
    rw [heq.2] at hlen
    exact Nat.lt_irrefl _ hlen

/-- Pushing `q`: a fresh element whose `next` is the old head, with `next`
unchanged on the old list. -/
theorem push {p q : α} {l : List α} (hq : q ≠ null) (hnext : next' q = p)
    (hl : ∀ r ∈ l, next' r = next r) (h : Threaded next null p l) : Threaded next' null q (q :: l) :=
  ⟨rfl, hq, hnext ▸ congr hl h⟩

/-- An element that is its own `next` heads no list: the reading never
reaches null. -/
theorem not_of_next_self {q : α} (hq : next q = q) (hne : q ≠ null) : ∀ {l : List α}, ¬Threaded next null q l
  | [], h => hne h
  | _ :: l, ⟨_, _, hl⟩ => not_of_next_self hq hne (l := l) (hq ▸ hl)

end Threaded
