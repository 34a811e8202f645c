/-
# `Xv6.Lib.Pattern` — patterns of atoms, starred atoms and an end anchor

The patterns of the smallest regular-expression matchers: a list of
items, each an atom read once, an atom read any number of times, or the
end of the text.  An atom is any symbol, or one given symbol.

`Spans is t r` says that the items `is`, read left to right, consume a
prefix of the text `t` and leave `r`.  A pattern matches at the start of
a text when it spans it to some rest; it matches somewhere when it
matches at the start of one of the text's suffixes, the empty one
included.

**Provided.**

    spans_nil_iff, spans_one_iff,   a first item, taken apart: what a
      spans_star_iff, spans_eol_iff   matcher that reads it does next
    AtStart, Somewhere             matching at the start, and anywhere
    somewhere_nil, somewhere_cons  the search over suffixes, one at a time

Nothing here names the program the patterns come from.
-/
import Mathlib.Data.List.Basic

namespace Pattern

variable {α : Type} [DecidableEq α]

/-- What one position of a pattern reads. -/
inductive Atom (α : Type) where
  | any
  | sym (a : α)
  deriving DecidableEq

/-- Whether the atom reads the symbol `x`. -/
def Atom.reads : Atom α → α → Bool
  | .any, _ => true
  | .sym a, x => a = x

attribute [grind] Atom.reads

/-- An item of a pattern. -/
inductive Item (α : Type) where
  | one (a : Atom α)
  | star (a : Atom α)
  | eol
  deriving DecidableEq

/-- The items consume a prefix of the text and leave the rest. -/
inductive Spans : List (Item α) → List α → List α → Prop
  | nil (t : List α) : Spans [] t t
  | one {a : Atom α} {x : α} {is : List (Item α)} {t r : List α} :
      a.reads x = true → Spans is t r → Spans (.one a :: is) (x :: t) r
  | skip {a : Atom α} {is : List (Item α)} {t r : List α} :
      Spans is t r → Spans (.star a :: is) t r
  | more {a : Atom α} {x : α} {is : List (Item α)} {t r : List α} :
      a.reads x = true → Spans (.star a :: is) t r → Spans (.star a :: is) (x :: t) r
  | eol {is : List (Item α)} {r : List α} : Spans is [] r → Spans (.eol :: is) [] r

/-! ## One item at a time -/

theorem spans_nil_iff {t r : List α} : Spans [] t r ↔ r = t := by
  constructor
  · rintro ⟨⟩
    rfl
  · rintro rfl
    exact .nil _

theorem spans_one_iff {a : Atom α} {is : List (Item α)} {t r : List α} :
    Spans (.one a :: is) t r ↔ ∃ x t', t = x :: t' ∧ a.reads x = true ∧ Spans is t' r := by
  constructor
  · intro h
    cases h with
    | one hx hs => exact ⟨_, _, rfl, hx, hs⟩
  · rintro ⟨x, t', rfl, hx, hs⟩
    exact .one hx hs

/-- A starred atom is skipped, or reads one more symbol and stays. -/
theorem spans_star_iff {a : Atom α} {is : List (Item α)} {t r : List α} :
    Spans (.star a :: is) t r ↔
      Spans is t r ∨ ∃ x t', t = x :: t' ∧ a.reads x = true ∧ Spans (.star a :: is) t' r := by
  constructor
  · intro h
    cases h with
    | skip hs => exact .inl hs
    | more hx hs => exact .inr ⟨_, _, rfl, hx, hs⟩
  · rintro (hs | ⟨x, t', rfl, hx, hs⟩)
    · exact .skip hs
    · exact .more hx hs

theorem spans_eol_iff {is : List (Item α)} {t r : List α} :
    Spans (.eol :: is) t r ↔ t = [] ∧ Spans is [] r := by
  constructor
  · intro h
    cases h with
    | eol hs => exact ⟨rfl, hs⟩
  · rintro ⟨rfl, hs⟩
    exact .eol hs

/-! ## Matching at the start, and anywhere -/

/-- The pattern matches a prefix of the text. -/
def AtStart (is : List (Item α)) (t : List α) : Prop :=
  ∃ r, Spans is t r

/-- The pattern matches at the start of some suffix of the text. -/
def Somewhere (is : List (Item α)) (t : List α) : Prop :=
  ∃ s ∈ t.tails, AtStart is s

attribute [grind] AtStart Somewhere

theorem somewhere_nil {is : List (Item α)} : Somewhere is [] ↔ AtStart is [] := by
  simp [Somewhere]

/-- The search over suffixes tries the whole text first, then the rest
after its first symbol. -/
theorem somewhere_cons {is : List (Item α)} {x : α} {t : List α} :
    Somewhere is (x :: t) ↔ AtStart is (x :: t) ∨ Somewhere is t := by
  simp [Somewhere]

end Pattern
