/-
# `Xv6.Lib.StateExcept` — programs over a state that may stop with an error

A procedure that reads and writes a state and may give up with a message
(a kernel function that may `panic`) is a program in `StateT σ (Except ε)`:
from a state it either ends with a result and a new state, or stops with
the message.  Proofs about such programs never unfold the monad.  A
successful run of a `do` block is split into successful runs of its steps
by `bind_ok`, and a property of every successful run that composes (a
preorder on states: "nothing but this part changed", "the invariant still
holds") is proved one step at a time with `Guarantees` and its rules, the
way a Hoare logic proves a postcondition.

**Provided.**

    bind_ok                 a successful `x >>= f` is a successful `x`
                            followed by a successful `f`
    Guarantees.bind, .ite,  the rules that carry a preorder through
      .forM, .pure, ...     sequencing, conditionals and loops over lists
    Keeps                   the special case of an invariant
    Fixes, Under            a part of the state left alone, and an
                            invariant kept together with such a frame

Nothing here names the program the state belongs to.
-/
import Mathlib.Order.Defs.Unbundled

namespace StateExcept

variable {σ ε α β γ : Type}

/-! ## Running the primitives -/

@[simp] theorem pure_run (a : α) (s : σ) : (pure a : StateT σ (Except ε) α) s = .ok (a, s) := rfl

@[simp] theorem get_run (s : σ) : (get : StateT σ (Except ε) σ) s = .ok (s, s) := rfl

@[simp] theorem set_run (s s₀ : σ) : (set s : StateT σ (Except ε) Unit) s₀ = .ok ((), s) := rfl

@[simp] theorem modify_run (f : σ → σ) (s : σ) :
    (modify f : StateT σ (Except ε) Unit) s = .ok ((), f s) := rfl

@[simp] theorem throw_run (e : ε) (s : σ) : (throw e : StateT σ (Except ε) α) s = .error e := rfl

/-! Sequencing after a primitive runs the rest from the state it left. -/

@[simp] theorem get_bind_run (f : σ → StateT σ (Except ε) β) (s : σ) : (get >>= f) s = f s s := rfl

@[simp] theorem set_bind_run (s₁ : σ) (f : PUnit → StateT σ (Except ε) β) (s : σ) :
    (set s₁ >>= f) s = f () s₁ := rfl

@[simp] theorem modify_bind_run (g : σ → σ) (f : PUnit → StateT σ (Except ε) β) (s : σ) :
    (modify g >>= f) s = f () (g s) := rfl

@[simp] theorem pure_bind_run (a : α) (f : α → StateT σ (Except ε) β) (s : σ) :
    (pure a >>= f) s = f a s := rfl

@[simp] theorem throw_bind_run (e : ε) (f : α → StateT σ (Except ε) β) (s : σ) :
    ((throw e : StateT σ (Except ε) α) >>= f) s = .error e := rfl

@[simp] theorem ite_run (c : Prop) [Decidable c] (x y : StateT σ (Except ε) α) (s : σ) :
    (if c then x else y) s = if c then x s else y s := by
  split <;> rfl

@[simp] theorem dite_run (c : Prop) [Decidable c] (x : c → StateT σ (Except ε) α)
    (y : ¬ c → StateT σ (Except ε) α) (s : σ) :
    (if h : c then x h else y h) s = if h : c then x h s else y h s := by
  split <;> rfl

theorem bind_run_of_ok {x : StateT σ (Except ε) α} {f : α → StateT σ (Except ε) β} {s s₁ : σ}
    {a : α} (h : x s = .ok (a, s₁)) : (x >>= f) s = f a s₁ := by
  show (do let (a, s) ← x s; f a s : Except ε (β × σ)) = _
  rw [h]
  rfl

theorem bind_run_of_error {x : StateT σ (Except ε) α} {f : α → StateT σ (Except ε) β} {s : σ}
    {e : ε} (h : x s = .error e) : (x >>= f) s = .error e := by
  show (do let (a, s) ← x s; f a s : Except ε (β × σ)) = _
  rw [h]
  rfl

/-- The inversion of sequencing: a successful run of `x >>= f` is a
successful run of `x` and then one of `f` from where `x` ended. -/
theorem bind_ok {x : StateT σ (Except ε) α} {f : α → StateT σ (Except ε) β} {s : σ}
    {r : β × σ} : (x >>= f) s = .ok r ↔ ∃ a s₁, x s = .ok (a, s₁) ∧ f a s₁ = .ok r := by
  constructor
  · intro h
    cases hx : x s with
    | error e =>
        rw [bind_run_of_error hx] at h
        cases h
    | ok p =>
        obtain ⟨a, s₁⟩ := p
        exact ⟨a, s₁, rfl, (bind_run_of_ok hx).symm.trans h⟩
  · rintro ⟨a, s₁, hx, hf⟩
    rw [bind_run_of_ok hx]
    exact hf

theorem pure_ok {a a' : α} {s s' : σ} (h : (pure a : StateT σ (Except ε) α) s = .ok (a', s')) :
    a' = a ∧ s' = s := by
  rw [pure_run, Except.ok.injEq, Prod.mk.injEq] at h
  exact ⟨h.1.symm, h.2.symm⟩

theorem modify_ok {f : σ → σ} {s s' : σ} {u : Unit}
    (h : (modify f : StateT σ (Except ε) Unit) s = .ok (u, s')) : s' = f s := by
  rw [modify_run, Except.ok.injEq, Prod.mk.injEq] at h
  exact h.2.symm

theorem throw_not_ok {e : ε} {s : σ} {r : α × σ} :
    ¬ (throw e : StateT σ (Except ε) α) s = .ok r := by
  rw [throw_run]
  intro h
  cases h

@[simp] theorem forM_nil (f : γ → StateT σ (Except ε) PUnit) :
    ([] : List γ).forM f = pure PUnit.unit := rfl

@[simp] theorem forM_cons (f : γ → StateT σ (Except ε) PUnit) (x : γ) (xs : List γ) :
    (x :: xs).forM f = (f x >>= fun _ => xs.forM f) := rfl

/-! ## Properties of every successful run -/

/-- Every successful run of `x` ends in a state that `R` relates to the one
it started from. -/
def Guarantees (R : σ → σ → Prop) (x : StateT σ (Except ε) α) : Prop :=
  ∀ s a s', x s = .ok (a, s') → R s s'

section Rules

variable {R : σ → σ → Prop}

theorem Guarantees.pure [IsPreorder σ R] (a : α) : Guarantees R (pure a : StateT σ (Except ε) α) := by
  intro s a' s' h
  rw [(pure_ok h).2]
  exact refl_of R s

theorem Guarantees.get [IsPreorder σ R] : Guarantees R (get : StateT σ (Except ε) σ) := by
  intro s a s' h
  rw [get_run, Except.ok.injEq, Prod.mk.injEq] at h
  rw [← h.2]
  exact refl_of R s

theorem Guarantees.throw (e : ε) : Guarantees R (throw e : StateT σ (Except ε) α) :=
  fun _ _ _ h => absurd h throw_not_ok

/-- What follows a `throw` never runs. -/
theorem Guarantees.throw_bind (e : ε) (f : α → StateT σ (Except ε) β) :
    Guarantees R ((MonadExcept.throw e : StateT σ (Except ε) α) >>= f) := by
  intro s b s' h
  rw [throw_bind_run] at h
  cases h

theorem Guarantees.modify {f : σ → σ} (hf : ∀ s, R s (f s)) :
    Guarantees R (modify f : StateT σ (Except ε) Unit) := by
  intro s u s' h
  rw [modify_ok h]
  exact hf s

theorem Guarantees.bind [IsPreorder σ R] {x : StateT σ (Except ε) α} {f : α → StateT σ (Except ε) β}
    (hx : Guarantees R x) (hf : ∀ a, Guarantees R (f a)) : Guarantees R (x >>= f) := by
  intro s b s' h
  obtain ⟨a, s₁, h₁, h₂⟩ := bind_ok.mp h
  exact trans_of R (hx s a s₁ h₁) (hf a s₁ b s' h₂)

theorem Guarantees.ite {c : Prop} [Decidable c] {x y : StateT σ (Except ε) α}
    (hx : Guarantees R x) (hy : Guarantees R y) : Guarantees R (if c then x else y) := by
  split
  · exact hx
  · exact hy

theorem Guarantees.dite {c : Prop} [Decidable c] {x : c → StateT σ (Except ε) α}
    {y : ¬c → StateT σ (Except ε) α} (hx : ∀ h, Guarantees R (x h)) (hy : ∀ h, Guarantees R (y h)) :
    Guarantees R (if h : c then x h else y h) := by
  split
  · exact hx _
  · exact hy _

theorem Guarantees.forM [IsPreorder σ R] {xs : List γ} {f : γ → StateT σ (Except ε) PUnit}
    (hf : ∀ x ∈ xs, Guarantees R (f x)) : Guarantees R (xs.forM f) := by
  induction xs with
  | nil => exact Guarantees.pure _
  | cons x xs ih =>
      rw [forM_cons]
      exact (hf x List.mem_cons_self).bind fun _ =>
        ih fun y hy => hf y (List.mem_cons_of_mem _ hy)

end Rules

theorem Guarantees.mono {R R' : σ → σ → Prop} {x : StateT σ (Except ε) α}
    (h : Guarantees R x) (hR : ∀ s s', R s s' → R' s s') : Guarantees R' x :=
  fun s a s' hx => hR s s' (h s a s' hx)

theorem Guarantees.and {R R' : σ → σ → Prop} {x : StateT σ (Except ε) α}
    (h : Guarantees R x) (h' : Guarantees R' x) : Guarantees (fun s s' => R s s' ∧ R' s s') x :=
  fun s a s' hx => ⟨h s a s' hx, h' s a s' hx⟩

/-! ## Invariants -/

/-- `I` holds after a step from a state where it held. -/
def Implies (I : σ → Prop) (s s' : σ) : Prop :=
  I s → I s'

instance (I : σ → Prop) : IsPreorder σ (Implies I) where
  refl _ h := h
  trans _ _ _ h h' x := h' (h x)

/-- Every successful run of `x` from a state satisfying `I` ends in one
satisfying `I`. -/
abbrev Keeps (I : σ → Prop) (x : StateT σ (Except ε) α) : Prop :=
  Guarantees (Implies I) x

/-- `f` reads the same after a step. -/
def Fixes {β : Type} (f : σ → β) (s s' : σ) : Prop :=
  f s' = f s

instance {β : Type} (f : σ → β) : IsPreorder σ (Fixes f) where
  refl _ := rfl
  trans _ _ _ h h' := h'.trans h

/-- From a state satisfying `I`, a step ends in one satisfying `I` and
related by `R`: an invariant together with a frame it keeps. -/
def Under (I : σ → Prop) (R : σ → σ → Prop) (s s' : σ) : Prop :=
  I s → I s' ∧ R s s'

instance (I : σ → Prop) (R : σ → σ → Prop) [IsPreorder σ R] : IsPreorder σ (Under I R) where
  refl s h := ⟨h, refl_of R s⟩
  trans _ _ _ h h' x := ⟨(h' (h x).1).1, trans_of R (h x).2 (h' (h x).1).2⟩

theorem Keeps.of_guarantees {R : σ → σ → Prop} {I : σ → Prop} {x : StateT σ (Except ε) α}
    (h : Guarantees R x) (hR : ∀ s s', R s s' → I s → I s') : Keeps I x :=
  h.mono hR

end StateExcept
