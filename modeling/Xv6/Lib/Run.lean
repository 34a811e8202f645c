/-
# `Xv6.Lib.Run` — runs of a machine with a partial, labelled step

A machine here is a state type `σ`, an event type `ε`, an output type `ω`
and a partial step `step : σ → ε → Option (σ × ω)`.  `none` means the event
cannot happen in that state (its guard fails, or the machine has stopped);
`some (s', o)` is the next state and what the step printed or returned.

A run remembers every step it took, newest first, as the triple
(pre-state, event, output).  Keeping the history is what lets a
specification speak of "the most recent event of this kind" and of the
state some earlier event saw, which a predicate on states alone cannot.

**Provided.**

    Run.invariant        a history-and-state predicate that holds at the start
                         and is kept by every step holds after every run
    Run.state_invariant  the same for a predicate on states alone
    Run.append           runs compose
    Run.simulate         a machine whose steps another matches, event for
                         event and output for output, has its runs matched
    Run.of_exec          a list of events executed by `exec` is a run
    exists_run_of_exec   a property its end state is checked to have holds
                         of a reachable state
    exists_run_of_exec_from  the same from a computed initial state
    exists_run_of_events a list of events `exec` runs to the end is the
                         history of a run
    exists_run_of_outputs_from  the same from a computed initial state,
                         with the outputs `exec` gave

Nothing here names the program the machine models.
-/
import Mathlib.Logic.Basic

namespace Machine

variable {σ ε ω : Type}

/-- `Run step s₀ h s`: from `s₀` the machine took the steps recorded in `h`
(newest first, each with the state it started from and its output) and
stopped in `s`. -/
inductive Run (step : σ → ε → Option (σ × ω)) (s₀ : σ) : List (σ × ε × ω) → σ → Prop
  | nil : Run step s₀ [] s₀
  | cons {h : List (σ × ε × ω)} {s s' : σ} {e : ε} {o : ω} :
      Run step s₀ h s → step s e = some (s', o) → Run step s₀ ((s, e, o) :: h) s'

/-- A state some run reaches. -/
def Reachable (step : σ → ε → Option (σ × ω)) (s₀ s : σ) : Prop :=
  ∃ h, Run step s₀ h s

namespace Run

variable {step : σ → ε → Option (σ × ω)} {s₀ : σ}

/-- The induction rule for whole runs: an invariant of the history and the
state that holds at the start and survives one step holds after every run.
The step case may use that its pre-state is itself reached. -/
theorem invariant (I : List (σ × ε × ω) → σ → Prop) (h₀ : I [] s₀)
    (hstep : ∀ h s e s' o, Run step s₀ h s → I h s → step s e = some (s', o) →
      I ((s, e, o) :: h) s') :
    ∀ {h s}, Run step s₀ h s → I h s := by
  intro h s hr
  induction hr with
  | nil => exact h₀
  | cons hr hs ih => exact hstep _ _ _ _ _ hr ih hs

/-- Runs compose: a run from where another stopped continues it. -/
theorem append {s₁ s₂ : σ} {h₁ h₂ : List (σ × ε × ω)} (hr₁ : Run step s₀ h₁ s₁)
    (hr₂ : Run step s₁ h₂ s₂) : Run step s₀ (h₂ ++ h₁) s₂ := by
  induction hr₂ with
  | nil => exact hr₁
  | cons _ hs ih => exact Run.cons ih hs

/-- The rule for an invariant of states alone. -/
theorem state_invariant (I : σ → Prop) (h₀ : I s₀)
    (hstep : ∀ s e s' o, I s → step s e = some (s', o) → I s') :
    ∀ {h s}, Run step s₀ h s → I s :=
  invariant (fun _ s => I s) h₀ (fun _ _ _ _ _ _ hi hs => hstep _ _ _ _ hi hs)

/-- Forward simulation: when every step from related states is matched by a
step of a second machine on the same event with the same output, every run
is matched by a run of the second machine with the same events and outputs,
ending in related states. -/
theorem simulate {τ : Type} {step' : τ → ε → Option (τ × ω)} {t₀ : τ} (R : σ → τ → Prop) (h₀ : R s₀ t₀)
    (hstep : ∀ s t e s' o, R s t → step s e = some (s', o) → ∃ t', step' t e = some (t', o) ∧ R s' t') :
    ∀ {h s}, Run step s₀ h s →
      ∃ h' t, Run step' t₀ h' t ∧ h'.map (fun x => x.2) = h.map (fun x => x.2) ∧ R s t := by
  intro h s hr
  induction hr with
  | nil => exact ⟨[], t₀, .nil, rfl, h₀⟩
  | cons _ hs ih =>
    obtain ⟨h', t, hr', hmap, hR⟩ := ih
    obtain ⟨t', ht, hR'⟩ := hstep _ _ _ _ _ hR hs
    exact ⟨(t, _, _) :: h', t', .cons hr' ht, by simp [hmap], hR'⟩

end Run

/-- Execute a list of events in order from `s`, collecting the history in
the order `Run` keeps it; `none` as soon as one event cannot happen. -/
def exec (step : σ → ε → Option (σ × ω)) :
    σ → List (σ × ε × ω) → List ε → Option (List (σ × ε × ω) × σ)
  | s, h, [] => some (h, s)
  | s, h, e :: es =>
      match step s e with
      | none => none
      | some (s', o) => exec step s' ((s, e, o) :: h) es

attribute [grind] exec

theorem Run.of_exec {step : σ → ε → Option (σ × ω)} {s₀ : σ} :
    ∀ {es : List ε} {s s' : σ} {h h' : List (σ × ε × ω)},
      Run step s₀ h s → exec step s h es = some (h', s') → Run step s₀ h' s'
  | [], _, _, _, _, hr, hx => by
      simp only [exec, Option.some.injEq, Prod.mk.injEq] at hx
      obtain ⟨rfl, rfl⟩ := hx
      exact hr
  | e :: es, s, _, h, _, hr, hx => by
      simp only [exec] at hx
      cases hs : step s e with
      | none => simp [hs] at hx
      | some r =>
          obtain ⟨s', o⟩ := r
          rw [hs] at hx
          exact Run.of_exec (Run.cons hr hs) hx

/-- `exec` records the events it ran, newest first, before the history it
was given. -/
theorem exec_events {step : σ → ε → Option (σ × ω)} :
    ∀ {es : List ε} {s s' : σ} {h h' : List (σ × ε × ω)},
      exec step s h es = some (h', s') → h'.map (fun x => x.2.1) = es.reverse ++ h.map (fun x => x.2.1)
  | [], _, _, _, _, hx => by
      simp only [exec, Option.some.injEq, Prod.mk.injEq] at hx
      obtain ⟨rfl, rfl⟩ := hx
      rfl
  | e :: es, s, _, h, _, hx => by
      simp only [exec] at hx
      cases hs : step s e with
      | none => simp [hs] at hx
      | some r =>
          obtain ⟨s', o⟩ := r
          rw [hs] at hx
          rw [exec_events hx]
          simp

/-- What `exec` returns is a run, whose history holds the events newest
first. -/
theorem run_of_exec {step : σ → ε → Option (σ × ω)} {s₀ s : σ} {es : List ε} {hist : List (σ × ε × ω)}
    (hx : exec step s₀ [] es = some (hist, s)) : Run step s₀ hist s ∧ hist.map (fun x => x.2.1) = es.reverse := by
  refine ⟨Run.of_exec Run.nil hx, ?_⟩
  rw [exec_events hx]
  simp

/-- A fact about the outcome of `exec`, checked by evaluation, holds of
what it returned. -/
theorem exec_map_eq {step : σ → ε → Option (σ × ω)} {s₀ : σ} {es : List ε} {r : List (σ × ε × ω) × σ}
    {α : Type} (hx : exec step s₀ [] es = some r) (f : List (σ × ε × ω) × σ → α) {a : α}
    (hf : (exec step s₀ [] es).map f = some a) : f r = a := by
  rw [hx, Option.map_some] at hf
  exact Option.some.inj hf

/-- A list of events that `exec` runs to the end is the history of a run,
newest first. -/
theorem exists_run_of_events {step : σ → ε → Option (σ × ω)} {s₀ : σ} (es : List ε)
    (h : (exec step s₀ [] es).isSome) :
    ∃ hist s, Run step s₀ hist s ∧ hist.map (fun x => x.2.1) = es.reverse := by
  cases hx : exec step s₀ [] es with
  | none => rw [hx] at h; cases h
  | some r =>
      obtain ⟨hist, s⟩ := r
      exact ⟨hist, s, run_of_exec hx⟩

/-- A decidable property that the end state of an executed list of events
is checked to have holds of some state a run reaches. -/
theorem exists_run_of_exec {step : σ → ε → Option (σ × ω)} {s₀ : σ} (es : List ε)
    {P : σ → Prop} [DecidablePred P]
    (h : ((exec step s₀ [] es).map fun r => decide (P r.2)) = some true) :
    ∃ hist s, Run step s₀ hist s ∧ P s := by
  cases hx : exec step s₀ [] es with
  | none => rw [hx] at h; cases h
  | some r =>
      obtain ⟨hist, s⟩ := r
      rw [hx, Option.map_some, Option.some.injEq, decide_eq_true_iff] at h
      exact ⟨hist, s, Run.of_exec Run.nil hx, h⟩

/-- The same from an initial state that is itself computed and may fail. -/
theorem exists_run_of_exec_from {step : σ → ε → Option (σ × ω)} {init : Option σ} (es : List ε)
    {P : σ → Prop} [DecidablePred P]
    (h : ((init.bind fun s₀ => exec step s₀ [] es).map fun r => decide (P r.2)) = some true) :
    ∃ s₀ hist s, init = some s₀ ∧ Run step s₀ hist s ∧ P s := by
  cases hi : init with
  | none => rw [hi] at h; cases h
  | some s₀ =>
      rw [hi, Option.bind_some] at h
      obtain ⟨hist, s, hr, hp⟩ := exists_run_of_exec es h
      exact ⟨s₀, hist, s, rfl, hr, hp⟩

/-- A list of events that `exec` runs to the end from a computed initial
state, giving the outputs it was checked to give, is the history of a run,
oldest first. -/
theorem exists_run_of_outputs_from {step : σ → ε → Option (σ × ω)} {init : Option σ} (es : List ε)
    (os : List ω)
    (h : (init.bind fun s₀ => exec step s₀ [] es).map (fun r => (r.1.map fun x => x.2).reverse) =
      some (es.zip os)) :
    ∃ s₀ hist s, init = some s₀ ∧ Run step s₀ hist s ∧ (hist.map fun x => x.2).reverse = es.zip os := by
  cases hi : init with
  | none => rw [hi] at h; cases h
  | some s₀ =>
      rw [hi, Option.bind_some] at h
      cases hx : exec step s₀ [] es with
      | none => rw [hx] at h; cases h
      | some r =>
          obtain ⟨hist, s⟩ := r
          rw [hx, Option.map_some, Option.some.injEq] at h
          exact ⟨s₀, hist, s, rfl, Run.of_exec Run.nil hx, h⟩

end Machine
