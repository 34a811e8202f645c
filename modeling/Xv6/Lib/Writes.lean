/-
# `Xv6.Lib.Writes` — a store updated by a program of single-cell writes

A store is a function `α → β` (a disk from block numbers to contents, a
memory from addresses to bytes).  A program is a list of writes, each of
one cell, with a value computed from the store as it stands when the write
is issued (a buffer read through the cache, changed, written back).  A
device whose single writes are atomic and that may stop after any of them
is then described by the prefixes of the program: `run d (ws.take k)` is
the store after a crash that follows the `k`-th write.

**Provided.**

    run_append              programs compose
    run_take_append         a prefix of two programs is a prefix of the
                            first, or all of it and a prefix of the second
    run_apply_of_forall     a cell no write names keeps its value
    run_eq_of_readsFresh    a program none of whose writes reads a cell an
                            earlier one wrote computes every value from the
                            store it started on
    run_const_apply         a program of constant writes to distinct cells
                            leaves each cell with its own write's value
    run_const_apply_cases   after constant writes a cell holds its old
                            value or one written to it
    readsFresh_map          a program listed by `xs` reads fresh cells when
                            each later write ignores each earlier one's cell
    run_copies_apply        copies to distinct cells, each reading a cell no
                            earlier copy wrote, move the starting values

Nothing here names the program the store belongs to.
-/
import Mathlib.Logic.Function.Basic
import Mathlib.Data.List.Basic

namespace Store

variable {α β : Type} [DecidableEq α]

/-- A write of `cell`, with the value `value` computes from the store. -/
structure Write (α β : Type) where
  cell : α
  value : (α → β) → β

/-- A write of a value fixed in advance. -/
def Write.const (a : α) (v : β) : Write α β :=
  ⟨a, fun _ => v⟩

/-- One write. -/
def write (d : α → β) (w : Write α β) : α → β :=
  Function.update d w.cell (w.value d)

/-- The writes of `ws`, first to last. -/
def run (d : α → β) (ws : List (Write α β)) : α → β :=
  ws.foldl write d

attribute [grind] Write.const write

@[simp] theorem run_nil (d : α → β) : run d [] = d := rfl

@[simp] theorem run_cons (d : α → β) (w : Write α β) (ws : List (Write α β)) :
    run d (w :: ws) = run (write d w) ws := rfl

theorem run_append (d : α → β) (ws ws' : List (Write α β)) :
    run d (ws ++ ws') = run (run d ws) ws' :=
  List.foldl_append

@[simp] theorem write_apply (d : α → β) (w : Write α β) (a : α) :
    write d w a = if a = w.cell then w.value d else d a :=
  Function.update_apply d w.cell _ a

/-- The frame rule: a cell that no write names keeps its value. -/
theorem run_apply_of_forall (d : α → β) (ws : List (Write α β)) (a : α)
    (h : ∀ w ∈ ws, w.cell ≠ a) : run d ws a = d a := by
  induction ws generalizing d with
  | nil => rfl
  | cons w ws ih =>
      rw [run_cons, ih (write d w) (fun w' hw' => h w' (List.mem_cons_of_mem _ hw'))]
      have hw : w.cell ≠ a := h w List.mem_cons_self
      simp [write_apply, Ne.symm hw]

/-- A crash inside the second of two programs has run all of the first. -/
theorem run_take_append (d : α → β) (ws ws' : List (Write α β)) (k : Nat) :
    run d ((ws ++ ws').take k) =
      if k ≤ ws.length then run d (ws.take k)
      else run (run d ws) (ws'.take (k - ws.length)) := by
  split
  · rename_i hk
    rw [List.take_append_of_le_length hk]
  · rename_i hk
    rw [List.take_append, List.take_of_length_le (by omega), run_append]

/-! ## Programs whose reads are not disturbed by their own writes -/

/-- `w` does not read cell `a`. -/
def Write.Ignores (w : Write α β) (a : α) : Prop :=
  ∀ d v, w.value (Function.update d a v) = w.value d

/-- No write of the program reads a cell that an earlier write wrote. -/
def ReadsFresh : List (Write α β) → Prop
  | [] => True
  | w :: ws => (∀ w' ∈ ws, w'.Ignores w.cell) ∧ ReadsFresh ws

theorem ReadsFresh.take : ∀ {ws : List (Write α β)} (k : Nat), ReadsFresh ws → ReadsFresh (ws.take k)
  | [], k, _ => by rw [List.take_nil]; trivial
  | _ :: _, 0, _ => trivial
  | _ :: ws, k + 1, ⟨hw, hws⟩ =>
      ⟨fun w' hw' => hw w' (List.mem_of_mem_take hw'), ReadsFresh.take k hws⟩

/-- A program none of whose writes reads a cell that the program writes. -/
theorem ReadsFresh.of_ignores :
    ∀ {ws : List (Write α β)}, (∀ w ∈ ws, ∀ w' ∈ ws, w'.Ignores w.cell) → ReadsFresh ws
  | [], _ => trivial
  | w :: _, h =>
      ⟨fun w' hw' => h w List.mem_cons_self w' (List.mem_cons_of_mem _ hw'),
        ReadsFresh.of_ignores fun u hu u' hu' =>
          h u (List.mem_cons_of_mem _ hu) u' (List.mem_cons_of_mem _ hu')⟩

/-- Such a program runs as the constant writes of the values it would
compute at the start. -/
theorem run_eq_of_readsFresh (d : α → β) (ws : List (Write α β)) (h : ReadsFresh ws) :
    run d ws = run d (ws.map fun w => Write.const w.cell (w.value d)) := by
  induction ws generalizing d with
  | nil => rfl
  | cons w ws ih =>
      obtain ⟨hign, hws⟩ := h
      -- the later writes compute the same values before and after `w`
      have hsame : ws.map (fun w' => Write.const w'.cell (w'.value (write d w))) =
          ws.map (fun w' => Write.const w'.cell (w'.value d)) :=
        List.map_congr_left fun w' hw' => by rw [write, hign w' hw']
      rw [run_cons, ih (write d w) hws, hsame, List.map_cons, run_cons]
      rfl

/-- After constant writes, a cell holds what it held or the value of one
of the writes to it. -/
theorem run_const_apply_cases {γ : Type} (d : α → β) (xs : List γ) (c : γ → α) (v : γ → β) (a : α) :
    run d (xs.map fun y => Write.const (c y) (v y)) a = d a ∨
      ∃ x ∈ xs, c x = a ∧ run d (xs.map fun y => Write.const (c y) (v y)) a = v x := by
  induction xs generalizing d with
  | nil => exact .inl rfl
  | cons y ys ih =>
      rw [List.map_cons, run_cons]
      rcases ih (write d (Write.const (c y) (v y))) with h | ⟨x, hx, hcx, h⟩
      · rw [h, write_apply]
        split
        · rename_i hay
          exact .inr ⟨y, List.mem_cons_self, hay.symm, rfl⟩
        · exact .inl rfl
      · exact .inr ⟨x, List.mem_cons_of_mem _ hx, hcx, h⟩

/-- Constant writes to the cells `c x`, distinct for distinct `x`, leave
each such cell with the value of its own write. -/
theorem run_const_apply {γ : Type} (d : α → β) (xs : List γ) (c : γ → α) (v : γ → β)
    (hinj : ∀ x ∈ xs, ∀ y ∈ xs, c x = c y → x = y) (x : γ) (hx : x ∈ xs) :
    run d (xs.map fun y => Write.const (c y) (v y)) (c x) = v x := by
  induction xs generalizing d with
  | nil => cases hx
  | cons y ys ih =>
      have hinj' : ∀ x ∈ ys, ∀ y ∈ ys, c x = c y → x = y := fun x hx y hy =>
        hinj x (List.mem_cons_of_mem _ hx) y (List.mem_cons_of_mem _ hy)
      rw [List.map_cons, run_cons]
      by_cases hxs : x ∈ ys
      · exact ih _ hinj' hxs
      · -- `x` is the head, and no later write reaches its cell
        have hxy : x = y := by
          rcases List.mem_cons.mp hx with h | h
          · exact h
          · exact absurd h hxs
        subst hxy
        rw [run_apply_of_forall]
        · simp [Write.const]
        · intro w hw
          obtain ⟨z, hz, rfl⟩ := List.mem_map.mp hw
          intro hzx
          exact hxs (hinj z (List.mem_cons_of_mem _ hz) x List.mem_cons_self hzx ▸ hz)

/-! ## Copies -/

/-- The write of cell `a` with the value cell `b` holds when it is issued
(`*a = *b`). -/
def Write.copy (a b : α) : Write α β :=
  ⟨a, fun d => d b⟩

attribute [grind] Write.copy

omit [DecidableEq α] in
@[simp] theorem Write.copy_cell (a b : α) : (Write.copy a b : Write α β).cell = a :=
  rfl

theorem Write.copy_ignores {a b c : α} (h : b ≠ c) : (Write.copy a b : Write α β).Ignores c := by
  intro d v
  simp only [Write.copy]
  exact Function.update_of_ne h v d

/-- A program listed by `xs` reads fresh cells when each write ignores the
cells of the writes before it. -/
theorem readsFresh_map {γ : Type} (f : γ → Write α β) :
    ∀ {xs : List γ}, xs.Pairwise (fun x y => (f y).Ignores (f x).cell) → ReadsFresh (xs.map f)
  | [], _ => trivial
  | _ :: _, h => by
    rw [List.pairwise_cons] at h
    refine ⟨fun w' hw' => ?_, readsFresh_map f h.2⟩
    obtain ⟨y, hy, rfl⟩ := List.mem_map.mp hw'
    exact h.1 y hy

/-- Copies `c x ← s x` to distinct cells, none of which reads a cell that
an earlier copy wrote, leave each written cell with the value its source
held at the start. -/
theorem run_copies_apply {γ : Type} (d : α → β) (xs : List γ) (c s : γ → α)
    (hinj : ∀ x ∈ xs, ∀ y ∈ xs, c x = c y → x = y) (hfresh : xs.Pairwise fun x y => s y ≠ c x)
    (x : γ) (hx : x ∈ xs) :
    run d (xs.map fun y => Write.copy (c y) (s y)) (c x) = d (s x) := by
  have hrf : ReadsFresh (xs.map fun y => (Write.copy (c y) (s y) : Write α β)) :=
    readsFresh_map _ (hfresh.imp fun h => Write.copy_ignores h)
  rw [run_eq_of_readsFresh d _ hrf, List.map_map]
  exact run_const_apply d xs c (fun y => d (s y)) hinj x hx

end Store
