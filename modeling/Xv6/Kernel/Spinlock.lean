/-
# `Xv6.Kernel.Spinlock` — `push_off`, `pop_off` and the interrupt state

One CPU's interrupt state: the `SIE` bit of `sstatus` and the fields
`noff` and `intena` of `struct cpu`.  `push_off` and `pop_off` are "like
`intr_off()`/`intr_on()` except that they are matched"; the calls of a CPU
are a list of `Op`, and `intr_on` is the scheduler's and `usertrap`'s,
made with no `push_off` outstanding (`Nested`).

**What they are for.**  `Saved` is a stack of saved interrupt bits:
`push_off` saves the bit and clears it, `pop_off` restores the bit it
saved.  The code keeps only the depth (`noff`) and the bottom of the
stack (`intena`): every bit saved above the bottom is `0`, since
interrupts are off there.  `Implements` relates the two, and every call
keeps it (`step_implements`, `run_implements`).

**Proved here.**

    run_nested         on a nested run no `pop_off` panics, `noff` is the
                       depth, and interrupts are off while it is positive
    run_outermost      the outermost `pop_off` restores the bit the
                       outermost `push_off` found
    runLocks_restores  over acquires and releases, the bit is the one at
                       the start whenever no lock is held
    sched_restores     across `sched()` a process's outermost `pop_off`
                       restores the bit its own outermost `push_off` found
    sched_outermost_keeps_off
                       but the law of one CPU fails across a switch

`acquire` and `release` are `push_off` and `pop_off` around the lock
itself; the spinning on a lock another CPU holds is not modelled.
`Threads` adds the kernel threads that take turns on the CPU: `sched()`
saves `intena` for the process that gives up the CPU, and its `swtch`
back puts it in place again.
-/
import Mathlib.Data.List.Basic

namespace Xv6

namespace Spinlock

/-! ## The code -/

/-- One CPU's interrupt state: `SIE` in `sstatus`, and `c->noff`,
`c->intena`.  `noff` is an `int` that `pop_off` never takes below `0`. -/
structure Cpu where
  sie : Bool
  noff : Nat
  intena : Bool
  deriving DecidableEq, Repr

/-- `push_off()`. -/
def push_off (c : Cpu) : Cpu :=
  let old := c.sie
  { sie := false, noff := c.noff + 1, intena := if c.noff = 0 then old else c.intena }

/-- `pop_off()`; `.error` is a `panic`. -/
def pop_off (c : Cpu) : Except String Cpu :=
  if c.sie then .error "pop_off - interruptible"
  else if c.noff < 1 then .error "pop_off"
  else
    let noff := c.noff - 1
    .ok { c with noff, sie := if noff = 0 ∧ c.intena then true else c.sie }

attribute [grind] push_off

/-- The calls that change a CPU's interrupt state. -/
inductive Op where
  | push_off
  | pop_off
  | intr_on
  | intr_off
  deriving DecidableEq, Repr

/-- One call. -/
def step (c : Cpu) : Op → Except String Cpu
  | .push_off => .ok (push_off c)
  | .pop_off => pop_off c
  | .intr_on => .ok { c with sie := true }
  | .intr_off => .ok { c with sie := false }

/-- The calls of `ops`, first to last, stopping at a panic. -/
def run (c : Cpu) : List Op → Except String Cpu
  | [] => .ok c
  | op :: ops => (step c op).bind fun c => run c ops

/-- Pops never outnumber pushes, and `intr_on` comes only with no
`push_off` outstanding: the calls a CPU at depth `d` may go on with. -/
def Nested : Nat → List Op → Prop
  | _, [] => True
  | d, .push_off :: ops => Nested (d + 1) ops
  | d, .pop_off :: ops => 0 < d ∧ Nested (d - 1) ops
  | d, .intr_on :: ops => d = 0 ∧ Nested d ops
  | d, .intr_off :: ops => Nested d ops

/-- The depth after `ops` from depth `d`. -/
def depth : Nat → List Op → Nat
  | d, [] => d
  | d, .push_off :: ops => depth (d + 1) ops
  | d, .pop_off :: ops => depth (d - 1) ops
  | d, _ :: ops => depth d ops

/-- The calls between an outermost `push_off` and its `pop_off`, from
depth `d`: they never take the depth below `1`, and end at `1`. -/
def Inside : Nat → List Op → Prop
  | d, [] => d = 1
  | d, .push_off :: ops => Inside (d + 1) ops
  | d, .pop_off :: ops => 1 < d ∧ Inside (d - 1) ops
  | _, .intr_on :: _ => False
  | d, .intr_off :: ops => Inside d ops

attribute [grind] run Inside

@[simp] theorem run_nil (c : Cpu) : run c [] = .ok c := rfl

theorem run_append (c : Cpu) (ops ops' : List Op) :
    run c (ops ++ ops') = (run c ops).bind fun c => run c ops' := by
  induction ops generalizing c with
  | nil => rfl
  | cons op ops ih =>
    simp only [List.cons_append, run]
    cases step c op with
    | error e => rfl
    | ok c' => exact ih c'

/-! ## The stack of saved bits -/

/-- What `push_off` and `pop_off` are for: the interrupt bit, and the
bits saved by the `push_off`s outstanding, latest first. -/
structure Saved where
  sie : Bool
  stack : List Bool
  deriving DecidableEq, Repr

/-- One call on the stack; `none` where it is not allowed. -/
def Saved.step (a : Saved) : Op → Option Saved
  | .push_off => some ⟨false, a.sie :: a.stack⟩
  | .pop_off => match a.stack with
    | [] => none
    | b :: s => some ⟨b, s⟩
  | .intr_on => if a.stack = [] then some ⟨true, []⟩ else none
  | .intr_off => some ⟨false, a.stack⟩

/-- The stack as the code keeps it: interrupts are off while a bit is
saved, and every bit saved above the bottom is `0`. -/
def Saved.Ok (a : Saved) : Prop :=
  a.stack ≠ [] → a.sie = false ∧ ∀ b ∈ a.stack.dropLast, b = false

attribute [grind] Saved.step Saved.Ok

/-- The code's state implements the stack: `noff` is its depth, `intena`
its bottom. -/
structure Implements (c : Cpu) (a : Saved) : Prop where
  noff : c.noff = a.stack.length
  sie : c.sie = a.sie
  intena : ∀ b, a.stack.getLast? = some b → c.intena = b
  ok : a.Ok

theorem push_off_implements {c : Cpu} {a : Saved} (h : Implements c a) :
    Implements (push_off c) ⟨false, a.sie :: a.stack⟩ := by
  refine ⟨by simp [push_off, h.noff], rfl, ?_, ?_⟩
  · intro b hb
    by_cases hs : a.stack = []
    · -- the outermost `push_off` saves the bit in `intena`
      have hn : c.noff = 0 := by rw [h.noff, hs]; rfl
      simp only [hs, List.getLast?_singleton, Option.some.injEq] at hb
      simp [push_off, hn, h.sie, hb]
    · have hn : c.noff ≠ 0 := by rw [h.noff]; simpa using hs
      rw [List.getLast?_cons_of_ne_nil hs] at hb
      simp [push_off, hn, h.intena b hb]
  · intro _
    refine ⟨rfl, fun b hb => ?_⟩
    by_cases hs : a.stack = []
    · simp [hs] at hb
    · -- inside, the bit `push_off` saves is `0`
      rw [List.dropLast_cons_of_ne_nil hs, List.mem_cons] at hb
      rcases hb with rfl | hb
      · exact (h.ok hs).1
      · exact (h.ok hs).2 b hb

theorem pop_off_implements {c : Cpu} {a : Saved} {b : Bool} {s : List Bool} (h : Implements c a)
    (hs : a.stack = b :: s) : pop_off c = .ok { c with noff := c.noff - 1, sie := b } ∧
      Implements { c with noff := c.noff - 1, sie := b } ⟨b, s⟩ := by
  have hne : a.stack ≠ [] := by simp [hs]
  have hoff : c.sie = false := by rw [h.sie]; exact (h.ok hne).1
  have hn : c.noff = s.length + 1 := by rw [h.noff, hs]; rfl
  -- the bit `pop_off` leaves: `intena` at the bottom, `0` above it
  have hbit : (if c.noff - 1 = 0 ∧ c.intena = true then true else c.sie) = b := by
    by_cases hs' : s = []
    · subst hs'
      have hb : c.intena = b := h.intena b (by simp [hs])
      simp [hn, hoff, ← hb]
    · have hb : b = false := (h.ok hne).2 b (by simp [hs, List.dropLast_cons_of_ne_nil hs'])
      have hn' : c.noff - 1 ≠ 0 := by rw [hn]; simpa using hs'
      simp [hn', hoff, hb]
  have hpop : pop_off c = .ok { c with noff := c.noff - 1, sie := b } := by
    unfold pop_off
    rw [if_neg (by simp [hoff]), if_neg (by omega)]
    dsimp only
    rw [hbit]
  refine ⟨hpop, ⟨by simp [hn], rfl, ?_, ?_⟩⟩
  · intro b' hb'
    have hs' : s ≠ [] := by rintro rfl; simp at hb'
    exact h.intena b' (by rw [hs, List.getLast?_cons_of_ne_nil hs', hb'])
  · intro hs'
    have hdrop : s.dropLast ⊆ (b :: s).dropLast := by
      rw [List.dropLast_cons_of_ne_nil hs']
      exact List.subset_cons_self _ _
    refine ⟨(h.ok hne).2 b ?_, fun b' hb' => (h.ok hne).2 b' (hs ▸ hdrop hb')⟩
    simp [hs, List.dropLast_cons_of_ne_nil hs']

/-- Every call the stack allows, the code makes without a panic, and the
states stay related. -/
theorem step_implements {c : Cpu} {a a' : Saved} {op : Op} (h : Implements c a)
    (ha : a.step op = some a') : ∃ c', step c op = .ok c' ∧ Implements c' a' := by
  cases op with
  | push_off =>
    obtain rfl := (Option.some.inj ha).symm
    exact ⟨_, rfl, push_off_implements h⟩
  | pop_off =>
    simp only [Saved.step] at ha
    split at ha
    · cases ha
    · rename_i b s hs
      obtain rfl := (Option.some.inj ha).symm
      exact ⟨_, (pop_off_implements h hs).1, (pop_off_implements h hs).2⟩
  | intr_on =>
    simp only [Saved.step] at ha
    split at ha
    · rename_i hs
      obtain rfl := (Option.some.inj ha).symm
      exact ⟨_, rfl, ⟨by simp [h.noff, hs], rfl, by simp, fun hs' => absurd rfl hs'⟩⟩
    · cases ha
  | intr_off =>
    obtain rfl := (Option.some.inj ha).symm
    refine ⟨_, rfl, ⟨h.noff, rfl, h.intena, fun hs => ⟨rfl, (h.ok hs).2⟩⟩⟩

/-- The calls of `ops`, first to last, on the stack. -/
def Saved.run (a : Saved) : List Op → Option Saved
  | [] => some a
  | op :: ops => (a.step op).bind fun a => Saved.run a ops

attribute [grind] Saved.run

/-- The run lemma: by induction on the calls, one `step_implements` each. -/
theorem run_implements : ∀ {ops : List Op} {c : Cpu} {a a' : Saved}, Implements c a →
    a.run ops = some a' → ∃ c', run c ops = .ok c' ∧ Implements c' a'
  | [], c, a, a', h, ha => by
    obtain rfl := (Option.some.inj ha).symm
    exact ⟨c, rfl, h⟩
  | op :: ops, c, a, a', h, ha => by
    simp only [Saved.run, Option.bind_eq_some_iff] at ha
    obtain ⟨a₁, ha₁, ha'⟩ := ha
    obtain ⟨c₁, hc₁, h₁⟩ := step_implements h ha₁
    obtain ⟨c', hc', h'⟩ := run_implements h₁ ha'
    refine ⟨c', ?_, h'⟩
    rw [run, hc₁]
    exact hc'

/-! ## Nested runs -/

theorem Saved.run_append (a : Saved) (ops ops' : List Op) :
    a.run (ops ++ ops') = (a.run ops).bind fun a => a.run ops' := by
  induction ops generalizing a with
  | nil => rfl
  | cons op ops ih =>
    simp only [List.cons_append, Saved.run]
    cases a.step op with
    | none => rfl
    | some a₁ => exact ih a₁

/-- A nested run is a run of the stack, which it leaves at its depth. -/
theorem Saved.run_of_nested : ∀ {d : Nat} {ops : List Op} {a : Saved}, Nested d ops →
    a.stack.length = d → ∃ a', a.run ops = some a' ∧ a'.stack.length = depth d ops
  | _, [], a, _, hd => ⟨a, rfl, hd⟩
  | d, .push_off :: ops, a, hn, hd => by
    obtain ⟨a', ha', hlen⟩ :=
      @Saved.run_of_nested (d + 1) ops ⟨false, a.sie :: a.stack⟩ hn (by simp [hd])
    exact ⟨a', by simp [Saved.run, Saved.step, ha'], hlen⟩
  | d, .pop_off :: ops, a, ⟨hpos, hn⟩, hd => by
    obtain ⟨b, s, hs⟩ : ∃ b s, a.stack = b :: s := List.exists_cons_of_ne_nil (by
      rintro h; rw [h] at hd; simp at hd; omega)
    obtain ⟨a', ha', hlen⟩ :=
      @Saved.run_of_nested (d - 1) ops ⟨b, s⟩ hn (by simp [hs] at hd; simp; omega)
    exact ⟨a', by simp [Saved.run, Saved.step, hs, ha'], hlen⟩
  | d, .intr_on :: ops, a, ⟨hzero, hn⟩, hd => by
    have hs : a.stack = [] := List.eq_nil_of_length_eq_zero (by omega)
    obtain ⟨a', ha', hlen⟩ := @Saved.run_of_nested d ops ⟨true, []⟩ hn (by simp; omega)
    exact ⟨a', by simp [Saved.run, Saved.step, hs, ha'], hlen⟩
  | d, .intr_off :: ops, a, hn, hd => by
    obtain ⟨a', ha', hlen⟩ := @Saved.run_of_nested d ops ⟨false, a.stack⟩ hn hd
    exact ⟨a', by simp [Saved.run, Saved.step, ha'], hlen⟩

/-- A CPU with no `push_off` outstanding implements the empty stack. -/
theorem implements_empty {c : Cpu} (h : c.noff = 0) : Implements c ⟨c.sie, []⟩ :=
  ⟨h, rfl, by simp, by simp [Saved.Ok]⟩

/-- On every nested run from a CPU with no `push_off` outstanding, no
`pop_off` panics, `noff` is the depth, and interrupts are off while it is
positive. -/
theorem run_nested {c : Cpu} {ops : List Op} (hc : c.noff = 0) (hn : Nested 0 ops) :
    ∃ c', run c ops = .ok c' ∧ c'.noff = depth 0 ops ∧ (0 < c'.noff → c'.sie = false) := by
  obtain ⟨a', ha', hlen⟩ := @Saved.run_of_nested 0 ops ⟨c.sie, []⟩ hn rfl
  obtain ⟨c', hc', h'⟩ := run_implements (implements_empty hc) ha'
  refine ⟨c', hc', by rw [h'.noff, hlen], fun hpos => ?_⟩
  have hs : a'.stack ≠ [] := by
    intro hs
    rw [h'.noff, hs] at hpos
    exact absurd hpos (by decide)
  rw [h'.sie]
  exact (h'.ok hs).1

/-- The calls inside an outermost pair leave the bottom of the stack
where it was: by induction on the calls, the bottom never moves. -/
theorem Saved.run_inside : ∀ {d : Nat} {ops : List Op} {a : Saved} {top : List Bool} {s : Bool},
    Inside d ops → a.stack = top ++ [s] → top.length + 1 = d →
      ∃ x, a.run ops = some ⟨x, [s]⟩
  | _, [], a, top, s, hd, hs, hlen => by
    have htop : top = [] := List.eq_nil_of_length_eq_zero (by simp [Inside] at hd; omega)
    subst htop
    refine ⟨a.sie, ?_⟩
    cases a
    simp_all [Saved.run]
  | d, .push_off :: ops, a, top, s, hn, hs, hlen => by
    obtain ⟨x, hx⟩ := @Saved.run_inside (d + 1) ops ⟨false, a.sie :: a.stack⟩ (a.sie :: top) s hn
      (by simp [hs]) (by simp; omega)
    exact ⟨x, by simp [Saved.run, Saved.step, hx]⟩
  | d, .pop_off :: ops, a, top, s, ⟨hgt, hn⟩, hs, hlen => by
    obtain ⟨b, top', rfl⟩ : ∃ b top', top = b :: top' :=
      List.exists_cons_of_ne_nil (by rintro rfl; simp at hlen; omega)
    obtain ⟨x, hx⟩ := @Saved.run_inside (d - 1) ops ⟨b, top' ++ [s]⟩ top' s hn rfl
      (by simp at hlen; omega)
    exact ⟨x, by simp [Saved.run, Saved.step, hs, hx]⟩
  | _, .intr_on :: _, _, _, _, hn, _, _ => hn.elim
  | d, .intr_off :: ops, a, top, s, hn, hs, hlen => by
    obtain ⟨x, hx⟩ := @Saved.run_inside d ops ⟨false, a.stack⟩ top s hn hs hlen
    exact ⟨x, by simp [Saved.run, Saved.step, hx]⟩

/-- The outermost `pop_off` restores the interrupt bit the outermost
`push_off` found, whatever the calls between them. -/
theorem run_outermost {c : Cpu} {ops : List Op} (hc : c.noff = 0) (hin : Inside 1 ops) :
    ∃ c', run c (.push_off :: ops ++ [.pop_off]) = .ok c' ∧ c'.noff = 0 ∧ c'.sie = c.sie := by
  obtain ⟨x, hx⟩ := @Saved.run_inside 1 ops ⟨false, [c.sie]⟩ [] c.sie hin rfl rfl
  have ha : Saved.run ⟨c.sie, []⟩ (.push_off :: ops ++ [.pop_off]) = some ⟨c.sie, []⟩ := by
    rw [List.cons_append, Saved.run, Saved.step, Option.bind_some, Saved.run_append, hx]
    rfl
  obtain ⟨c', hc', h'⟩ := run_implements (implements_empty hc) ha
  exact ⟨c', hc', by rw [h'.noff]; rfl, h'.sie⟩

/-! ## Spinlocks -/

/-- `acquire(lk)` on this CPU, which holds the locks `held`: `push_off`,
the check `holding(lk)`, and the lock taken. -/
def acquire (c : Cpu) (held : List Nat) (lk : Nat) : Except String (Cpu × List Nat) :=
  let c := push_off c
  if lk ∈ held then .error "acquire" else .ok (c, lk :: held)

/-- `release(lk)`: the check `holding(lk)`, the lock given back, and
`pop_off`. -/
def release (c : Cpu) (held : List Nat) (lk : Nat) : Except String (Cpu × List Nat) :=
  if lk ∉ held then .error "release"
  else (pop_off c).map fun c => (c, held.erase lk)

attribute [grind] acquire release

/-- A call of `acquire` or `release`. -/
inductive LockOp where
  | acquire (lk : Nat)
  | release (lk : Nat)
  deriving DecidableEq, Repr

/-- The calls of `ops`, first to last, stopping at a panic. -/
def runLocks (c : Cpu) (held : List Nat) : List LockOp → Except String (Cpu × List Nat)
  | [] => .ok (c, held)
  | .acquire lk :: ops => (acquire c held lk).bind fun r => runLocks r.1 r.2 ops
  | .release lk :: ops => (release c held lk).bind fun r => runLocks r.1 r.2 ops

/-- Every `acquire` is of a lock the CPU does not hold, every `release` of
one it holds. -/
def LockNested : List Nat → List LockOp → Prop
  | _, [] => True
  | held, .acquire lk :: ops => lk ∉ held ∧ LockNested (lk :: held) ops
  | held, .release lk :: ops => lk ∈ held ∧ LockNested (held.erase lk) ops

/-- The stack after `k` acquires from a CPU whose bit was `s`. -/
def frame (s : Bool) : Nat → Saved
  | 0 => ⟨s, []⟩
  | k + 1 => ⟨false, List.replicate k false ++ [s]⟩

attribute [grind] runLocks frame

theorem frame_push (s : Bool) (k : Nat) :
    (⟨false, (frame s k).sie :: (frame s k).stack⟩ : Saved) = frame s (k + 1) := by
  cases k <;> simp [frame, List.replicate_succ]

theorem frame_pop (s : Bool) (k : Nat) :
    ∃ b t, (frame s (k + 1)).stack = b :: t ∧ (⟨b, t⟩ : Saved) = frame s k := by
  cases k with
  | zero => exact ⟨s, [], rfl, rfl⟩
  | succ k => exact ⟨false, List.replicate k false ++ [s], by simp [frame, List.replicate_succ], rfl⟩

theorem frame_length (s : Bool) (k : Nat) : (frame s k).stack.length = k := by
  cases k <;> simp [frame]

/-- Over acquires and releases the CPU implements the stack of `frame`:
by induction on the calls, an `acquire` a `push_off`, a `release` a
`pop_off`. -/
theorem runLocks_implements {s : Bool} : ∀ {ops : List LockOp} {held : List Nat} {c : Cpu},
    LockNested held ops → Implements c (frame s held.length) →
      ∃ c' held', runLocks c held ops = .ok (c', held') ∧ Implements c' (frame s held'.length)
  | [], held, c, _, h => ⟨c, held, rfl, h⟩
  | .acquire lk :: ops, held, c, ⟨hlk, hn⟩, h => by
    have h₁ : Implements (push_off c) (frame s (lk :: held).length) := by
      rw [List.length_cons, ← frame_push]
      exact push_off_implements h
    obtain ⟨c', held', hrun, h'⟩ := runLocks_implements hn h₁
    refine ⟨c', held', ?_, h'⟩
    simp only [runLocks, acquire, if_neg hlk]
    exact hrun
  | .release lk :: ops, held, c, ⟨hlk, hn⟩, h => by
    obtain ⟨k, hk⟩ : ∃ k, held.length = k + 1 :=
      ⟨held.length - 1, by have := List.length_pos_of_mem hlk; omega⟩
    obtain ⟨b, t, hbt, hframe⟩ := frame_pop s k
    rw [hk] at h
    obtain ⟨hpop, h₁⟩ := pop_off_implements h hbt
    have hlen : (held.erase lk).length = k := by rw [List.length_erase_of_mem hlk, hk]; rfl
    rw [hframe, ← hlen] at h₁
    obtain ⟨c', held', hrun, h'⟩ := runLocks_implements hn h₁
    refine ⟨c', held', ?_, h'⟩
    simp only [runLocks, release, hlk, not_true_eq_false, if_false, hpop]
    exact hrun

/-- Over every sequence of acquires and releases from a CPU with no
`push_off` outstanding, `noff` counts the locks held, interrupts are off
while one is, and with none held the interrupt bit is the one at the
start. -/
theorem runLocks_restores {c : Cpu} {ops : List LockOp} (hc : c.noff = 0) (hn : LockNested [] ops) :
    ∃ c' held, runLocks c [] ops = .ok (c', held) ∧ c'.noff = held.length ∧
      (held ≠ [] → c'.sie = false) ∧ (held = [] → c'.sie = c.sie) := by
  obtain ⟨c', held, hrun, h'⟩ := @runLocks_implements c.sie ops [] c hn (implements_empty hc)
  refine ⟨c', held, hrun, by rw [h'.noff, frame_length], fun hne => ?_, fun hnil => ?_⟩
  · obtain ⟨k, hk⟩ : ∃ k, held.length = k + 1 :=
      ⟨held.length - 1, by have := List.length_pos_of_ne_nil hne; omega⟩
    rw [h'.sie, hk]
    rfl
  · rw [h'.sie, hnil]
    rfl

/-! ## Context switches

`sched()` gives the CPU from a process to the scheduler, with `noff = 1`
and interrupts off, and keeps `intena` across the switch, "because intena
is a property of this kernel thread, not this CPU".  The scheduler's own
`swtch` to a process keeps nothing: the process puts its `intena` back
when its `swtch` returns in `sched()`. -/

/-- One CPU and the kernel threads that take turns on it: the `intena`
each process saved in `sched()`, and the process running (`none`: the
scheduler). -/
structure Threads where
  cpu : Cpu
  saved : Nat → Bool
  running : Option Nat

/-- What happens on the CPU: a call of the thread running, a process's
`sched()`, or the scheduler's `swtch` to process `p`. -/
inductive Event where
  | call (op : Op)
  | sched
  | swtch (p : Nat)

/-- One event; `none` is a panic, or an event the code does not make:
`sched()` is called by a process, and only the scheduler switches to one. -/
def Threads.step (T : Threads) : Event → Option Threads
  | .call op => match Spinlock.step T.cpu op with
    | .ok c => some { T with cpu := c }
    | .error _ => none
  | .sched => match T.running with
    | none => none
    | some p =>
      -- the checks of `sched()` on the CPU, then `intena = mycpu()->intena`
      if T.cpu.noff ≠ 1 ∨ T.cpu.sie = true then none
      else some { T with saved := Function.update T.saved p T.cpu.intena, running := none }
  | .swtch p => match T.running with
    | some _ => none
    -- `p`'s `swtch` returns in `sched()`: `mycpu()->intena = intena`
    | none => some { T with cpu := { T.cpu with intena := T.saved p }, running := some p }

/-- The events of `es`, first to last. -/
def Threads.run (T : Threads) : List Event → Option Threads
  | [] => some T
  | e :: es => (T.step e).bind fun T => Threads.run T es

theorem Threads.run_append (T : Threads) (es es' : List Event) :
    T.run (es ++ es') = (T.run es).bind fun T => T.run es' := by
  induction es generalizing T with
  | nil => rfl
  | cons e es ih =>
    simp only [List.cons_append, Threads.run]
    cases T.step e with
    | none => rfl
    | some T₁ => exact ih T₁

/-- The calls of the thread running act on the CPU alone. -/
theorem Threads.run_calls : ∀ {ops : List Op} {T : Threads} {c : Cpu}, Spinlock.run T.cpu ops = .ok c →
    T.run (ops.map .call) = some { T with cpu := c }
  | [], T, c, h => by
    obtain rfl : T.cpu = c := Except.ok.inj h
    rfl
  | op :: ops, T, c, h => by
    cases hs : Spinlock.step T.cpu op with
    | error e => rw [Spinlock.run, hs] at h; cases h
    | ok c₁ =>
      rw [Spinlock.run, hs] at h
      simp only [List.map_cons, Threads.run, Threads.step, hs, Option.bind_some]
      exact Threads.run_calls (T := { T with cpu := c₁ }) h

/-- The outermost `pop_off` leaves the interrupt bit `intena`. -/
theorem pop_off_outermost {c : Cpu} (hn : c.noff = 1) (hs : c.sie = false) :
    pop_off c = .ok { c with noff := 0, sie := c.intena } := by
  cases hi : c.intena <;> simp [pop_off, hn, hs, hi]

/-- Across a switch the law holds for the process: its outermost
`push_off` sets `intena` to the bit it found and `sched()` saves it; the
scheduler's calls leave one `push_off` outstanding (its `acquire` of the
process's lock) before it switches back, and `sched()` restores the bit;
so the process's outermost `pop_off` restores the bit it found. -/
theorem sched_restores {T : Threads} {p : Nat} {ops : List Op} (hp : T.running = some p)
    (hc : T.cpu.noff = 0) (hn : Nested 1 ops) (hd : depth 1 ops = 1) :
    ∃ T', T.run ([.call .push_off, .sched] ++ ops.map .call ++ [.swtch p, .call .pop_off]) =
      some T' ∧ T'.cpu.noff = 0 ∧ T'.cpu.sie = T.cpu.sie := by
  -- the process's `push_off` puts the bit it found at the bottom of the stack
  have h₁ : Implements (push_off T.cpu) ⟨false, [T.cpu.sie]⟩ :=
    push_off_implements (implements_empty hc)
  have hsched : T.run [.call .push_off, .sched] =
      some { cpu := push_off T.cpu, saved := Function.update T.saved p T.cpu.sie, running := none } := by
    simp [Threads.run, Threads.step, step, hp, push_off, hc]
  -- the scheduler's calls end with one `push_off` outstanding, interrupts off
  obtain ⟨a', ha', hlen⟩ := @Saved.run_of_nested 1 ops ⟨false, [T.cpu.sie]⟩ hn rfl
  obtain ⟨c', hrun, h'⟩ := run_implements h₁ ha'
  have hn' : c'.noff = 1 := by rw [h'.noff, hlen, hd]
  have hs' : c'.sie = false := by
    rw [h'.sie]
    refine (h'.ok fun hnil => ?_).1
    rw [hnil, hd] at hlen
    exact absurd hlen (by decide)
  -- `swtch` to the process restores the saved bit, and its `pop_off` leaves it
  have hpop := @pop_off_outermost { c' with intena := T.cpu.sie } hn' hs'
  refine ⟨⟨{ c' with intena := T.cpu.sie, noff := 0, sie := T.cpu.sie },
    Function.update T.saved p T.cpu.sie, some p⟩, ?_, rfl, rfl⟩
  rw [Threads.run_append, Threads.run_append, hsched, Option.bind_some, Threads.run_calls hrun,
    Option.bind_some]
  simp [Threads.run, Threads.step, step, hpop]

/-- The law of one CPU fails across a switch.  A process yields from
`kerneltrap`, where the trap has turned interrupts off, so its `sched()`
saves `intena = 0`; the scheduler releases the process's lock, turns
interrupts on, acquires the lock again (an outermost `push_off` that finds
interrupts on) and switches back; `sched()` restores `0`, and the
process's `release`, the outermost `pop_off`, leaves interrupts off. -/
theorem sched_outermost_keeps_off :
    ∃ T₁ T₂, Threads.run ⟨⟨true, 0, false⟩, fun _ => false, some 1⟩
        [.call .intr_off, .call .push_off, .sched, .call .pop_off, .call .intr_on] = some T₁ ∧
      T₁.cpu.noff = 0 ∧ T₁.cpu.sie = true ∧
      T₁.run [.call .push_off, .swtch 1, .call .pop_off] = some T₂ ∧
      T₂.cpu.noff = 0 ∧ T₂.cpu.sie = false :=
  ⟨_, _, rfl, rfl, rfl, rfl, rfl, rfl⟩

/-- The interrupt-nesting discipline: on a nested run `noff` is the depth
and interrupts are off while it is positive; the outermost `pop_off`
restores the bit the outermost `push_off` found; acquires and releases
leave the bit as they found it whenever no lock is held; and across a
switch a process's outermost `pop_off` restores the bit its own outermost
`push_off` found. -/
theorem interrupts_nest :
    (∀ (c : Cpu) (ops : List Op), c.noff = 0 → Nested 0 ops →
      ∃ c', run c ops = .ok c' ∧ c'.noff = depth 0 ops ∧ (0 < c'.noff → c'.sie = false)) ∧
    (∀ (c : Cpu) (ops : List Op), c.noff = 0 → Inside 1 ops →
      ∃ c', run c (.push_off :: ops ++ [.pop_off]) = .ok c' ∧ c'.noff = 0 ∧ c'.sie = c.sie) ∧
    (∀ (c : Cpu) (ops : List LockOp), c.noff = 0 → LockNested [] ops →
      ∃ c' held, runLocks c [] ops = .ok (c', held) ∧ c'.noff = held.length ∧
        (held ≠ [] → c'.sie = false) ∧ (held = [] → c'.sie = c.sie)) ∧
    (∀ (T : Threads) (p : Nat) (ops : List Op), T.running = some p → T.cpu.noff = 0 →
      Nested 1 ops → depth 1 ops = 1 →
      ∃ T', T.run ([.call .push_off, .sched] ++ ops.map .call ++ [.swtch p, .call .pop_off]) =
        some T' ∧ T'.cpu.noff = 0 ∧ T'.cpu.sie = T.cpu.sie) :=
  ⟨fun _ _ => run_nested, fun _ _ => run_outermost, fun _ _ => runLocks_restores,
    fun _ _ _ => sched_restores⟩

/-- Two `push_off`s undone by two `pop_off`s leave interrupts on, and a
process that found them on and yields finds them on again after the
scheduler's round: it releases the lock, turns interrupts on and takes
the lock back before it switches. -/
theorem interrupts_nest_yield :
    (∃ c', run ⟨true, 0, false⟩ [.push_off, .push_off, .pop_off, .pop_off] = .ok c' ∧
      c'.noff = 0 ∧ c'.sie = true) ∧
    (∃ T', Threads.run ⟨⟨true, 0, false⟩, fun _ => false, some 1⟩
        ([.call .push_off, .sched] ++ [Op.pop_off, .intr_on, .push_off].map .call ++
          [.swtch 1, .call .pop_off]) = some T' ∧ T'.cpu.noff = 0 ∧ T'.cpu.sie = true) :=
  ⟨interrupts_nest.2.1 ⟨true, 0, false⟩ [.push_off, .pop_off] rfl ⟨by decide, rfl⟩,
    interrupts_nest.2.2.2 ⟨⟨true, 0, false⟩, fun _ => false, some 1⟩ 1 [.pop_off, .intr_on, .push_off]
      rfl rfl ⟨by decide, rfl, trivial⟩ rfl⟩

end Spinlock

end Xv6
