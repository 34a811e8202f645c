/-
# `Xv6.Kernel.Proc` — the process table of `kernel/proc.c`

The table `proc[NPROC]`, the counter `nextpid` and the pointer `initproc`,
with the functions of `proc.c` that allocate, free, kill and reap slots.
Everything is at the granularity of one system call: a call runs to its end
before another process takes a step.  That is sound for the process table
because every function modelled here holds the locks it needs for all of
its effect, or (fork) touches a slot no one else can see until it is made
`RUNNABLE` at the end.  What happens *inside* a call (the scheduler,
`sleep`, `swtch`) is not visible at this level: a process that can run is
`RUNNABLE`, and a call that would sleep simply has not returned yet.

**Not modelled here.**  The memory a process owns (`sz`, `pagetable`,
`trapframe`, `kstack`, `context`) and the files it holds (`ofile`, `cwd`)
belong to the layers below; where a function of this module allocates
memory, whether `kalloc` delivered is an argument.  `chan` is only read by
`wakeup`, which can find no `SLEEPING` process at this granularity.

**Proved here.**  One lemma per function saying which slots it changes and
how (`freeproc_proc`, `allocproc_spec`, `fork_proc`, `kill_proc`,
`exit_proc`, `wait_spec`), so that later modules never unfold a function of
this one.
-/
import Xv6.Kernel.Param
import Mathlib.Data.List.FinRange
import Mathlib.Logic.Function.Basic

namespace Xv6

/-- Slot numbers are written as numerals. -/
instance : NeZero NPROC := ⟨by decide⟩

/-- `enum procstate`. -/
inductive Procstate where
  | UNUSED | USED | SLEEPING | RUNNABLE | RUNNING | ZOMBIE
  deriving DecidableEq, Repr

/-- `struct proc`, the fields the process table's functions read and write.
`int` fields are `Int32`; `name` is the `char[16]` without its NUL. -/
structure Proc where
  state : Procstate
  killed : Bool
  xstate : Int32
  pid : Int32
  parent : Option (Fin NPROC)
  name : List Char
  trace_mask : Int32
  deriving DecidableEq, Repr

/-- A slot as the zero-filled BSS leaves it before `procinit`. -/
def Proc.zero : Proc where
  state := .UNUSED
  killed := false
  xstate := 0
  pid := 0
  parent := none
  name := []
  trace_mask := 0

attribute [grind] Proc.zero

/-- The globals of `proc.c`: `proc[NPROC]`, `nextpid` and `initproc`. -/
structure Kernel where
  proc : Fin NPROC → Proc
  nextpid : Int32
  initproc : Option (Fin NPROC)

namespace Kernel

/-- The kernel before `userinit`: every slot zero, `nextpid = 1`. -/
def zero : Kernel where
  proc := fun _ => Proc.zero
  nextpid := 1
  initproc := none

/-- Overwrite slot `i`. -/
def setProc (s : Kernel) (i : Fin NPROC) (q : Proc) : Kernel :=
  { s with proc := Function.update s.proc i q }

attribute [grind] zero setProc

@[simp] theorem setProc_proc_self (s : Kernel) (i : Fin NPROC) (q : Proc) :
    (s.setProc i q).proc i = q := by
  simp [setProc]

@[simp] theorem setProc_proc_of_ne (s : Kernel) {i j : Fin NPROC} (q : Proc) (h : j ≠ i) :
    (s.setProc i q).proc j = s.proc j := by
  simp [setProc, Function.update_of_ne h]

@[simp] theorem setProc_nextpid (s : Kernel) (i : Fin NPROC) (q : Proc) :
    (s.setProc i q).nextpid = s.nextpid := rfl

@[simp] theorem setProc_initproc (s : Kernel) (i : Fin NPROC) (q : Proc) :
    (s.setProc i q).initproc = s.initproc := rfl

@[simp] theorem setProc_setProc (s : Kernel) (i : Fin NPROC) (q q' : Proc) :
    (s.setProc i q).setProc i q' = s.setProc i q' := by
  simp [setProc]

theorem setProc_proc (s : Kernel) (i j : Fin NPROC) (q : Proc) :
    (s.setProc i q).proc j = if j = i then q else s.proc j := by
  by_cases h : j = i
  · subst h; simp
  · simp [h]

end Kernel

/-! ## Allocation and release of a slot -/

section Alloc

variable (s : Kernel)

/-- `allocpid`: hand out `nextpid` and advance it (an `int`, so it wraps). -/
def allocpid : Int32 × Kernel :=
  (s.nextpid, { s with nextpid := s.nextpid + 1 })

/-- The slot `allocproc`'s loop stops at: the first `UNUSED` one. -/
def unusedSlot : Option (Fin NPROC) :=
  (List.finRange NPROC).find? fun i => (s.proc i).state == .UNUSED

/-- `freeproc`: clear the fields it clears and mark the slot `UNUSED`.
`trace_mask` is not among them. -/
def freeproc (i : Fin NPROC) : Kernel :=
  s.setProc i { s.proc i with
    pid := 0, parent := none, name := [], killed := false, xstate := 0, state := .UNUSED }

/-- `allocproc`.  `ok` is whether `kalloc` supplied the trapframe and the
pages `proc_pagetable` asks for; if not, the slot goes back through
`freeproc`.  Note what is *not* reset: `killed`, `trace_mask`, `name`. -/
def allocproc (ok : Bool) : Option (Fin NPROC) × Kernel :=
  match unusedSlot s with
  | none => (none, s)
  | some i =>
      let (pid, s) := allocpid s
      let s := s.setProc i { s.proc i with pid := pid, state := .USED }
      if ok then (some i, s) else (none, freeproc s i)

attribute [grind] allocpid freeproc allocproc

end Alloc

@[simp] theorem allocpid_proc (s : Kernel) : (allocpid s).2.proc = s.proc := rfl

@[simp] theorem allocpid_initproc (s : Kernel) : (allocpid s).2.initproc = s.initproc := rfl

@[simp] theorem allocpid_nextpid (s : Kernel) : (allocpid s).2.nextpid = s.nextpid + 1 := rfl

@[simp] theorem freeproc_proc (s : Kernel) (i j : Fin NPROC) :
    (freeproc s i).proc j = if j = i then { s.proc i with
      pid := 0, parent := none, name := [], killed := false, xstate := 0,
      state := .UNUSED } else s.proc j := by
  simp [freeproc, Kernel.setProc_proc]

@[simp] theorem freeproc_initproc (s : Kernel) (i : Fin NPROC) :
    (freeproc s i).initproc = s.initproc := rfl

theorem unusedSlot_spec {s : Kernel} {i : Fin NPROC} (h : unusedSlot s = some i) :
    (s.proc i).state = .UNUSED := by
  have := List.find?_some h
  simpa using this

theorem unusedSlot_none {s : Kernel} (h : unusedSlot s = none) (i : Fin NPROC) :
    (s.proc i).state ≠ .UNUSED := by
  have := List.find?_eq_none.mp h i (List.mem_finRange i)
  simpa using this

/-- What `allocproc` does, without unfolding it: either nothing but a
`nextpid` bump, or slot `unusedSlot s` becomes `USED` with a fresh pid. -/
theorem allocproc_spec (s : Kernel) (ok : Bool) :
    (allocproc s ok = (none, s) ∧ unusedSlot s = none) ∨
    (∃ i, unusedSlot s = some i ∧ ok = false ∧
      allocproc s ok = (none, freeproc
        ((allocpid s).2.setProc i { s.proc i with pid := s.nextpid, state := .USED }) i)) ∨
    (∃ i, unusedSlot s = some i ∧ ok = true ∧
      allocproc s ok = (some i,
        (allocpid s).2.setProc i { s.proc i with pid := s.nextpid, state := .USED })) := by
  unfold allocproc
  cases hu : unusedSlot s with
  | none => exact Or.inl ⟨rfl, rfl⟩
  | some i =>
      cases ok with
      | false => exact Or.inr (Or.inl ⟨i, rfl, rfl, rfl⟩)
      | true => exact Or.inr (Or.inr ⟨i, rfl, rfl, rfl⟩)

/-! ## The functions of `proc.c` that a system call runs -/

section Calls

variable (s : Kernel)

/-- `fork`.  `alloc_ok` is whether `allocproc`'s allocations succeed,
`copy_ok` whether `uvmcopy` does.  The child's fields are written while it
is still `USED`, so no one sees the slot between `allocproc` and the end;
the mask is copied only on the success path. -/
def fork (p : Fin NPROC) (alloc_ok copy_ok : Bool) : Int32 × Kernel :=
  match allocproc s alloc_ok with
  | (none, s) => (-1, s)
  | (some np, s) =>
      if copy_ok then
        let q := s.proc np
        (q.pid, s.setProc np { q with
          trace_mask := (s.proc p).trace_mask, name := (s.proc p).name,
          parent := some p, state := .RUNNABLE })
      else (-1, freeproc s np)

/-- `reparent`: give every child of `p` to `initproc`. -/
def reparent (p : Fin NPROC) : Kernel :=
  { s with proc := fun j =>
      if (s.proc j).parent = some p then { s.proc j with parent := s.initproc } else s.proc j }

/-- `exit`, up to the `sched` that never returns.  `none` is the
`panic("init exiting")`.  Closing files and dropping `cwd` touch only the
layers below. -/
def exit (p : Fin NPROC) (status : Int32) : Option Kernel :=
  if s.initproc = some p then none
  else
    let s := reparent s p
    some (s.setProc p { s.proc p with xstate := status, state := .ZOMBIE })

/-- The child `wait`'s scan stops at: the first `ZOMBIE` whose parent is `p`. -/
def zombieChild (p : Fin NPROC) : Option (Fin NPROC) :=
  (List.finRange NPROC).find? fun i =>
    (s.proc i).parent == some p && (s.proc i).state == .ZOMBIE

/-- `havekids` after a full scan. -/
def havekids (p : Fin NPROC) : Bool :=
  (List.finRange NPROC).any fun i => (s.proc i).parent == some p

/-- `wait(addr)`.  `copy_ok` is whether `copyout` of the exit status to
`addr` succeeds.  `none` is the `sleep`: the call has not returned. -/
def wait (p : Fin NPROC) (addr : UInt64) (copy_ok : Bool) : Option (Int32 × Kernel) :=
  match zombieChild s p with
  | some pp =>
      if addr ≠ 0 ∧ copy_ok = false then some (-1, s)
      else some ((s.proc pp).pid, freeproc s pp)
  | none => if havekids s p = false ∨ (s.proc p).killed then some (-1, s) else none

/-- The slot `kill`'s scan stops at: the first whose `pid` matches, in
whatever state. -/
def pidSlot (pid : Int32) : Option (Fin NPROC) :=
  (List.finRange NPROC).find? fun i => (s.proc i).pid == pid

/-- `kill(pid)`. -/
def kill (pid : Int32) : Int32 × Kernel :=
  match pidSlot s pid with
  | none => (-1, s)
  | some i =>
      let q := s.proc i
      (0, s.setProc i { q with
        killed := true, state := if q.state = .SLEEPING then .RUNNABLE else q.state })

/-- `setkilled`. -/
def setkilled (p : Fin NPROC) : Kernel :=
  s.setProc p { s.proc p with killed := true }

/-- `getnproc`: the slots that are not `UNUSED`. -/
def getnproc : Nat :=
  (List.finRange NPROC).countP fun i => (s.proc i).state != .UNUSED

/-- `userinit`: the first process, in the slot `allocproc` finds.  Memory
is plentiful at boot, so the allocation is taken to succeed. -/
def userinit : Kernel :=
  match allocproc s true with
  | (some p, s) =>
      { s.setProc p { s.proc p with name := "initcode".toList, state := .RUNNABLE } with
        initproc := some p }
  | (none, s) => s

attribute [grind] zombieChild havekids wait setkilled userinit

end Calls

/-! ## What each call does, slot by slot

These are the only facts about the functions above that later modules use:
each says in which shapes a call can end, with its guard. -/

@[simp] theorem reparent_proc (s : Kernel) (p j : Fin NPROC) :
    (reparent s p).proc j =
      if (s.proc j).parent = some p then { s.proc j with parent := s.initproc } else s.proc j :=
  rfl

@[simp] theorem reparent_initproc (s : Kernel) (p : Fin NPROC) :
    (reparent s p).initproc = s.initproc := rfl

@[simp] theorem reparent_nextpid (s : Kernel) (p : Fin NPROC) :
    (reparent s p).nextpid = s.nextpid := rfl

theorem exit_eq (s : Kernel) (p : Fin NPROC) (status : Int32) :
    exit s p status = if s.initproc = some p then none
      else some ((reparent s p).setProc p
        { (reparent s p).proc p with xstate := status, state := .ZOMBIE }) :=
  rfl

/-- `fork` ends in one of three ways: no free slot; a free slot that goes
back through `freeproc` because an allocation failed; or a child in the
first free slot. -/
theorem fork_spec (s : Kernel) (p : Fin NPROC) (a c : Bool)
    (hp : (s.proc p).state ≠ .UNUSED) :
    (unusedSlot s = none ∧ fork s p a c = (-1, s)) ∨
    (∃ i, unusedSlot s = some i ∧ (a && c) = false ∧
      fork s p a c = (-1, freeproc
        ((allocpid s).2.setProc i { s.proc i with pid := s.nextpid, state := .USED }) i)) ∨
    (∃ i, unusedSlot s = some i ∧ a = true ∧ c = true ∧
      fork s p a c = (s.nextpid, (allocpid s).2.setProc i { s.proc i with
        pid := s.nextpid, state := .RUNNABLE, trace_mask := (s.proc p).trace_mask,
        name := (s.proc p).name, parent := some p })) := by
  unfold fork
  rcases allocproc_spec s a with ⟨ha, hu⟩ | ⟨i, hu, rfl, ha⟩ | ⟨i, hu, rfl, ha⟩
  · exact Or.inl ⟨hu, by rw [ha]⟩
  · exact Or.inr (Or.inl ⟨i, hu, rfl, by rw [ha]⟩)
  · have hpi : p ≠ i := fun h => hp (h ▸ unusedSlot_spec hu)
    rw [ha]
    cases c with
    | false => exact Or.inr (Or.inl ⟨i, hu, rfl, rfl⟩)
    | true =>
        refine Or.inr (Or.inr ⟨i, hu, rfl, rfl, ?_⟩)
        simp [allocpid, Kernel.setProc, Function.update_of_ne hpi]

/-- `kill` either finds no slot with that pid, or marks the first one. -/
theorem kill_spec (s : Kernel) (pid : Int32) :
    (pidSlot s pid = none ∧ kill s pid = (-1, s)) ∨
    (∃ i, pidSlot s pid = some i ∧ kill s pid = (0, s.setProc i { s.proc i with
      killed := true,
      state := if (s.proc i).state = .SLEEPING then .RUNNABLE else (s.proc i).state })) := by
  unfold kill
  cases h : pidSlot s pid with
  | none => exact Or.inl ⟨rfl, rfl⟩
  | some i => exact Or.inr ⟨i, rfl, rfl⟩

theorem pidSlot_spec {s : Kernel} {pid : Int32} {i : Fin NPROC} (h : pidSlot s pid = some i) :
    (s.proc i).pid = pid := by
  have := List.find?_some h
  simpa using this

theorem zombieChild_spec {s : Kernel} {p i : Fin NPROC} (h : zombieChild s p = some i) :
    (s.proc i).parent = some p ∧ (s.proc i).state = .ZOMBIE := by
  have := List.find?_some h
  simpa using this

/-- `wait` either returns without touching the table, reaps the first
zombie child, or has not returned. -/
theorem wait_spec (s : Kernel) (p : Fin NPROC) (addr : UInt64) (copy_ok : Bool) :
    wait s p addr copy_ok = some (-1, s) ∨
    (∃ i, zombieChild s p = some i ∧
      wait s p addr copy_ok = some ((s.proc i).pid, freeproc s i)) ∨
    wait s p addr copy_ok = none := by
  unfold wait
  cases h : zombieChild s p with
  | some i =>
      by_cases hc : addr ≠ 0 ∧ copy_ok = false
      · exact Or.inl (by simp only [if_pos hc])
      · exact Or.inr (Or.inl ⟨i, rfl, by simp only [if_neg hc]⟩)
  | none =>
      by_cases hk : havekids s p = false ∨ (s.proc p).killed
      · exact Or.inl (by simp only [if_pos hk])
      · exact Or.inr (Or.inr (by simp only [if_neg hk]))

end Xv6
