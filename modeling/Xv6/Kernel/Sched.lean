/-
# `Xv6.Kernel.Sched` — process states and CPUs under every interleaving

`Xv6.Kernel.Proc` runs a system call to its end before another process
moves, which hides the scheduler: there a process that can run is
`RUNNABLE` and nothing is `RUNNING`.  Here the `NCPU` CPUs are explicit.
A CPU runs `scheduler()` while `c->proc` is `0`, and otherwise the process
`c->proc` in the kernel.  A step is one stretch of code between the points
where it takes and drops the locks it needs:

    scheduler   one turn of `scheduler()`'s loop at its slot `p`: if `p` is
                `RUNNABLE`, `p->state = RUNNING; c->proc = p` and the `swtch`
    yield, sleep, exit
                the process gives the CPU back: its new state, then the rest
                of the scheduler's turn once `swtch` returns there,
                `c->proc = 0` and on to the next slot
    wakeup      one turn of `wakeup()`'s loop, at one slot
    kill, wait  `kill()`, and `wait()` where it reaps or returns (where it
                sleeps, that is a `sleep` step)
    forkAlloc   `fork()` up to `release(&np->lock)`: `allocproc`, `uvmcopy`
                and the copies, or the slot freed again
    forkRun     the rest of `fork()`: `np->parent = p`, then
                `np->state = RUNNABLE`; nothing reads the child's state
                between the two, so they are one step

`p->lock` is held across `swtch` in both directions, so between two steps
no CPU is inside `swtch`.  The running process may take any of its steps at
any time: the runs here contain every order in which kernel code calls
these functions, and more, so what holds of them holds of the kernel.

**Proved.**

    fork_steps       the steps `forkAlloc` then `forkRun` do what `Proc.fork`
                     does at once
    schedStep_legal  a step changes the state of a slot only along an arrow
                     of the state machine, and each arrow only by its step
    SchedInv         a process is `RUNNING` iff a CPU runs it, and no two CPUs
                     run the same process
    proc_state_machine
                     both, over every run from boot
-/
import Xv6.Kernel.Tree

namespace Xv6

instance : NeZero NCPU := ⟨by decide⟩

/-! ## The CPUs and the steps -/

/-- `struct cpu`, with the position of its `scheduler()` loop. -/
structure Cpu where
  /-- `c->proc` -/
  proc : Option (Fin NPROC)
  /-- the slot `p` that `scheduler()`'s loop is at -/
  next : Fin NPROC

/-- The scheduler's turn after `swtch` returns to it: `c->proc = 0`, and
its loop moves on to the next slot. -/
def Cpu.release (x : Cpu) : Cpu := ⟨none, x.next + 1⟩

attribute [grind] Cpu.release

/-- The process table, each slot's `chan`, the CPUs, and for each process
in the middle of a `fork` the child it is creating. -/
structure Sched where
  k : Kernel
  chan : Fin NPROC → Nat
  cpu : Fin NCPU → Cpu
  forking : Fin NPROC → Option (Fin NPROC)

namespace Sched

def setCpu (S : Sched) (c : Fin NCPU) (x : Cpu) : Sched := { S with cpu := Function.update S.cpu c x }

def setState (S : Sched) (p : Fin NPROC) (st : Procstate) : Sched :=
  { S with k := S.k.setProc p { S.k.proc p with state := st } }

/-- Every CPU in its scheduler, at slot `0`, after `userinit`. -/
def boot : Sched := ⟨Kernel.boot, fun _ => 0, fun _ => ⟨none, 0⟩, fun _ => none⟩

attribute [grind] setState

end Sched

/-- `fork()` up to `release(&np->lock)`: the child `USED` with the parent's
mask and name, or, when `kalloc` or `uvmcopy` fails, the slot freed again. -/
def forkAlloc (s : Kernel) (p : Fin NPROC) (alloc_ok copy_ok : Bool) : Option (Fin NPROC) × Kernel :=
  match allocproc s alloc_ok with
  | (none, s) => (none, s)
  | (some np, s) =>
      if copy_ok then
        (some np, s.setProc np { s.proc np with
          trace_mask := (s.proc p).trace_mask, name := (s.proc p).name })
      else (none, freeproc s np)

/-- The rest of `fork()`. -/
def forkRun (s : Kernel) (p np : Fin NPROC) : Kernel :=
  let s := s.setProc np { s.proc np with parent := some p }
  s.setProc np { s.proc np with state := .RUNNABLE }

attribute [grind] forkRun

/-- A step of CPU `c`: of its scheduler, or of the process it runs. -/
inductive SchedEvent
  | scheduler (c : Fin NCPU)
  | yield (c : Fin NCPU)
  | sleep (c : Fin NCPU) (chan : Nat)
  | wakeup (c : Fin NCPU) (chan : Nat) (q : Fin NPROC)
  | kill (c : Fin NCPU) (pid : Int32)
  | exit (c : Fin NCPU) (status : Int32)
  | wait (c : Fin NCPU) (addr : UInt64) (copy_ok : Bool)
  | forkAlloc (c : Fin NCPU) (alloc_ok copy_ok : Bool)
  | forkRun (c : Fin NCPU)

/-- One step.  A process's step needs the CPU to run it; `none` is also
`panic("init exiting")` and a `wait` that sleeps. -/
def schedStep (S : Sched) : SchedEvent → Option (Sched × Unit)
  | .scheduler c =>
      match (S.cpu c).proc with
      | some _ => none
      | none =>
          let p := (S.cpu c).next
          if (S.k.proc p).state = .RUNNABLE then some ((S.setState p .RUNNING).setCpu c ⟨some p, p⟩, ())
          else some (S.setCpu c ⟨none, p + 1⟩, ())
  | .yield c => (S.cpu c).proc.map fun p => ((S.setState p .RUNNABLE).setCpu c (S.cpu c).release, ())
  | .sleep c chan => (S.cpu c).proc.map fun p =>
      ({ S.setState p .SLEEPING with chan := Function.update S.chan p chan }.setCpu c (S.cpu c).release, ())
  | .wakeup c chan q =>
      -- `p != myproc()`, then under `p->lock`
      if (S.cpu c).proc ≠ some q ∧ (S.k.proc q).state = .SLEEPING ∧ S.chan q = chan then
        some (S.setState q .RUNNABLE, ())
      else some (S, ())
  | .kill c pid => (S.cpu c).proc.map fun _ => ({ S with k := (kill S.k pid).2 }, ())
  | .exit c status => (S.cpu c).proc.bind fun p =>
      (exit S.k p status).map fun k => ({ S with k := k }.setCpu c (S.cpu c).release, ())
  | .wait c addr copy_ok => (S.cpu c).proc.bind fun p =>
      (wait S.k p addr copy_ok).map fun r => ({ S with k := r.2 }, ())
  | .forkAlloc c alloc_ok copy_ok => (S.cpu c).proc.bind fun p =>
      if (S.forking p).isSome then none
      else
        let r := forkAlloc S.k p alloc_ok copy_ok
        some ({ S with k := r.2, forking := Function.update S.forking p r.1 }, ())
  | .forkRun c => (S.cpu c).proc.bind fun p => (S.forking p).map fun np =>
      ({ S with k := forkRun S.k p np, forking := Function.update S.forking p none }, ())

attribute [grind] schedStep

/-- `Proc.fork`, which runs `fork()` at once, is `forkAlloc` and then
`forkRun`. -/
theorem fork_eq (s : Kernel) (p : Fin NPROC) (a c : Bool) :
    fork s p a c = match forkAlloc s p a c with
      | (none, s') => (-1, s')
      | (some np, s') => ((s'.proc np).pid, forkRun s' p np) := by
  unfold fork forkAlloc
  -- the two failures close by `rw`; with a slot, the copies then the tail
  rcases allocproc_spec s a with ⟨ha, -⟩ | ⟨i, -, -, ha⟩ | ⟨i, -, -, ha⟩ <;> rw [ha]
  cases c with
  | false => rfl
  | true => simp [forkRun]

/-- The two steps of `fork()` on a CPU that runs `p` do what `Proc.fork`
does at once: where `forkAlloc` makes no child, the table it leaves is
the one `Proc.fork` leaves; where it makes one, the table `forkRun` then
leaves is, and `Proc.fork` returns that child's pid. -/
theorem fork_steps {S : Sched} {c : Fin NCPU} {p : Fin NPROC} {a b : Bool}
    (hc : (S.cpu c).proc = some p) (hf : S.forking p = none) :
    ∃ S₁, schedStep S (.forkAlloc c a b) = some (S₁, ()) ∧
      (S₁.forking p = none → S₁.k = (fork S.k p a b).2) ∧
      ∀ np, S₁.forking p = some np → (fork S.k p a b).1 = (S₁.k.proc np).pid ∧
        ∃ S₂, schedStep S₁ (.forkRun c) = some (S₂, ()) ∧ S₂.k = (fork S.k p a b).2 := by
  refine ⟨{ S with
      k := (forkAlloc S.k p a b).2
      forking := Function.update S.forking p (forkAlloc S.k p a b).1 }, by simp [schedStep, hc, hf], ?_⟩
  rw [fork_eq]
  -- the two steps share the table `forkAlloc` leaves; they differ in the child
  rcases hfa : forkAlloc S.k p a b with ⟨_ | np, s'⟩
  · exact ⟨fun _ => rfl, fun np h => by simp at h⟩
  · refine ⟨fun h => by simp at h, fun np' h => ?_⟩
    obtain rfl : np = np' := by simpa using h
    refine ⟨rfl, { S with
      k := forkRun s' p np
      forking := Function.update (Function.update S.forking p (some np)) p none }, ?_, rfl⟩
    simp [schedStep, hc]

/-! ## What each step does to the states -/

section States

variable {s s' : Kernel} {p np j : Fin NPROC}

@[simp] theorem Sched.setState_state (S : Sched) (p j : Fin NPROC) (st : Procstate) :
    ((S.setState p st).k.proc j).state = if j = p then st else (S.k.proc j).state := by
  by_cases h : j = p
  · subst h
    simp [Sched.setState]
  · simp [Sched.setState, h]

@[simp] theorem Sched.setState_cpu (S : Sched) (p : Fin NPROC) (st : Procstate) :
    (S.setState p st).cpu = S.cpu := rfl

@[simp] theorem Sched.setState_forking (S : Sched) (p : Fin NPROC) (st : Procstate) :
    (S.setState p st).forking = S.forking := rfl

@[simp] theorem Sched.setCpu_k (S : Sched) (c : Fin NCPU) (x : Cpu) : (S.setCpu c x).k = S.k := rfl

@[simp] theorem Sched.setCpu_forking (S : Sched) (c : Fin NCPU) (x : Cpu) :
    (S.setCpu c x).forking = S.forking := rfl

@[simp] theorem Sched.setCpu_cpu (S : Sched) (c : Fin NCPU) (x : Cpu) :
    (S.setCpu c x).cpu = Function.update S.cpu c x := rfl

theorem kill_state (s : Kernel) (pid : Int32) (j : Fin NPROC) :
    ((kill s pid).2.proc j).state = (s.proc j).state ∨
      ((s.proc j).state = .SLEEPING ∧ ((kill s pid).2.proc j).state = .RUNNABLE) := by
  rcases kill_spec s pid with ⟨-, h⟩ | ⟨i, -, h⟩ <;> rw [h]
  · exact .inl rfl
  · by_cases hj : j = i
    · subst hj
      by_cases hs : (s.proc j).state = .SLEEPING <;> simp [hs]
    · exact .inl (by simp [hj])

theorem exit_state {status : Int32} (h : exit s p status = some s') (j : Fin NPROC) :
    (s'.proc j).state = if j = p then .ZOMBIE else (s.proc j).state := by
  rw [exit_eq] at h
  split at h
  · cases h
  · obtain rfl := Option.some.inj h
    by_cases hj : j = p
    · subst hj
      simp
    · simp only [Kernel.setProc_proc_of_ne _ _ hj, reparent_proc, if_neg hj]
      split <;> rfl

theorem wait_state {addr : UInt64} {ok : Bool} {r : Int32} (h : wait s p addr ok = some (r, s'))
    (j : Fin NPROC) :
    (s'.proc j).state = (s.proc j).state ∨ ((s.proc j).state = .ZOMBIE ∧ (s'.proc j).state = .UNUSED) := by
  rcases wait_spec s p addr ok with h' | ⟨i, hz, h'⟩ | h' <;> rw [h'] at h
  · obtain ⟨-, rfl⟩ := Prod.mk.inj (Option.some.inj h)
    exact .inl rfl
  · -- the reaped child was a zombie
    obtain ⟨-, rfl⟩ := Prod.mk.inj (Option.some.inj h)
    by_cases hj : j = i
    · subst hj
      exact .inr ⟨(zombieChild_spec hz).2, by simp⟩
    · exact .inl (by simp [hj])
  · cases h

/-- `forkAlloc` either changes no state, or makes one `UNUSED` slot `USED`
and returns it. -/
theorem forkAlloc_spec {a c : Bool} {r : Option (Fin NPROC)} (h : forkAlloc s p a c = (r, s')) :
    (r = none ∧ ∀ j, (s'.proc j).state = (s.proc j).state) ∨
    (∃ np, r = some np ∧ (s.proc np).state = .UNUSED ∧ (s'.proc np).state = .USED ∧
      ∀ j, j ≠ np → (s'.proc j).state = (s.proc j).state) := by
  unfold forkAlloc at h
  rcases allocproc_spec s a with ⟨ha, -⟩ | ⟨i, hu, -, ha⟩ | ⟨i, hu, -, ha⟩ <;> rw [ha] at h
  · obtain ⟨rfl, rfl⟩ := Prod.mk.inj h
    exact .inl ⟨rfl, fun _ => rfl⟩
  · -- the slot is taken and given back
    obtain ⟨rfl, rfl⟩ := Prod.mk.inj h
    refine .inl ⟨rfl, fun j => ?_⟩
    by_cases hj : j = i
    · subst hj
      simp [unusedSlot_spec hu]
    · simp [hj, allocpid]
  · have hi := unusedSlot_spec hu
    cases c with
    | false =>
        obtain ⟨rfl, rfl⟩ := Prod.mk.inj h
        refine .inl ⟨rfl, fun j => ?_⟩
        by_cases hj : j = i
        · subst hj
          simp [hi]
        · simp [hj, allocpid]
    | true =>
        obtain ⟨rfl, rfl⟩ := Prod.mk.inj h
        refine .inr ⟨i, rfl, hi, by simp, fun j hj => by simp [hj, allocpid]⟩

theorem forkRun_state (s : Kernel) (p np j : Fin NPROC) :
    ((forkRun s p np).proc j).state = if j = np then .RUNNABLE else (s.proc j).state := by
  by_cases hj : j = np
  · subst hj
    simp [forkRun]
  · simp [forkRun, hj]

end States

/-! ## The arrows of the state machine -/

/-- The changes of state a step may make, each with the step that makes
it: `UNUSED → USED → RUNNABLE` by `fork` (and back to `UNUSED` when an
allocation fails), `RUNNABLE → RUNNING` by the scheduler only, `RUNNING →
RUNNABLE` by `yield`, `RUNNING → SLEEPING` by `sleep`, `SLEEPING → RUNNABLE`
by a `wakeup` on the slot's own `chan` or by `kill`, `RUNNING → ZOMBIE` by
`exit` and `ZOMBIE → UNUSED` by `wait`. -/
def Legal (chan : Nat) : SchedEvent → Procstate → Procstate → Prop
  | .forkAlloc .., .UNUSED, .USED => True
  | .forkAlloc .., .USED, .UNUSED => True
  | .forkRun _, .USED, .RUNNABLE => True
  | .scheduler _, .RUNNABLE, .RUNNING => True
  | .yield _, .RUNNING, .RUNNABLE => True
  | .sleep .., .RUNNING, .SLEEPING => True
  | .wakeup _ ch _, .SLEEPING, .RUNNABLE => ch = chan
  | .kill .., .SLEEPING, .RUNNABLE => True
  | .exit .., .RUNNING, .ZOMBIE => True
  | .wait .., .ZOMBIE, .UNUSED => True
  | _, _, _ => False

/-- A process is `RUNNING` exactly when one CPU runs it; a `fork` in the
middle holds a `USED` child of its own. -/
structure SchedInv (S : Sched) : Prop where
  running : ∀ i, (S.k.proc i).state = .RUNNING ↔ ∃ c, (S.cpu c).proc = some i
  unique : ∀ c c' i, (S.cpu c).proc = some i → (S.cpu c').proc = some i → c = c'
  forking : ∀ p np, S.forking p = some np → (S.k.proc np).state = .USED
  forking_inj : ∀ p p' np, S.forking p = some np → S.forking p' = some np → p = p'

namespace SchedInv

variable {S S' : Sched}

theorem running_of_cpu (hI : SchedInv S) {c : Fin NCPU} {p : Fin NPROC} (hc : (S.cpu c).proc = some p) :
    (S.k.proc p).state = .RUNNING :=
  (hI.running p).mpr ⟨c, hc⟩

/-- A step that leaves the CPUs alone and moves no slot into or out of
`RUNNING` keeps the first two facts. -/
theorem cpus_of_states (hI : SchedInv S) (hcpu : ∀ c, (S'.cpu c).proc = (S.cpu c).proc)
    (hst : ∀ i, (S'.k.proc i).state = (S.k.proc i).state ∨
      ((S.k.proc i).state ≠ .RUNNING ∧ (S'.k.proc i).state ≠ .RUNNING)) :
    (∀ i, (S'.k.proc i).state = .RUNNING ↔ ∃ c, (S'.cpu c).proc = some i) ∧
    (∀ c c' i, (S'.cpu c).proc = some i → (S'.cpu c').proc = some i → c = c') := by
  simp only [hcpu]
  refine ⟨fun i => ?_, hI.unique⟩
  rcases hst i with h | ⟨hn, hn'⟩
  · rw [h]
    exact hI.running i
  · exact ⟨fun h => absurd h hn', fun h => absurd ((hI.running i).mpr h) hn⟩

/-- A step in which CPU `c` gives up its process `p`, which leaves
`RUNNING`, and changes no other state, keeps the first two facts. -/
theorem cpus_of_release (hI : SchedInv S) {c : Fin NCPU} {p : Fin NPROC}
    (hc : (S.cpu c).proc = some p) (hcpu : S'.cpu = Function.update S.cpu c (S.cpu c).release)
    (hp : (S'.k.proc p).state ≠ .RUNNING) (hst : ∀ i, i ≠ p → (S'.k.proc i).state = (S.k.proc i).state) :
    (∀ i, (S'.k.proc i).state = .RUNNING ↔ ∃ c, (S'.cpu c).proc = some i) ∧
    (∀ c c' i, (S'.cpu c).proc = some i → (S'.cpu c').proc = some i → c = c') := by
  -- CPU `c` now runs nothing; the others run what they ran
  have hcpu' : ∀ c' i, (S'.cpu c').proc = some i ↔ c' ≠ c ∧ (S.cpu c').proc = some i := by
    intro c' i
    rw [hcpu]
    by_cases h : c' = c
    · subst h
      simp [Cpu.release]
    · simp [h]
  refine ⟨fun i => ?_, fun c₁ c₂ i h₁ h₂ => hI.unique c₁ c₂ i ((hcpu' c₁ i).mp h₁).2 ((hcpu' c₂ i).mp h₂).2⟩
  simp only [hcpu']
  by_cases hi : i = p
  · subst hi
    refine ⟨fun h => absurd h hp, fun ⟨c', hne, hc'⟩ => absurd (hI.unique c' c i hc' hc) hne⟩
  · rw [hst i hi, hI.running i]
    refine ⟨fun ⟨c', hc'⟩ => ⟨c', fun e => ?_, hc'⟩, fun ⟨c', _, hc'⟩ => ⟨c', hc'⟩⟩
    subst e
    exact hi (Option.some.inj (hc'.symm.trans hc))

/-- A step that leaves the CPUs alone, moves no slot into or out of
`RUNNING`, and keeps the facts about `fork`s in the middle keeps the
invariant. -/
theorem of_forks (hI : SchedInv S) (hcpu : S'.cpu = S.cpu)
    (hst : ∀ i, (S'.k.proc i).state = (S.k.proc i).state ∨
      ((S.k.proc i).state ≠ .RUNNING ∧ (S'.k.proc i).state ≠ .RUNNING))
    (hf : ∀ p np, S'.forking p = some np → (S'.k.proc np).state = .USED)
    (hinj : ∀ p p' np, S'.forking p = some np → S'.forking p' = some np → p = p') : SchedInv S' :=
  have hcpus := hI.cpus_of_states (fun c => by rw [hcpu]) hst
  ⟨hcpus.1, hcpus.2, hf, hinj⟩

/-- A step that keeps the first two facts, changes no `fork` in the middle
and leaves every `USED` slot `USED` keeps the invariant. -/
theorem of_used (hI : SchedInv S)
    (hcpus : (∀ i, (S'.k.proc i).state = .RUNNING ↔ ∃ c, (S'.cpu c).proc = some i) ∧
      (∀ c c' i, (S'.cpu c).proc = some i → (S'.cpu c').proc = some i → c = c'))
    (hf : S'.forking = S.forking)
    (hused : ∀ i, (S.k.proc i).state = .USED → (S'.k.proc i).state = .USED) : SchedInv S' where
  running := hcpus.1
  unique := hcpus.2
  forking p np h := hused np (hI.forking p np (hf ▸ h))
  forking_inj p p' np h h' := hI.forking_inj p p' np (hf ▸ h) (hf ▸ h')

/-- A step that leaves the CPUs and the `fork`s in the middle alone, and
changes a state only from one that is neither `RUNNING` nor `USED` to one
that is not `RUNNING`, keeps the invariant. -/
theorem of_quiet (hI : SchedInv S) (hcpu : S'.cpu = S.cpu) (hf : S'.forking = S.forking)
    (hst : ∀ i, (S'.k.proc i).state = (S.k.proc i).state ∨
      ((S.k.proc i).state ≠ .RUNNING ∧ (S.k.proc i).state ≠ .USED ∧ (S'.k.proc i).state ≠ .RUNNING)) :
    SchedInv S' := by
  refine hI.of_used (hI.cpus_of_states (fun c => by rw [hcpu]) fun i => ?_) hf fun i hi => ?_
  · rcases hst i with h | ⟨h₁, -, h₂⟩
    · exact .inl h
    · exact .inr ⟨h₁, h₂⟩
  · rcases hst i with h | ⟨-, h₁, -⟩
    · rw [h]
      exact hi
    · exact absurd hi h₁

/-- The scheduler's dispatch: CPU `c`, running nothing, runs the
`RUNNABLE` process `p`. -/
theorem cpus_of_dispatch (hI : SchedInv S) {c : Fin NCPU} {p : Fin NPROC}
    (hc : (S.cpu c).proc = none) (hp : (S.k.proc p).state = .RUNNABLE) :
    (∀ i, ((S.setState p .RUNNING).k.proc i).state = .RUNNING ↔
      ∃ c', (Function.update S.cpu c ⟨some p, p⟩ c').proc = some i) ∧
    (∀ c₁ c₂ i, (Function.update S.cpu c ⟨some p, p⟩ c₁).proc = some i →
      (Function.update S.cpu c ⟨some p, p⟩ c₂).proc = some i → c₁ = c₂) := by
  -- no CPU ran `p`, which was not `RUNNING`
  have hfree : ∀ c', (S.cpu c').proc ≠ some p := fun c' hc' => by
    rw [hI.running_of_cpu hc'] at hp
    cases hp
  have hcpu : ∀ c' i, (Function.update S.cpu c ⟨some p, p⟩ c').proc = some i ↔
      (c' = c ∧ i = p) ∨ (c' ≠ c ∧ (S.cpu c').proc = some i) := by
    intro c' i
    by_cases h : c' = c
    · subst h
      simp [eq_comm]
    · simp [h]
  refine ⟨fun i => ?_, fun c₁ c₂ i h₁ h₂ => ?_⟩
  · simp only [Sched.setState_state, hcpu]
    by_cases hi : i = p
    · subst hi
      simp
    · simp only [hi, if_false, and_false, false_or]
      rw [hI.running i]
      refine ⟨fun ⟨c', hc'⟩ => ⟨c', fun e => ?_, hc'⟩, fun ⟨c', _, hc'⟩ => ⟨c', hc'⟩⟩
      subst e
      rw [hc] at hc'
      cases hc'
  · rcases (hcpu c₁ i).mp h₁ with ⟨h₁c, h₁i⟩ | ⟨-, h₁'⟩ <;>
      rcases (hcpu c₂ i).mp h₂ with ⟨h₂c, h₂i⟩ | ⟨-, h₂'⟩
    · exact h₁c.trans h₂c.symm
    · exact absurd (h₁i ▸ h₂') (hfree c₂)
    · exact absurd (h₂i ▸ h₁') (hfree c₁)
    · exact hI.unique c₁ c₂ i h₁' h₂'

end SchedInv

/-! ## Every step -/

theorem schedStep_inv {S S' : Sched} {e : SchedEvent} {u : Unit} (hI : SchedInv S)
    (h : schedStep S e = some (S', u)) : SchedInv S' := by
  cases e with
  | scheduler c =>
      simp only [schedStep] at h
      split at h
      · cases h
      · rename_i hc
        split at h
        · -- dispatch
          rename_i hp
          obtain ⟨rfl, -⟩ := Prod.mk.inj (Option.some.inj h)
          refine hI.of_used (hI.cpus_of_dispatch hc hp) rfl fun i hi => ?_
          by_cases hip : i = (S.cpu c).next
          · rw [hip, hp] at hi
            cases hi
          · simp only [Sched.setCpu_k, Sched.setState_state, if_neg hip]
            exact hi
        · -- nothing to run at this slot
          obtain ⟨rfl, -⟩ := Prod.mk.inj (Option.some.inj h)
          refine hI.of_used (hI.cpus_of_states (fun c' => ?_) fun i => .inl rfl) rfl fun _ hi => hi
          by_cases h' : c' = c
          · subst h'
            simp [hc]
          · simp [h']
  | yield c =>
      obtain ⟨p, hc, hS⟩ := Option.map_eq_some_iff.mp h
      obtain ⟨rfl, -⟩ := Prod.mk.inj hS
      have hp := hI.running_of_cpu hc
      refine hI.of_used (hI.cpus_of_release hc rfl (by simp) fun i hi => by simp [hi]) rfl
        fun i hi => ?_
      have hip : i ≠ p := fun e => by rw [e, hp] at hi; cases hi
      simpa [hip] using hi
  | sleep c chan =>
      obtain ⟨p, hc, hS⟩ := Option.map_eq_some_iff.mp h
      obtain ⟨rfl, -⟩ := Prod.mk.inj hS
      have hp := hI.running_of_cpu hc
      refine hI.of_used (hI.cpus_of_release hc rfl (by simp) fun i hi => by simp [hi]) rfl
        fun i hi => ?_
      have hip : i ≠ p := fun e => by rw [e, hp] at hi; cases hi
      simpa [hip] using hi
  | wakeup c chan q =>
      simp only [schedStep] at h
      split at h
      · -- a sleeper on `chan` wakes
        rename_i hw
        obtain ⟨rfl, -⟩ := Prod.mk.inj (Option.some.inj h)
        refine hI.of_quiet rfl rfl fun i => ?_
        by_cases hi : i = q
        · subst hi
          simp [hw.2.1]
        · simp [hi]
      · obtain ⟨rfl, -⟩ := Prod.mk.inj (Option.some.inj h)
        exact hI
  | kill c pid =>
      obtain ⟨p, hc, hS⟩ := Option.map_eq_some_iff.mp h
      obtain ⟨rfl, -⟩ := Prod.mk.inj hS
      refine hI.of_quiet rfl rfl fun i => ?_
      rcases kill_state S.k pid i with h' | ⟨h₁, h₂⟩
      · exact .inl h'
      · exact .inr ⟨by simp [h₁], by simp [h₁], by simp [h₂]⟩
  | exit c status =>
      obtain ⟨p, hc, h'⟩ := Option.bind_eq_some_iff.mp h
      obtain ⟨k, hk, hS⟩ := Option.map_eq_some_iff.mp h'
      obtain ⟨rfl, -⟩ := Prod.mk.inj hS
      have hp := hI.running_of_cpu hc
      refine hI.of_used (hI.cpus_of_release hc rfl (by simp [exit_state hk]) fun i hi => by
        simp [exit_state hk, hi]) rfl fun i hi => ?_
      have hip : i ≠ p := fun e => by rw [e, hp] at hi; cases hi
      simpa [exit_state hk, hip] using hi
  | wait c addr copy_ok =>
      obtain ⟨p, hc, h'⟩ := Option.bind_eq_some_iff.mp h
      obtain ⟨⟨r, k⟩, hk, hS⟩ := Option.map_eq_some_iff.mp h'
      obtain ⟨rfl, -⟩ := Prod.mk.inj hS
      refine hI.of_quiet rfl rfl fun i => ?_
      rcases wait_state hk i with h' | ⟨h₁, h₂⟩
      · exact .inl h'
      · exact .inr ⟨by simp [h₁], by simp [h₁], by simp [h₂]⟩
  | forkAlloc c a ok =>
      obtain ⟨p, hc, h'⟩ := Option.bind_eq_some_iff.mp h
      split at h'
      · cases h'
      · rename_i hnf
        obtain ⟨rfl, -⟩ := Prod.mk.inj (Option.some.inj h')
        have hfp : S.forking p = none := by simpa using hnf
        rcases hr : forkAlloc S.k p a ok with ⟨r, k⟩
        dsimp only
        rcases forkAlloc_spec hr with ⟨rfl, hst⟩ | ⟨np, rfl, hu, hu', hst⟩
        · -- no child: nothing changes but `nextpid`
          refine hI.of_quiet rfl ?_ fun i => .inl (hst i)
          simp [← hfp]
        · -- a child, `USED`, that no other `fork` holds
          have hnew : ∀ p', S.forking p' ≠ some np := fun p' h => by
            rw [hI.forking p' np h] at hu
            cases hu
          refine hI.of_forks rfl (fun i => ?_) (fun p' n h => ?_) (fun p₁ p₂ n h₁ h₂ => ?_)
          · by_cases hi : i = np
            · subst hi
              exact .inr ⟨by simp [hu], by simp [hu']⟩
            · exact .inl (hst i hi)
          · by_cases hp' : p' = p
            · subst hp'
              simp only [Function.update_self, Option.some.injEq] at h
              subst h
              exact hu'
            · simp only [Function.update_of_ne hp'] at h
              have hn : n ≠ np := fun e => hnew p' (e ▸ h)
              rw [hst n hn]
              exact hI.forking p' n h
          · by_cases hp₁ : p₁ = p <;> by_cases hp₂ : p₂ = p
            · exact hp₁.trans hp₂.symm
            · subst hp₁
              simp only [Function.update_self, Option.some.injEq, Function.update_of_ne hp₂] at h₁ h₂
              exact absurd (h₁ ▸ h₂) (hnew p₂)
            · subst hp₂
              simp only [Function.update_self, Option.some.injEq, Function.update_of_ne hp₁] at h₁ h₂
              exact absurd (h₂ ▸ h₁) (hnew p₁)
            · simp only [Function.update_of_ne hp₁, Function.update_of_ne hp₂] at h₁ h₂
              exact hI.forking_inj p₁ p₂ n h₁ h₂
  | forkRun c =>
      obtain ⟨p, hc, h'⟩ := Option.bind_eq_some_iff.mp h
      obtain ⟨np, hf, hS⟩ := Option.map_eq_some_iff.mp h'
      obtain ⟨rfl, -⟩ := Prod.mk.inj hS
      have hnp := hI.forking p np hf
      have hst : ∀ i, i ≠ np → ((forkRun S.k p np).proc i).state = (S.k.proc i).state := fun i hi => by
        simp [forkRun_state, hi]
      refine hI.of_forks rfl (fun i => ?_) (fun p' n h => ?_) (fun p₁ p₂ n h₁ h₂ => ?_)
      · by_cases hi : i = np
        · subst hi
          exact .inr ⟨by simp [hnp], by simp [forkRun_state]⟩
        · exact .inl (hst i hi)
      · -- the other `fork`s in the middle hold other children
        have hp' : p' ≠ p := fun e => by subst e; simp at h
        simp only [Function.update_of_ne hp'] at h
        have hn : n ≠ np := fun e => hp' (hI.forking_inj p' p n h (e ▸ hf))
        rw [hst n hn]
        exact hI.forking p' n h
      · have hp₁ : p₁ ≠ p := fun e => by subst e; simp at h₁
        have hp₂ : p₂ ≠ p := fun e => by subst e; simp at h₂
        simp only [Function.update_of_ne hp₁, Function.update_of_ne hp₂] at h₁ h₂
        exact hI.forking_inj p₁ p₂ n h₁ h₂

/-- Every step moves a slot's state only along an arrow of the state
machine, by the step the arrow names. -/
theorem schedStep_legal {S S' : Sched} {e : SchedEvent} {u : Unit} (hI : SchedInv S)
    (h : schedStep S e = some (S', u)) (i : Fin NPROC) :
    (S'.k.proc i).state = (S.k.proc i).state ∨ Legal (S.chan i) e (S.k.proc i).state (S'.k.proc i).state := by
  cases e with
  | scheduler c =>
      simp only [schedStep] at h
      split at h
      · cases h
      · split at h
        · rename_i hp
          obtain ⟨rfl, -⟩ := Prod.mk.inj (Option.some.inj h)
          by_cases hi : i = (S.cpu c).next
          · subst hi
            simp only [Sched.setCpu_k, Sched.setState_state, if_true, hp]
            exact .inr trivial
          · exact .inl (by simp [hi])
        · obtain ⟨rfl, -⟩ := Prod.mk.inj (Option.some.inj h)
          exact .inl rfl
  | yield c =>
      obtain ⟨p, hc, hS⟩ := Option.map_eq_some_iff.mp h
      obtain ⟨rfl, -⟩ := Prod.mk.inj hS
      by_cases hi : i = p
      · subst hi
        simp only [Sched.setCpu_k, Sched.setState_state, if_true, hI.running_of_cpu hc]
        exact .inr trivial
      · exact .inl (by simp [hi])
  | sleep c chan =>
      obtain ⟨p, hc, hS⟩ := Option.map_eq_some_iff.mp h
      obtain ⟨rfl, -⟩ := Prod.mk.inj hS
      by_cases hi : i = p
      · subst hi
        simp only [Sched.setCpu_k, Sched.setState_state, if_true, hI.running_of_cpu hc]
        exact .inr trivial
      · exact .inl (by simp [hi])
  | wakeup c chan q =>
      simp only [schedStep] at h
      split at h
      · rename_i hw
        obtain ⟨rfl, -⟩ := Prod.mk.inj (Option.some.inj h)
        by_cases hi : i = q
        · -- the sleeper was on this very `chan`
          subst hi
          simp only [Sched.setState_state, if_true, hw.2.1]
          exact .inr hw.2.2.symm
        · exact .inl (by simp [hi])
      · obtain ⟨rfl, -⟩ := Prod.mk.inj (Option.some.inj h)
        exact .inl rfl
  | kill c pid =>
      obtain ⟨p, hc, hS⟩ := Option.map_eq_some_iff.mp h
      obtain ⟨rfl, -⟩ := Prod.mk.inj hS
      rcases kill_state S.k pid i with h' | ⟨h₁, h₂⟩
      · exact .inl h'
      · rw [h₁]
        exact .inr (by rw [h₂]; trivial)
  | exit c status =>
      obtain ⟨p, hc, h'⟩ := Option.bind_eq_some_iff.mp h
      obtain ⟨k, hk, hS⟩ := Option.map_eq_some_iff.mp h'
      obtain ⟨rfl, -⟩ := Prod.mk.inj hS
      by_cases hi : i = p
      · subst hi
        simp only [Sched.setCpu_k, exit_state hk, if_true, hI.running_of_cpu hc]
        exact .inr trivial
      · exact .inl (by simp [exit_state hk, hi])
  | wait c addr copy_ok =>
      obtain ⟨p, hc, h'⟩ := Option.bind_eq_some_iff.mp h
      obtain ⟨⟨r, k⟩, hk, hS⟩ := Option.map_eq_some_iff.mp h'
      obtain ⟨rfl, -⟩ := Prod.mk.inj hS
      rcases wait_state hk i with h' | ⟨h₁, h₂⟩
      · exact .inl h'
      · rw [h₁]
        exact .inr (by rw [h₂]; trivial)
  | forkAlloc c a ok =>
      obtain ⟨p, hc, h'⟩ := Option.bind_eq_some_iff.mp h
      split at h'
      · cases h'
      · obtain ⟨rfl, -⟩ := Prod.mk.inj (Option.some.inj h')
        rcases hr : forkAlloc S.k p a ok with ⟨r, k⟩
        dsimp only
        rcases forkAlloc_spec hr with ⟨-, hst⟩ | ⟨np, -, hu, hu', hst⟩
        · exact .inl (hst i)
        · by_cases hi : i = np
          · subst hi
            rw [hu, hu']
            exact .inr trivial
          · exact .inl (hst i hi)
  | forkRun c =>
      obtain ⟨p, hc, h'⟩ := Option.bind_eq_some_iff.mp h
      obtain ⟨np, hf, hS⟩ := Option.map_eq_some_iff.mp h'
      obtain ⟨rfl, -⟩ := Prod.mk.inj hS
      by_cases hi : i = np
      · -- the child of this `fork` was `USED`
        subst hi
        simp only [forkRun_state, if_true, hI.forking p i hf]
        exact .inr trivial
      · exact .inl (by simp [forkRun_state, hi])

/-- At boot no process is `RUNNING` and no CPU runs one: `init` is
`RUNNABLE`, every other slot `UNUSED`. -/
theorem schedInv_boot : SchedInv Sched.boot where
  running i := by
    refine ⟨fun h => ?_, fun ⟨_, hc⟩ => by cases hc⟩
    have h' : (Kernel.boot.proc i).state = .RUNNING := h
    -- only `init` is live, and it is `RUNNABLE`
    have h0 : i = 0 := (boot_proc_tree i).2 (by rw [h']; decide)
    subst h0
    revert h'
    decide
  unique _ _ _ h := by cases h
  forking _ _ h := by cases h
  forking_inj _ _ _ h := by cases h

theorem proc_state_machine {hist : List (Sched × SchedEvent × Unit)} {S : Sched}
    (hr : Machine.Run schedStep Sched.boot hist S) :
    (∀ i, (S.k.proc i).state = .RUNNING ↔ ∃ c, (S.cpu c).proc = some i) ∧
    (∀ c c' i, (S.cpu c).proc = some i → (S.cpu c').proc = some i → c = c') ∧
    (∀ e S' u, schedStep S e = some (S', u) → ∀ i,
      (S'.k.proc i).state = (S.k.proc i).state ∨
        Legal (S.chan i) e (S.k.proc i).state (S'.k.proc i).state) := by
  have hI : SchedInv S :=
    Machine.Run.state_invariant SchedInv schedInv_boot (fun _ _ _ _ hI h => schedStep_inv hI h) hr
  exact ⟨hI.running, hI.unique, fun _ _ _ h => schedStep_legal hI h⟩

/-- Init scheduled, forking a child and yielding; both scheduled again,
one of them put to sleep and the second CPU scheduling on. -/
theorem proc_state_machine_fork :
    ∃ hist S, Machine.Run schedStep Sched.boot hist S ∧
      hist.map (fun x => x.2.1) =
        [.scheduler 1, .sleep 1 7, .scheduler 1, .scheduler 0, .yield 0, .forkRun 0, .forkAlloc 0 true true,
          .scheduler 0] ∧
      (∀ i, (S.k.proc i).state = .RUNNING ↔ ∃ c, (S.cpu c).proc = some i) ∧
      (∀ c c' i, (S.cpu c).proc = some i → (S.cpu c').proc = some i → c = c') ∧
      (∀ e S' u, schedStep S e = some (S', u) → ∀ i,
        (S'.k.proc i).state = (S.k.proc i).state ∨
          Legal (S.chan i) e (S.k.proc i).state (S'.k.proc i).state) := by
  obtain ⟨hist, S, hr, hev⟩ := @Machine.exists_run_of_events _ _ _ schedStep (Sched.boot)
    [.scheduler 0, .forkAlloc 0 true true, .forkRun 0, .yield 0, .scheduler 0, .scheduler 1, .sleep 1 7, .scheduler 1]
    (by decide +kernel)
  exact ⟨hist, S, hr, hev, proc_state_machine hr⟩

end Xv6
