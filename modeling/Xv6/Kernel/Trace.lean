/-
# `Xv6.Kernel.Trace` — what `trace` prints, over whole runs

`syscall` prints `"%d: syscall %s -> %d\n"` when bit `num` of the caller's
`trace_mask` is set.  The field lives in a `proc` slot that `freeproc`
does not clear and `allocproc` does not set, so whether the printed lines
follow the *intended* mask depends on every way a slot comes to life.

**The intended mask** (`intendedMask`) is read off the history of a run,
newest event first, with no reference to the field at all:

    the argument of the process's most recent trace call,
    else the intended mask of its parent at the fork that created it,
    else 0 (the first process, made by userinit on a zeroed table).

A call only counts if `usertrap` dispatched it, i.e. the caller was not
already killed.  `exec` and every other call leave it alone.

**Proved here.**

    masks_agree            on every run, each live slot's trace_mask is the
                           intended mask of its occupant
    syscall_trace_output   hence syscall prints the trace line exactly when
                           bit num of the intended mask, after the handler,
                           is set, and rejected numbers print only the
                           "unknown sys call" line

The run lemma rests on one fact per handler (`sys_call_masks`): a slot is
live after a handler only if it was live before or is the child of a
successful fork, and the only mask a handler writes is the caller's
(`trace`) or that child's (`fork`).
-/
import Xv6.Kernel.Syscall
import Xv6.Lib.Run
import Mathlib.Tactic.IntervalCases

namespace Xv6

/-! ## Bit `num` of an `int` -/

theorem and_one_ne_zero (y : Int32) : (y &&& 1 != 0) = y.toBitVec.getLsbD 0 := by
  have hz : (y &&& 1 = 0) ↔ (y.toBitVec.getLsbD 0 = false) := by
    rw [Int32.eq_iff_toBitVec_eq, Int32.toBitVec_and, Int32.toBitVec_one, Int32.toBitVec_zero]
    constructor
    · intro h
      have := congrArg (fun x => x.getLsbD 0) h
      simpa using this
    · intro h
      apply BitVec.eq_of_getLsbD_eq
      intro i _
      by_cases h0 : i = 0
      · subst h0; simpa using h
      · simp [BitVec.getLsbD_one, h0]
  by_cases h : y.toBitVec.getLsbD 0 <;> simp_all

theorem smod_ofNat_toNat (n : Nat) (hn : n < 32) :
    ((Int32.ofNat n).toBitVec.smod 32).toNat = n := by
  interval_cases n <;> decide

/-- For `0 < num < 32`, the code's test `(mask >> num) & 1` is bit `num`
of the mask's two's-complement representation. -/
theorem traced_eq_getLsbD (mask num : Int32) (h0 : 0 < num.toInt) (h1 : num.toInt < 32) :
    traced mask num = mask.toBitVec.getLsbD num.toInt.toNat := by
  obtain ⟨n, hn, rfl⟩ : ∃ n : Nat, n < 32 ∧ num = Int32.ofNat n := by
    refine ⟨num.toInt.toNat, by omega, ?_⟩
    rw [← Int32.toInt_inj, Int32.toInt_ofNat_of_lt (by omega)]
    omega
  have hval : (Int32.ofNat n).toInt.toNat = n := by
    rw [Int32.toInt_ofNat_of_lt (by omega)]
    simp
  rw [hval, traced, and_one_ne_zero, Int32.toBitVec_shiftRight, BitVec.getLsbD_sshiftRight',
    smod_ofNat_toNat n hn]
  simp [hn]

theorem dispatchable_range {num : Int32} {c : Sys} {name : String}
    (h : dispatchable num = some (c, name)) : 0 < num.toInt ∧ num.toInt < 32 := by
  unfold dispatchable at h
  split at h
  · rename_i hr
    have : (NELEM_syscalls : Int) = 24 := rfl
    omega
  · cases h

/-! ## The intended mask -/

/-- The events of a run, each with the state it started from. -/
def events (h : List (Kernel × Event × List Printf)) : List (Kernel × Event) :=
  h.map fun x => (x.1, x.2.1)

/-- The slot a fork by a caller in state `s` fills, if it succeeds. -/
def forkChild (s : Kernel) (env : Env) : Option (Fin NPROC) :=
  if env.alloc_ok && env.uvmcopy_ok then unusedSlot s else none

/-- The intended mask of slot `i`'s occupant after the events `h`, newest
first: its last dispatched `trace`, else its parent's intended mask at
the fork that made it, else `0`. -/
def intendedMask : List (Kernel × Event) → Fin NPROC → Int32
  | [], _ => 0
  | (s, .trap p (.ecall tf env)) :: h, i =>
      if (s.proc p).killed = false ∧ (dispatchable (sysnum tf)).map Prod.fst = some .trace ∧
          p = i then argint tf 0
      else if (s.proc p).killed = false ∧ (dispatchable (sysnum tf)).map Prod.fst = some .fork ∧
          forkChild s env = some i then intendedMask h p
      else intendedMask h i
  | _ :: h, i => intendedMask h i

/-- The run invariant: every live slot carries its occupant's intended mask. -/
def MasksAgree (h : List (Kernel × Event)) (s : Kernel) : Prop :=
  ∀ i, (s.proc i).state ≠ .UNUSED → (s.proc i).trace_mask = intendedMask h i

attribute [grind] events forkChild intendedMask

/-! ## Steps that write no mask and wake no slot -/

/-- `s'` brings no `UNUSED` slot of `s` to life and keeps the mask of
every slot that is live in it. -/
def KeepsMasks (s s' : Kernel) : Prop :=
  ∀ j, (s'.proc j).state ≠ .UNUSED →
    (s.proc j).state ≠ .UNUSED ∧ (s'.proc j).trace_mask = (s.proc j).trace_mask

theorem KeepsMasks.refl (s : Kernel) : KeepsMasks s s :=
  fun _ hj => ⟨hj, rfl⟩

theorem KeepsMasks.trans {s₁ s₂ s₃ : Kernel} (h₁ : KeepsMasks s₁ s₂) (h₂ : KeepsMasks s₂ s₃) :
    KeepsMasks s₁ s₃ := by
  intro j hj
  obtain ⟨hj₂, hm₂⟩ := h₂ j hj
  obtain ⟨hj₁, hm₁⟩ := h₁ j hj₂
  exact ⟨hj₁, hm₂.trans hm₁⟩

theorem keepsMasks_setProc {s : Kernel} {i : Fin NPROC} {q : Proc}
    (hm : q.trace_mask = (s.proc i).trace_mask)
    (hst : (s.proc i).state = .UNUSED → q.state = .UNUSED) :
    KeepsMasks s (s.setProc i q) := by
  intro j hj
  by_cases hji : j = i
  · subst hji
    rw [Kernel.setProc_proc_self] at hj ⊢
    exact ⟨fun hu => hj (hst hu), hm⟩
  · rw [Kernel.setProc_proc_of_ne _ _ hji] at hj ⊢
    exact ⟨hj, rfl⟩

theorem keepsMasks_freeproc (s : Kernel) (i : Fin NPROC) : KeepsMasks s (freeproc s i) :=
  keepsMasks_setProc rfl (fun _ => rfl)

theorem keepsMasks_reparent (s : Kernel) (p : Fin NPROC) : KeepsMasks s (reparent s p) := by
  intro j hj
  rw [reparent_proc] at hj ⊢
  by_cases hpj : (s.proc j).parent = some p
  · rw [if_pos hpj] at hj ⊢
    exact ⟨hj, rfl⟩
  · rw [if_neg hpj] at hj ⊢
    exact ⟨hj, rfl⟩

theorem keepsMasks_exit {s s' : Kernel} {p : Fin NPROC} {status : Int32}
    (hp : (s.proc p).state ≠ .UNUSED) (h : exit s p status = some s') : KeepsMasks s s' := by
  rw [exit_eq] at h
  split at h
  · cases h
  · cases h
    refine (keepsMasks_reparent s p).trans (keepsMasks_setProc rfl ?_)
    intro hu
    have : (s.proc p).state = .UNUSED := by
      simpa [reparent_proc, apply_ite Proc.state] using hu
    exact absurd this hp

theorem keepsMasks_kill (s : Kernel) (pid : Int32) : KeepsMasks s (kill s pid).2 := by
  rcases kill_spec s pid with ⟨_, hk⟩ | ⟨i, _, hk⟩
  · rw [hk]; exact KeepsMasks.refl s
  · rw [hk]
    refine keepsMasks_setProc rfl ?_
    intro hu
    simp [hu]

theorem keepsMasks_setkilled (s : Kernel) (p : Fin NPROC) : KeepsMasks s (setkilled s p) :=
  keepsMasks_setProc rfl id

theorem keepsMasks_usertrapTail {s s' : Kernel} {p : Fin NPROC} {out out' : List Printf}
    (hp : (s.proc p).state ≠ .UNUSED) (h : usertrapTail s p out = some (s', out')) :
    KeepsMasks s s' := by
  unfold usertrapTail at h
  split at h
  · obtain ⟨s₁, hx, hs₁⟩ := Option.map_eq_some_iff.mp h
    cases hs₁
    exact keepsMasks_exit hp hx
  · cases h
    exact KeepsMasks.refl s

theorem keepsMasks_wait {s s' : Kernel} {p : Fin NPROC} {addr : UInt64} {ok : Bool} {r : Int32}
    (h : wait s p addr ok = some (r, s')) : KeepsMasks s s' := by
  rcases wait_spec s p addr ok with hw | ⟨i, _, hw⟩ | hw
  · rw [hw] at h
    cases h
    exact KeepsMasks.refl s
  · rw [hw] at h
    cases h
    exact keepsMasks_freeproc s i
  · rw [hw] at h
    cases h

theorem MasksAgree.of_keeps {h : List (Kernel × Event)} {s s' : Kernel} (hA : MasksAgree h s)
    (hk : KeepsMasks s s') : MasksAgree h s' := by
  intro j hj
  obtain ⟨hj', hm⟩ := hk j hj
  rw [hm]
  exact hA j hj'

/-! ## One handler -/

/-- Every handler but `fork` and `trace` writes no mask and wakes no slot. -/
theorem sys_call_keeps {c : Sys} {s s₁ : Kernel} {p : Fin NPROC} {tf : Trapframe} {env : Env}
    {r : Ret} (hp : (s.proc p).state ≠ .UNUSED) (hf : c ≠ .fork) (ht : c ≠ .trace)
    (h : sys_call c s p tf env = some (r, s₁)) : KeepsMasks s s₁ := by
  cases c with
  | fork => exact absurd rfl hf
  | trace => exact absurd rfl ht
  | exit =>
      obtain ⟨s₂, hx, hs⟩ := Option.map_eq_some_iff.mp h
      cases hs
      exact keepsMasks_exit hp hx
  | wait =>
      obtain ⟨⟨r', s₂⟩, hx, hs⟩ := Option.map_eq_some_iff.mp h
      cases hs
      exact keepsMasks_wait hx
  | kill =>
      simp only [sys_call, Option.some.injEq, Prod.mk.injEq] at h
      rw [← h.2]
      exact keepsMasks_kill s _
  | exec =>
      simp only [sys_call] at h
      split at h
      · cases h
        exact keepsMasks_setProc rfl id
      · cases h
        exact KeepsMasks.refl s
  | _ =>
      simp only [sys_call, Option.some.injEq, Prod.mk.injEq] at h
      rw [← h.2]
      exact KeepsMasks.refl s

/-- A slot is live after a handler only if it was live before, with its
mask kept unless the handler is the caller's `trace`, or it is the child of
a successful `fork`, with the caller's mask. -/
theorem sys_call_masks {c : Sys} {s s₁ : Kernel} {p : Fin NPROC} {tf : Trapframe} {env : Env}
    {r : Ret} (hp : (s.proc p).state ≠ .UNUSED) (h : sys_call c s p tf env = some (r, s₁))
    (j : Fin NPROC) (hj : (s₁.proc j).state ≠ .UNUSED) :
    ((s.proc j).state ≠ .UNUSED ∧ (s₁.proc j).trace_mask =
        if c = .trace ∧ j = p then argint tf 0 else (s.proc j).trace_mask) ∨
    (c = .fork ∧ forkChild s env = some j ∧ (s₁.proc j).trace_mask = (s.proc p).trace_mask) := by
  by_cases hf : c = .fork
  · subst hf
    simp only [sys_call, Option.some.injEq, Prod.mk.injEq] at h
    rw [← h.2] at hj ⊢
    rcases fork_spec s p env.alloc_ok env.uvmcopy_ok hp with ⟨_, hk⟩ | ⟨i, _, _, hk⟩ |
      ⟨i, hu, ha, hc, hk⟩
    · rw [hk] at hj ⊢
      exact Or.inl ⟨hj, by simp⟩
    · -- the slot went back through `freeproc`, so `j` is another one
      rw [hk] at hj ⊢
      have hji : j ≠ i := by
        rintro rfl
        simp at hj
      simp only [freeproc_proc, if_neg hji, Kernel.setProc_proc_of_ne _ _ hji] at hj ⊢
      exact Or.inl ⟨hj, by simp⟩
    · rw [hk] at hj ⊢
      by_cases hji : j = i
      · subst hji
        refine Or.inr ⟨rfl, ?_, by simp⟩
        simp [forkChild, ha, hc, hu]
      · simp only [Kernel.setProc_proc_of_ne _ _ hji] at hj ⊢
        exact Or.inl ⟨hj, by simp⟩
  by_cases ht : c = .trace
  · subst ht
    simp only [sys_call, Option.some.injEq, Prod.mk.injEq] at h
    rw [← h.2] at hj ⊢
    by_cases hjp : j = p
    · subst hjp
      exact Or.inl ⟨hp, by simp⟩
    · rw [Kernel.setProc_proc_of_ne _ _ hjp] at hj ⊢
      exact Or.inl ⟨hj, by simp [hjp]⟩
  · obtain ⟨hj', hm⟩ := sys_call_keeps hp hf ht h j hj
    exact Or.inl ⟨hj', by simp [hm, ht]⟩

/-- The caller is still live when its handler returns: the only slots a
handler frees are a fork's own failed child and a `ZOMBIE` child. -/
theorem sys_call_caller_live {c : Sys} {s s₁ : Kernel} {p : Fin NPROC} {tf : Trapframe}
    {env : Env} {r : Ret} (hp : (s.proc p).state = .RUNNABLE)
    (h : sys_call c s p tf env = some (r, s₁)) : (s₁.proc p).state ≠ .UNUSED := by
  have hpu : (s.proc p).state ≠ .UNUSED := by simp [hp]
  cases c with
  | fork =>
      simp only [sys_call, Option.some.injEq, Prod.mk.injEq] at h
      rw [← h.2]
      rcases fork_spec s p env.alloc_ok env.uvmcopy_ok hpu with ⟨_, hk⟩ | ⟨i, hu, _, hk⟩ |
        ⟨i, hu, _, _, hk⟩ <;> rw [hk]
      · exact hpu
      all_goals
        have hpi : p ≠ i := fun hpi => hpu (hpi ▸ unusedSlot_spec hu)
        simp [hpi, hpu]
  | trace =>
      simp only [sys_call, Option.some.injEq, Prod.mk.injEq] at h
      rw [← h.2]
      simp [hpu]
  | exit =>
      obtain ⟨s₂, hx, hs⟩ := Option.map_eq_some_iff.mp h
      cases hs
      rw [exit_eq] at hx
      split at hx
      · cases hx
      · cases hx
        simp
  | wait =>
      obtain ⟨⟨r', s₂⟩, hx, hs⟩ := Option.map_eq_some_iff.mp h
      cases hs
      rcases wait_spec s p (argaddr tf 0) env.copyout_ok with hw | ⟨i, hz, hw⟩ | hw <;>
        rw [hw] at hx
      · cases hx
        exact hpu
      · cases hx
        -- the reaped child is a `ZOMBIE`, the caller is not
        have hpi : p ≠ i := by
          rintro rfl
          simp [(zombieChild_spec hz).2] at hp
        simp [hpi, hpu]
      · cases hx
  | kill =>
      simp only [sys_call, Option.some.injEq, Prod.mk.injEq] at h
      rw [← h.2]
      rcases kill_spec s (argint tf 0) with ⟨_, hk⟩ | ⟨i, _, hk⟩ <;> rw [hk]
      · exact hpu
      · by_cases hpi : p = i
        · subst hpi
          simp [hp]
        · simp [hpi, hpu]
  | exec =>
      simp only [sys_call] at h
      split at h <;> cases h
      · simp [hpu]
      · exact hpu
  | _ =>
      simp only [sys_call, Option.some.injEq, Prod.mk.injEq] at h
      rw [← h.2]
      exact hpu

/-! ## One step -/

/-- Where `syscall` leaves the table: untouched for a rejected number,
else where the handler left it. -/
theorem syscall_state {s s₁ : Kernel} {p : Fin NPROC} {tf : Trapframe} {env : Env}
    {out : List Printf} {b : Bool} (h : syscall s p tf env = some (s₁, out, b)) :
    (dispatchable (sysnum tf) = none ∧ s₁ = s) ∨
    (∃ c name r, dispatchable (sysnum tf) = some (c, name) ∧ sys_call c s p tf env = some (r, s₁)) := by
  unfold syscall at h
  cases hd : dispatchable (sysnum tf) with
  | none =>
      simp only [hd, Option.some.injEq, Prod.mk.injEq] at h
      exact Or.inl ⟨rfl, h.1.symm⟩
  | some cn =>
      obtain ⟨c, name⟩ := cn
      simp only [hd] at h
      cases hsc : sys_call c s p tf env with
      | none => simp [hsc] at h
      | some rs =>
          obtain ⟨r, s₂⟩ := rs
          refine Or.inr ⟨c, name, r, rfl, ?_⟩
          rw [hsc]
          simp only [hsc] at h
          cases r with
          | noreturn => cases h; rfl
          | ret v =>
              simp only at h
              split at h <;> cases h <;> rfl

/-- Where a trap with `ecall` leaves the table: `exit(-1)` for a process
already killed, else wherever `syscall` and the tail of `usertrap` do. -/
theorem usertrap_ecall_state {s s' : Kernel} {p : Fin NPROC} {tf : Trapframe} {env : Env}
    {o : List Printf} (h : usertrap s p (.ecall tf env) = some (s', o)) :
    ((s.proc p).killed = true ∧ exit s p (-1) = some s') ∨
    ((s.proc p).killed = false ∧ ∃ s₁ out b, syscall s p tf env = some (s₁, out, b) ∧
      (s' = s₁ ∨ usertrapTail s₁ p out = some (s', o))) := by
  simp only [usertrap] at h
  by_cases hk : (s.proc p).killed = true
  · rw [if_pos hk] at h
    obtain ⟨s₂, hx, hs⟩ := Option.map_eq_some_iff.mp h
    cases hs
    exact Or.inl ⟨hk, hx⟩
  · rw [if_neg hk] at h
    refine Or.inr ⟨by simpa using hk, ?_⟩
    cases hsys : syscall s p tf env with
    | none => simp [hsys] at h
    | some r =>
        obtain ⟨s₁, out, b⟩ := r
        rw [hsys] at h
        cases b with
        | false => exact ⟨s₁, out, false, rfl, Or.inl (Prod.mk.inj (Option.some.inj h)).1.symm⟩
        | true => exact ⟨s₁, out, true, rfl, Or.inr h⟩

theorem forkChild_spec {s : Kernel} {env : Env} {j : Fin NPROC} (h : forkChild s env = some j) :
    unusedSlot s = some j := by
  unfold forkChild at h
  split at h
  · exact h
  · cases h

theorem MasksAgree.of_hist {H H' : List (Kernel × Event)} {s : Kernel}
    (he : intendedMask H' = intendedMask H) (hA : MasksAgree H s) : MasksAgree H' s := by
  intro j hj
  rw [he]
  exact hA j hj

/-- The intended masks move only at a dispatched `trace` or `fork`. -/
theorem intendedMask_cons_of_killed {s : Kernel} {p : Fin NPROC} {tf : Trapframe} {env : Env}
    (H : List (Kernel × Event)) (hk : (s.proc p).killed = true) :
    intendedMask ((s, .trap p (.ecall tf env)) :: H) = intendedMask H := by
  funext i
  simp [intendedMask, hk]

theorem intendedMask_cons_of_none {s : Kernel} {p : Fin NPROC} {tf : Trapframe} {env : Env}
    (H : List (Kernel × Event)) (hd : dispatchable (sysnum tf) = none) :
    intendedMask ((s, .trap p (.ecall tf env)) :: H) = intendedMask H := by
  funext i
  simp [intendedMask, hd]

theorem intendedMask_cons_of_ne_ecall {s : Kernel} {p : Fin NPROC} {c : Scause}
    (H : List (Kernel × Event)) (hc : ∀ tf env, c ≠ .ecall tf env) :
    intendedMask ((s, .trap p c) :: H) = intendedMask H := by
  funext i
  cases c with
  | ecall tf env => exact absurd rfl (hc tf env)
  | devintr => rfl
  | unexpected _ _ _ => rfl

theorem intendedMask_cons_dispatched {s : Kernel} {p : Fin NPROC} {tf : Trapframe} {env : Env}
    {c : Sys} {name : String} (H : List (Kernel × Event)) (hk : (s.proc p).killed = false)
    (hd : dispatchable (sysnum tf) = some (c, name)) (i : Fin NPROC) :
    intendedMask ((s, .trap p (.ecall tf env)) :: H) i =
      if c = .trace ∧ p = i then argint tf 0
      else if c = .fork ∧ forkChild s env = some i then intendedMask H p
      else intendedMask H i := by
  simp [intendedMask, hk, hd]

/-- After a dispatched call, the table agrees with the history extended by
that call. -/
theorem masksAgree_sys_call {H : List (Kernel × Event)} {s s₁ : Kernel} {p : Fin NPROC}
    {tf : Trapframe} {env : Env} {c : Sys} {name : String} {r : Ret}
    (hA : MasksAgree H s) (hp : (s.proc p).state ≠ .UNUSED) (hk : (s.proc p).killed = false)
    (hd : dispatchable (sysnum tf) = some (c, name)) (h : sys_call c s p tf env = some (r, s₁)) :
    MasksAgree ((s, .trap p (.ecall tf env)) :: H) s₁ := by
  intro j hj
  rw [intendedMask_cons_dispatched H hk hd j]
  rcases sys_call_masks hp h j hj with ⟨hj', hm⟩ | ⟨rfl, hfc, hm⟩
  · rw [hm]
    by_cases ht : c = .trace ∧ j = p
    · obtain ⟨rfl, rfl⟩ := ht
      simp
    · -- `j` was live, so it is no fork's child and keeps its intended mask
      have hnf : ¬ (c = .fork ∧ forkChild s env = some j) := by
        rintro ⟨-, hfc⟩
        exact hj' (unusedSlot_spec (forkChild_spec hfc))
      have ht' : ¬ (c = .trace ∧ p = j) := fun h' => ht ⟨h'.1, h'.2.symm⟩
      rw [if_neg ht, if_neg ht', if_neg hnf]
      exact hA j hj'
  · rw [hm, if_neg (by simp), if_pos ⟨rfl, hfc⟩]
    exact hA p hp

/-- The step lemma: one step of the kernel keeps the run invariant. -/
theorem masksAgree_step {H : List (Kernel × Event)} {s s' : Kernel} {e : Event}
    {o : List Printf} (hA : MasksAgree H s) (h : Kernel.step s e = some (s', o)) :
    MasksAgree ((s, e) :: H) s' := by
  obtain ⟨p, c⟩ := e
  simp only [Kernel.step] at h
  split at h
  case isFalse => cases h
  rename_i hrun
  have hp : (s.proc p).state ≠ .UNUSED := by simp [hrun]
  cases c with
  | ecall tf env =>
      rcases usertrap_ecall_state h with ⟨hk, hx⟩ | ⟨hk, s₁, out, b, hsys, hs'⟩
      · exact (hA.of_keeps (keepsMasks_exit hp hx)).of_hist (intendedMask_cons_of_killed H hk)
      · -- first the handler, then possibly `exit(-1)` in the tail
        have hA₁ : MasksAgree ((s, .trap p (.ecall tf env)) :: H) s₁ ∧
            (s₁.proc p).state ≠ .UNUSED := by
          rcases syscall_state hsys with ⟨hd, hs₁⟩ | ⟨c, name, r, hd, hsc⟩
          · rw [hs₁]
            exact ⟨hA.of_hist (intendedMask_cons_of_none H hd), hp⟩
          · exact ⟨masksAgree_sys_call hA hp hk hd hsc, sys_call_caller_live hrun hsc⟩
        rcases hs' with rfl | ht
        · exact hA₁.1
        · exact hA₁.1.of_keeps (keepsMasks_usertrapTail hA₁.2 ht)
  | devintr =>
      refine (hA.of_keeps (keepsMasks_usertrapTail hp h)).of_hist ?_
      exact intendedMask_cons_of_ne_ecall H (by simp)
  | unexpected scause sepc stval =>
      refine MasksAgree.of_hist (intendedMask_cons_of_ne_ecall H (by simp)) ?_
      have hk : (setkilled s p).proc p = { s.proc p with killed := true } := by simp [setkilled]
      refine hA.of_keeps ((keepsMasks_setkilled s p).trans (keepsMasks_usertrapTail ?_ h))
      simp [hk, hp]

/-! ## Whole runs -/

/-- `userinit` runs on a zeroed table, so every mask at boot is `0`. -/
theorem boot_trace_mask (i : Fin NPROC) : (Kernel.boot.proc i).trace_mask = 0 := by
  have hu : unusedSlot Kernel.zero = some 0 := by decide
  simp only [Kernel.boot, userinit, allocproc, hu, if_true, allocpid]
  by_cases hi : i = 0
  · subst hi
    simp [Kernel.zero, Proc.zero]
  · simp [hi, Kernel.zero, Proc.zero]

/-- The run lemma: on every run from boot, every live slot carries the
intended mask of its occupant, whatever earlier occupants of the slot did. -/
theorem masks_agree {h : List (Kernel × Event × List Printf)} {s : Kernel}
    (hr : Machine.Run Kernel.step Kernel.boot h s) : MasksAgree (events h) s :=
  Machine.Run.invariant (fun h s => MasksAgree (events h) s)
    (fun i _ => by simp [boot_trace_mask, events, intendedMask])
    (fun _ _ _ _ _ _ hA hs => masksAgree_step hA hs) hr

/-- What `syscall` prints when a live, unkilled process calls it in any
reachable state: for a number it dispatches to a handler that returns
`v`, the line `"<pid>: syscall <name> -> <(int)v>"` if and only if bit
`num` of the caller's intended mask after this call is set, else nothing;
for a number it rejects, only the `"unknown sys call"` line. -/
theorem syscall_trace_output {h : List (Kernel × Event × List Printf)} {s : Kernel}
    (hr : Machine.Run Kernel.step Kernel.boot h s) {p : Fin NPROC}
    (hp : (s.proc p).state = .RUNNABLE) (hk : (s.proc p).killed = false)
    (tf : Trapframe) (env : Env) :
    (∀ c name v s₁, dispatchable (sysnum tf) = some (c, name) →
      sys_call c s p tf env = some (.ret v, s₁) →
      syscall s p tf env = some (s₁,
        (if (intendedMask ((s, .trap p (.ecall tf env)) :: events h) p).toBitVec.getLsbD
            (sysnum tf).toInt.toNat
          then [traceLine (s₁.proc p).pid name v] else []), true)) ∧
    (dispatchable (sysnum tf) = none →
      syscall s p tf env = some (s, [unknownLine (s.proc p).pid (s.proc p).name (sysnum tf)],
        true)) := by
  have hpu : (s.proc p).state ≠ .UNUSED := by simp [hp]
  constructor
  · intro c name v s₁ hd hsc
    -- the mask `syscall` reads after the handler is the intended one
    have hm : (s₁.proc p).trace_mask = intendedMask ((s, .trap p (.ecall tf env)) :: events h) p :=
      masksAgree_sys_call (masks_agree hr) hpu hk hd hsc p (sys_call_caller_live hp hsc)
    obtain ⟨h0, h1⟩ := dispatchable_range hd
    simp only [syscall, hd, hsc]
    rw [traced_eq_getLsbD _ _ h0 h1, hm]
    split <;> simp_all
  · intro hd
    simp [syscall, hd]

/-- Init sets its mask to trace `fork` and `getpid`, forks, its child
exits and is reaped, and the next fork puts a new child in the freed slot. -/
def forkReuseRun : List Event :=
  [.trap 0 (.ecall ⟨2050, 0, 0, 0, 0, 0, 22⟩ ⟨true, true, true, [], none, 0⟩),
   .trap 0 (.ecall ⟨0, 0, 0, 0, 0, 0, 1⟩ ⟨true, true, true, [], none, 0⟩),
   .trap 1 (.ecall ⟨3, 0, 0, 0, 0, 0, 2⟩ ⟨true, true, true, [], none, 0⟩),
   .trap 0 (.ecall ⟨0, 0, 0, 0, 0, 0, 3⟩ ⟨true, true, true, [], none, 0⟩),
   .trap 0 (.ecall ⟨0, 0, 0, 0, 0, 0, 1⟩ ⟨true, true, true, [], none, 0⟩)]

/-- After `forkReuseRun`, the child in the reused slot 1 calls `getpid`. -/
theorem syscall_trace_output_fork :
    ∃ h s, Machine.Run Kernel.step Kernel.boot h s ∧ h.map (fun x => x.2.1) = forkReuseRun.reverse ∧
      (s.proc 1).state = .RUNNABLE ∧ (s.proc 1).killed = false ∧
      ((∀ c name v s₁,
        dispatchable (sysnum ⟨0, 0, 0, 0, 0, 0, 11⟩) = some (c, name) →
        sys_call c s 1 ⟨0, 0, 0, 0, 0, 0, 11⟩ ⟨true, true, true, [], none, 0⟩ = some (.ret v, s₁) →
        syscall s 1 ⟨0, 0, 0, 0, 0, 0, 11⟩ ⟨true, true, true, [], none, 0⟩ = some (s₁,
          (if (intendedMask ((s, .trap 1 (.ecall ⟨0, 0, 0, 0, 0, 0, 11⟩ ⟨true, true, true, [], none, 0⟩)) ::
              events h) 1).toBitVec.getLsbD (sysnum ⟨0, 0, 0, 0, 0, 0, 11⟩).toInt.toNat
            then [traceLine (s₁.proc 1).pid name v] else []), true)) ∧
      (dispatchable (sysnum ⟨0, 0, 0, 0, 0, 0, 11⟩) = none →
        syscall s 1 ⟨0, 0, 0, 0, 0, 0, 11⟩ ⟨true, true, true, [], none, 0⟩ =
          some (s, [unknownLine (s.proc 1).pid (s.proc 1).name (sysnum ⟨0, 0, 0, 0, 0, 0, 11⟩)], true))) := by
  obtain ⟨⟨h, s⟩, hx⟩ := Option.isSome_iff_exists.mp
    (by decide +kernel : (Machine.exec Kernel.step Kernel.boot [] forkReuseRun).isSome)
  obtain ⟨hr, hev⟩ := Machine.run_of_exec hx
  have hp : (s.proc 1).state = .RUNNABLE := Machine.exec_map_eq hx (fun r => (r.2.proc 1).state) (by decide +kernel)
  have hk : (s.proc 1).killed = false := Machine.exec_map_eq hx (fun r => (r.2.proc 1).killed) (by decide +kernel)
  exact ⟨h, s, hr, hev, hp, hk, syscall_trace_output hr hp hk _ _⟩

end Xv6
