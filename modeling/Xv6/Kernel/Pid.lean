/-
# `Xv6.Kernel.Pid` — process ids, and the counter they come from

`allocpid` hands out `nextpid` and advances it, an `int` that nothing
checks; `allocproc` calls it before it knows whether the allocation will
succeed.  A step of the kernel keeps the pid of every slot that stays live,
and hands the old `nextpid` to at most one slot that was free (`PidStep`).
So as long as the counter has not wrapped, the live pids are positive,
below `nextpid` and pairwise distinct (`PidInv`); a run of fewer than
`2^31 - 2` steps from boot cannot wrap it.

A shell does not need more than one slot for that: one turn of
`fork`, `exit(0)` in the child and `wait(0)` in the parent (`spawnReap`)
puts the table back as it was with `nextpid` one higher.  After `2^31 - 2`
turns the next child gets pid `-2^31`; after `2^32 - 1` turns the next
child gets pid `1`, which init still holds.

**Proved here.**

    pidStep_step            what one step does to the pids
    pids_unique_before_wrap on a run of fewer than 2^31 - 2 steps from
                            boot, live pids are positive and distinct
    spawnReady_cycle        one turn of spawnReap advances nextpid alone
    pid_wraps_to_init       runs from boot that give a live process a
                            negative pid, and two live processes pid 1
-/
import Xv6.Kernel.Tree

namespace Xv6

/-! ## What a step does to the pids -/

/-- `s'` brings no free slot of `s` to life, keeps the pid of every slot
live in it, and keeps `nextpid`. -/
def KeepsPids (s s' : Kernel) : Prop :=
  s'.nextpid = s.nextpid ∧ ∀ j, (s'.proc j).state ≠ .UNUSED →
    (s.proc j).state ≠ .UNUSED ∧ (s'.proc j).pid = (s.proc j).pid

/-- What one step does to the pids: besides keeping the pid of every live
slot, it may hand `nextpid` to one slot that was free and advance it, or
advance it alone (a `fork` whose allocation failed). -/
def PidStep (s s' : Kernel) : Prop :=
  (s'.nextpid = s.nextpid ∨ s'.nextpid = s.nextpid + 1) ∧
  ∃ i, ∀ j, (s'.proc j).state ≠ .UNUSED →
    ((s.proc j).state ≠ .UNUSED ∧ (s'.proc j).pid = (s.proc j).pid) ∨
    (j = i ∧ (s'.proc j).pid = s.nextpid ∧ s'.nextpid = s.nextpid + 1)

section Steps

variable {s s' s₁ s₂ s₃ : Kernel}

theorem KeepsPids.refl (s : Kernel) : KeepsPids s s :=
  ⟨rfl, fun _ hj => ⟨hj, rfl⟩⟩

theorem KeepsPids.trans (h₁ : KeepsPids s₁ s₂) (h₂ : KeepsPids s₂ s₃) : KeepsPids s₁ s₃ := by
  refine ⟨h₂.1.trans h₁.1, fun j hj => ?_⟩
  obtain ⟨hj₂, hp₂⟩ := h₂.2 j hj
  obtain ⟨hj₁, hp₁⟩ := h₁.2 j hj₂
  exact ⟨hj₁, hp₂.trans hp₁⟩

theorem KeepsPids.toStep (h : KeepsPids s₁ s₂) : PidStep s₁ s₂ :=
  ⟨Or.inl h.1, 0, fun j hj => Or.inl (h.2 j hj)⟩

theorem PidStep.keeps (h : PidStep s₁ s₂) (h' : KeepsPids s₂ s₃) : PidStep s₁ s₃ := by
  obtain ⟨hn, i, hi⟩ := h
  refine ⟨h'.1 ▸ hn, i, fun j hj => ?_⟩
  obtain ⟨hj₂, hp⟩ := h'.2 j hj
  rw [hp, h'.1]
  exact hi j hj₂

/-- Overwriting a slot with a record that is free, or that keeps a live
slot's pid. -/
theorem keepsPids_setProc {i : Fin NPROC} {q : Proc}
    (hq : q.state ≠ .UNUSED → (s.proc i).state ≠ .UNUSED ∧ q.pid = (s.proc i).pid) :
    KeepsPids s (s.setProc i q) := by
  refine ⟨rfl, fun j hj => ?_⟩
  by_cases hji : j = i
  · subst hji
    rw [Kernel.setProc_proc_self] at hj ⊢
    exact hq hj
  · rw [Kernel.setProc_proc_of_ne _ _ hji] at hj ⊢
    exact ⟨hj, rfl⟩

theorem keepsPids_freeproc (s : Kernel) (i : Fin NPROC) : KeepsPids s (freeproc s i) :=
  keepsPids_setProc fun h => absurd rfl h

theorem keepsPids_reparent (s : Kernel) (p : Fin NPROC) : KeepsPids s (reparent s p) := by
  refine ⟨rfl, fun j hj => ?_⟩
  rw [reparent_proc] at hj ⊢
  split at hj
  · rw [if_pos (by assumption)]
    exact ⟨hj, rfl⟩
  · rw [if_neg (by assumption)]
    exact ⟨hj, rfl⟩

theorem keepsPids_exit {p : Fin NPROC} {status : Int32} (hp : (s.proc p).state ≠ .UNUSED)
    (h : exit s p status = some s') : KeepsPids s s' := by
  rw [exit_eq] at h
  split at h
  · cases h
  · cases h
    refine (keepsPids_reparent s p).trans (keepsPids_setProc fun _ => ⟨?_, rfl⟩)
    simpa [reparent_proc, apply_ite Proc.state] using hp

theorem keepsPids_kill (s : Kernel) (pid : Int32) : KeepsPids s (kill s pid).2 := by
  rcases kill_spec s pid with ⟨_, hk⟩ | ⟨i, _, hk⟩ <;> rw [hk]
  · exact KeepsPids.refl s
  · refine keepsPids_setProc fun hq => ⟨?_, rfl⟩
    intro hu
    simp [hu] at hq

theorem keepsPids_setkilled (s : Kernel) (p : Fin NPROC) : KeepsPids s (setkilled s p) :=
  keepsPids_setProc fun h => ⟨by simpa using h, rfl⟩

theorem keepsPids_wait {p : Fin NPROC} {addr : UInt64} {ok : Bool} {r : Int32}
    (h : wait s p addr ok = some (r, s')) : KeepsPids s s' := by
  rcases wait_spec s p addr ok with hw | ⟨i, _, hw⟩ | hw <;> rw [hw] at h <;> cases h
  · exact KeepsPids.refl s
  · exact keepsPids_freeproc s i

theorem keepsPids_usertrapTail {p : Fin NPROC} {out out' : List Printf}
    (hp : (s.proc p).state ≠ .UNUSED) (h : usertrapTail s p out = some (s', out')) :
    KeepsPids s s' := by
  unfold usertrapTail at h
  split at h
  · obtain ⟨s₁, hx, hs₁⟩ := Option.map_eq_some_iff.mp h
    cases hs₁
    exact keepsPids_exit hp hx
  · cases h
    exact KeepsPids.refl s

/-- `fork` hands `nextpid` to its child, or advances it alone when an
allocation fails. -/
theorem pidStep_fork {p : Fin NPROC} (hp : (s.proc p).state ≠ .UNUSED) (a c : Bool) :
    PidStep s (fork s p a c).2 := by
  rcases fork_spec s p a c hp with ⟨_, hk⟩ | ⟨i, _, _, hk⟩ | ⟨i, hu, _, _, hk⟩ <;> rw [hk]
  · exact (KeepsPids.refl s).toStep
  · -- the slot went back through `freeproc`: only `nextpid` moved
    refine ⟨Or.inr rfl, i, fun j hj => Or.inl ?_⟩
    have hji : j ≠ i := by
      rintro rfl
      simp at hj
    simp only [freeproc_proc, if_neg hji, Kernel.setProc_proc_of_ne _ _ hji] at hj ⊢
    exact ⟨hj, rfl⟩
  · refine ⟨Or.inr rfl, i, fun j hj => ?_⟩
    by_cases hji : j = i
    · subst hji
      exact Or.inr ⟨rfl, by simp, rfl⟩
    · simp only [Kernel.setProc_proc_of_ne _ _ hji] at hj ⊢
      exact Or.inl ⟨hj, rfl⟩

/-- Every handler but `fork` keeps the pids. -/
theorem pidStep_sys_call {c : Sys} {p : Fin NPROC} {tf : Trapframe} {env : Env} {r : Ret}
    (hp : (s.proc p).state ≠ .UNUSED) (h : sys_call c s p tf env = some (r, s')) :
    PidStep s s' := by
  cases c with
  | fork =>
      simp only [sys_call, Option.some.injEq, Prod.mk.injEq] at h
      rw [← h.2]
      exact pidStep_fork hp _ _
  | exit =>
      obtain ⟨s₂, hx, hs⟩ := Option.map_eq_some_iff.mp h
      cases hs
      exact (keepsPids_exit hp hx).toStep
  | wait =>
      obtain ⟨⟨r', s₂⟩, hx, hs⟩ := Option.map_eq_some_iff.mp h
      cases hs
      exact (keepsPids_wait hx).toStep
  | kill =>
      simp only [sys_call, Option.some.injEq, Prod.mk.injEq] at h
      rw [← h.2]
      exact (keepsPids_kill s _).toStep
  | exec =>
      simp only [sys_call] at h
      split at h <;> cases h
      · exact KeepsPids.toStep (keepsPids_setProc fun _ => ⟨hp, rfl⟩)
      · exact (KeepsPids.refl s).toStep
  | trace =>
      simp only [sys_call, Option.some.injEq, Prod.mk.injEq] at h
      rw [← h.2]
      exact KeepsPids.toStep (keepsPids_setProc fun _ => ⟨hp, rfl⟩)
  | _ =>
      simp only [sys_call, Option.some.injEq, Prod.mk.injEq] at h
      rw [← h.2]
      exact (KeepsPids.refl s).toStep

/-- The step lemma: what one step of the kernel does to the pids. -/
theorem pidStep_step {e : Event} {o : List Printf} (h : Kernel.step s e = some (s', o)) :
    PidStep s s' := by
  obtain ⟨p, c⟩ := e
  simp only [Kernel.step] at h
  split at h
  case isFalse => cases h
  rename_i hrun
  have hp : (s.proc p).state ≠ .UNUSED := by simp [hrun]
  cases c with
  | ecall tf env =>
      rcases usertrap_ecall_state h with ⟨-, hx⟩ | ⟨-, s₁, out, b, hsys, hs'⟩
      · exact (keepsPids_exit hp hx).toStep
      · -- the handler, then possibly `exit(-1)` in the tail
        have h₁ : PidStep s s₁ ∧ (s₁.proc p).state ≠ .UNUSED := by
          rcases syscall_state hsys with ⟨-, hs₁⟩ | ⟨c, name, r, -, hsc⟩
          · rw [hs₁]
            exact ⟨(KeepsPids.refl s).toStep, hp⟩
          · exact ⟨pidStep_sys_call hp hsc, sys_call_caller_live hrun hsc⟩
        rcases hs' with rfl | ht
        · exact h₁.1
        · exact h₁.1.keeps (keepsPids_usertrapTail h₁.2 ht)
  | devintr => exact (keepsPids_usertrapTail hp h).toStep
  | unexpected scause sepc stval =>
      refine ((keepsPids_setkilled s p).trans (keepsPids_usertrapTail ?_ h)).toStep
      simp [setkilled, hp]

end Steps

/-! ## Before the counter wraps -/

/-- Below `INT_MAX`, adding one to an `int` does not wrap. -/
theorem toInt_add_one_of_lt {x : Int32} (h : x.toInt < 2 ^ 31 - 1) : (x + 1).toInt = x.toInt + 1 := by
  have hlow := x.le_toInt
  rw [Int32.toInt_add, Int32.toInt_one]
  exact Int.bmod_eq_of_le (by norm_num; omega) (by norm_num; omega)

/-- The live pids are positive, below `nextpid`, and pairwise distinct. -/
structure PidInv (s : Kernel) : Prop where
  pos : ∀ j, (s.proc j).state ≠ .UNUSED → 0 < (s.proc j).pid.toInt
  lt : ∀ j, (s.proc j).state ≠ .UNUSED → (s.proc j).pid.toInt < s.nextpid.toInt
  inj : ∀ j k, (s.proc j).state ≠ .UNUSED → (s.proc k).state ≠ .UNUSED →
    (s.proc j).pid = (s.proc k).pid → j = k

section Unwrapped

variable {s s' : Kernel}

/-- A step that does not wrap `nextpid` keeps the pids apart: the one pid
it hands out is above every live one. -/
theorem PidInv.step (hI : PidInv s) (hs : PidStep s s') (hpos : 0 < s.nextpid.toInt)
    (hmax : s.nextpid.toInt < 2 ^ 31 - 1) :
    PidInv s' ∧ s.nextpid.toInt ≤ s'.nextpid.toInt ∧ s'.nextpid.toInt ≤ s.nextpid.toInt + 1 := by
  obtain ⟨hn, i, hi⟩ := hs
  have hadd := toInt_add_one_of_lt hmax
  have hnext : s.nextpid.toInt ≤ s'.nextpid.toInt ∧ s'.nextpid.toInt ≤ s.nextpid.toInt + 1 := by
    rcases hn with hn | hn <;> rw [hn]
    · omega
    · omega
  refine ⟨⟨fun j hj => ?_, fun j hj => ?_, fun j k hj hk heq => ?_⟩, hnext⟩
  · rcases hi j hj with ⟨hj₀, hp⟩ | ⟨-, hp, -⟩ <;> rw [hp]
    · exact hI.pos j hj₀
    · exact hpos
  · rcases hi j hj with ⟨hj₀, hp⟩ | ⟨-, hp, hn'⟩ <;> rw [hp]
    · exact lt_of_lt_of_le (hI.lt j hj₀) hnext.1
    · rw [hn', hadd]
      omega
  · -- an old pid is below `nextpid`, the new one is `nextpid`
    rcases hi j hj with ⟨hj₀, hpj⟩ | ⟨rfl, hpj, -⟩ <;>
      rcases hi k hk with ⟨hk₀, hpk⟩ | ⟨hki, hpk, -⟩
    · exact hI.inj j k hj₀ hk₀ (hpj.symm.trans (heq.trans hpk))
    · have hlt := hI.lt j hj₀
      rw [← hpj, heq, hpk] at hlt
      exact absurd hlt (lt_irrefl _)
    · have hlt := hI.lt k hk₀
      rw [← hpk, ← heq, hpj] at hlt
      exact absurd hlt (lt_irrefl _)
    · exact hki.symm

end Unwrapped

theorem pidInv_boot : PidInv Kernel.boot where
  pos j hj := by
    rw [(boot_proc_tree j).2 hj]
    decide
  lt j hj := by
    rw [(boot_proc_tree j).2 hj]
    decide
  inj j k hj hk _ := ((boot_proc_tree j).2 hj).trans ((boot_proc_tree k).2 hk).symm

/-- The run lemma: `nextpid` counts at most one allocation per step, so a
run shorter than `2^31 - 2` steps keeps it below `INT_MAX` and the pids
apart. -/
theorem pidInv_run {h : List (Kernel × Event × List Printf)} {s : Kernel}
    (hr : Machine.Run Kernel.step Kernel.boot h s) :
    h.length < 2 ^ 31 - 2 → PidInv s ∧ 2 ≤ s.nextpid.toInt ∧ s.nextpid.toInt ≤ h.length + 2 := by
  refine Machine.Run.invariant
    (fun h s => h.length < 2 ^ 31 - 2 → PidInv s ∧ 2 ≤ s.nextpid.toInt ∧ s.nextpid.toInt ≤ h.length + 2)
    (fun _ => ⟨pidInv_boot, by decide, by decide⟩) ?_ hr
  intro h s e s' o _ ih hs hlen
  simp only [List.length_cons] at hlen ⊢
  obtain ⟨hI, hlo, hhi⟩ := ih (by omega)
  obtain ⟨hI', hmono, hsucc⟩ := hI.step (pidStep_step hs) (by omega) (by omega)
  exact ⟨hI', by omega, by omega⟩

theorem pids_unique_before_wrap {h : List (Kernel × Event × List Printf)} {s : Kernel}
    (hr : Machine.Run Kernel.step Kernel.boot h s) (hlen : h.length < 2 ^ 31 - 2) :
    (∀ j, (s.proc j).state ≠ .UNUSED → 0 < (s.proc j).pid) ∧
    (∀ j k, (s.proc j).state ≠ .UNUSED → (s.proc k).state ≠ .UNUSED →
      (s.proc j).pid = (s.proc k).pid → j = k) := by
  obtain ⟨hI, -, -⟩ := pidInv_run hr hlen
  refine ⟨fun j hj => ?_, hI.inj⟩
  rw [Int32.lt_iff_toInt_lt, Int32.toInt_zero]
  exact hI.pos j hj

/-! ## After the counter wraps -/

/-- Two tables with the same slots, counter and first process are equal. -/
theorem Kernel.ext_of {s t : Kernel} (hp : s.proc = t.proc) (hn : s.nextpid = t.nextpid)
    (hi : s.initproc = t.initproc) : s = t := by
  cases s
  cases t
  simp_all

/-- `reparent` of a process with no children changes nothing. -/
theorem reparent_of_no_child {s : Kernel} {p : Fin NPROC} (h : ∀ j, (s.proc j).parent ≠ some p) :
    reparent s p = s :=
  Kernel.ext_of (funext fun j => by simp [h j]) rfl rfl

/-- `wait`'s scan reaches slot 1 after slot 0. -/
theorem zombieChild_of_one {s : Kernel} {p : Fin NPROC} (h₀ : (s.proc 0).state ≠ .ZOMBIE)
    (h₁ : (s.proc 1).parent = some p ∧ (s.proc 1).state = .ZOMBIE) : zombieChild s p = some 1 := by
  obtain ⟨rest, hrange⟩ : ∃ rest, List.finRange NPROC = 0 :: 1 :: rest :=
    ⟨(List.finRange NPROC).drop 2, by decide⟩
  simp [zombieChild, hrange, h₀, h₁]

/-- A call of a process that can run, unkilled, whose handler returns with
the caller untraced for that call and still unkilled: the step is the
handler's, and prints nothing. -/
theorem step_ecall_ret {s s₁ : Kernel} {p : Fin NPROC} {tf : Trapframe} {env : Env} {c : Sys}
    {name : String} {v : UInt64} (hrun : (s.proc p).state = .RUNNABLE)
    (hk : (s.proc p).killed = false) (hd : dispatchable (sysnum tf) = some (c, name))
    (hc : sys_call c s p tf env = some (.ret v, s₁))
    (ht : traced (s₁.proc p).trace_mask (sysnum tf) = false) (hk₁ : (s₁.proc p).killed = false) :
    Kernel.step s (.trap p (.ecall tf env)) = some (s₁, []) := by
  simp [Kernel.step, hrun, usertrap, hk, syscall, hd, hc, ht, usertrapTail, hk₁]

/-- A call whose handler does not return (`exit`). -/
theorem step_ecall_noreturn {s s₁ : Kernel} {p : Fin NPROC} {tf : Trapframe} {env : Env} {c : Sys}
    {name : String} (hrun : (s.proc p).state = .RUNNABLE) (hk : (s.proc p).killed = false)
    (hd : dispatchable (sysnum tf) = some (c, name)) (hc : sys_call c s p tf env = some (.noreturn, s₁)) :
    Kernel.step s (.trap p (.ecall tf env)) = some (s₁, []) := by
  simp [Kernel.step, hrun, usertrap, hk, syscall, hd, hc]

/-- A table in which init, in slot 0, can run, unkilled and untraced, and
slot 1 is the first free slot, as zeroed, with no process below it. -/
structure SpawnReady (s : Kernel) : Prop where
  init : s.initproc = some 0
  run : (s.proc 0).state = .RUNNABLE
  killed : (s.proc 0).killed = false
  mask : (s.proc 0).trace_mask = 0
  fresh : s.proc 1 = Proc.zero
  first : unusedSlot s = some 1
  orphan : ∀ j, (s.proc j).parent ≠ some 1

/-- Every allocation and copy succeeds. -/
def plenty : Env := ⟨true, true, true, [], none, 0⟩

/-- One turn of a shell: init forks, the child calls `exit(0)` at once,
and init calls `wait(0)`. -/
def spawnReap : List Event :=
  [.trap 0 (.ecall ⟨0, 0, 0, 0, 0, 0, 1⟩ plenty),
   .trap 1 (.ecall ⟨0, 0, 0, 0, 0, 0, 2⟩ plenty),
   .trap 0 (.ecall ⟨0, 0, 0, 0, 0, 0, 3⟩ plenty)]

/-- The child a turn of `spawnReap` puts in slot 1. -/
def spawnChild (s : Kernel) : Proc :=
  { Proc.zero with pid := s.nextpid, state := .RUNNABLE, name := (s.proc 0).name, parent := some 0 }

attribute [grind] plenty spawnChild

section Spawn

variable {s : Kernel}

theorem fin_zero_ne_one : (0 : Fin NPROC) ≠ 1 := by decide

theorem nproc_ne_one : NPROC ≠ 1 := by decide

/-- The `fork`: the child takes slot 1 and the pid `nextpid`. -/
theorem SpawnReady.step_fork (hs : SpawnReady s) :
    Kernel.step s (.trap 0 (.ecall ⟨0, 0, 0, 0, 0, 0, 1⟩ plenty)) =
      some ({ s.setProc 1 (spawnChild s) with nextpid := s.nextpid + 1 }, []) := by
  have hf : fork s 0 true true = (s.nextpid, { s.setProc 1 (spawnChild s) with nextpid := s.nextpid + 1 }) := by
    rcases fork_spec s 0 true true (by simp [hs.run]) with ⟨hn, -⟩ | ⟨i, -, hac, -⟩ |
      ⟨i, hu, -, -, hf⟩
    · rw [hs.first] at hn
      cases hn
    · cases hac
    · rw [hs.first, Option.some.injEq] at hu
      subst hu
      rw [hf]
      simp [spawnChild, hs.fresh, hs.mask, Proc.zero, allocpid, Kernel.setProc]
  have hd : dispatchable (sysnum ⟨0, 0, 0, 0, 0, 0, 1⟩) = some (.fork, "fork") := by decide
  refine step_ecall_ret (v := sysRet s.nextpid) hs.run hs.killed hd ?_ ?_ ?_
  · simp [sys_call, plenty, hf]
  · simp only [Kernel.setProc_proc_of_ne _ _ fin_zero_ne_one, hs.mask]
    decide
  · simp [Kernel.setProc_proc_of_ne _ _ fin_zero_ne_one, hs.killed]

/-- The child's `exit(0)`: it has no children, so it only becomes a
zombie. -/
theorem SpawnReady.step_exit (hs : SpawnReady s) :
    Kernel.step { s.setProc 1 (spawnChild s) with nextpid := s.nextpid + 1 }
        (.trap 1 (.ecall ⟨0, 0, 0, 0, 0, 0, 2⟩ plenty)) =
      some ({ s.setProc 1 { spawnChild s with xstate := 0, state := .ZOMBIE } with
        nextpid := s.nextpid + 1 }, []) := by
  have hd : dispatchable (sysnum ⟨0, 0, 0, 0, 0, 0, 2⟩) = some (.exit, "exit") := by decide
  -- nothing hangs below slot 1: the child's parent is init, and no other slot had it
  have hno : ∀ j, (({ s.setProc 1 (spawnChild s) with nextpid := s.nextpid + 1 } : Kernel).proc j).parent ≠
      some 1 := by
    intro j
    by_cases hj : j = 1
    · subst hj
      simp [spawnChild, nproc_ne_one]
    · simp [Kernel.setProc_proc_of_ne _ _ hj, hs.orphan j]
  have hre := reparent_of_no_child hno
  have harg : argint ⟨0, 0, 0, 0, 0, 0, 2⟩ 0 = 0 := by decide
  refine step_ecall_noreturn (by simp [spawnChild]) (by simp [spawnChild, Proc.zero]) hd ?_
  simp only [sys_call, exit_eq, hre]
  simp [hs.init, nproc_ne_one, harg, Kernel.setProc]

/-- Init's `wait(0)` reaps the zombie: slot 1 is as zeroed again. -/
theorem SpawnReady.step_wait (hs : SpawnReady s) :
    Kernel.step { s.setProc 1 { spawnChild s with xstate := 0, state := .ZOMBIE } with
        nextpid := s.nextpid + 1 } (.trap 0 (.ecall ⟨0, 0, 0, 0, 0, 0, 3⟩ plenty)) =
      some ({ s with nextpid := s.nextpid + 1 }, []) := by
  have hd : dispatchable (sysnum ⟨0, 0, 0, 0, 0, 0, 3⟩) = some (.wait, "wait") := by decide
  have hz : zombieChild { s.setProc 1 { spawnChild s with xstate := 0, state := .ZOMBIE } with
      nextpid := s.nextpid + 1 } 0 = some 1 :=
    zombieChild_of_one (by simp [Kernel.setProc_proc_of_ne _ _ fin_zero_ne_one, hs.run])
      (by simp [spawnChild])
  have hfree : freeproc { s.setProc 1 { spawnChild s with xstate := 0, state := .ZOMBIE } with
      nextpid := s.nextpid + 1 } 1 = { s with nextpid := s.nextpid + 1 } := by
    refine Kernel.ext_of (funext fun j => ?_) rfl rfl
    by_cases hj : j = 1
    · subst hj
      simp [spawnChild, hs.fresh, Proc.zero]
    · simp [hj]
  have haddr : argaddr ⟨0, 0, 0, 0, 0, 0, 3⟩ 0 = 0 := rfl
  refine step_ecall_ret (v := sysRet s.nextpid) (by simp [Kernel.setProc_proc_of_ne _ _ fin_zero_ne_one, hs.run])
    (by simp [Kernel.setProc_proc_of_ne _ _ fin_zero_ne_one, hs.killed]) hd ?_ ?_ ?_
  · simp only [sys_call, wait, hz, haddr, hfree]
    simp [spawnChild]
  · show traced (s.proc 0).trace_mask _ = false
    rw [hs.mask]
    decide
  · exact hs.killed

/-- One turn of `spawnReap` leaves the table as it was, with `nextpid` one
higher. -/
theorem spawnReady_cycle (hs : SpawnReady s) :
    ∃ hist, Machine.Run Kernel.step s hist { s with nextpid := s.nextpid + 1 } :=
  ⟨_, ((Machine.Run.nil.cons hs.step_fork).cons hs.step_exit).cons hs.step_wait⟩

theorem SpawnReady.with_nextpid (hs : SpawnReady s) (k : Int32) : SpawnReady { s with nextpid := k } :=
  ⟨hs.init, hs.run, hs.killed, hs.mask, hs.fresh, hs.first, hs.orphan⟩

/-- `n` turns: the table as it was, with `nextpid` advanced by `n`. -/
theorem SpawnReady.cycles (hs : SpawnReady s) (n : Nat) :
    ∃ hist, Machine.Run Kernel.step s hist { s with nextpid := s.nextpid + Int32.ofNat n } := by
  induction n with
  | zero => exact ⟨[], by simpa using Machine.Run.nil⟩
  | succ n ih =>
      obtain ⟨hist, hr⟩ := ih
      obtain ⟨hist', hr'⟩ := spawnReady_cycle (hs.with_nextpid (s.nextpid + Int32.ofNat n))
      refine ⟨hist' ++ hist, ?_⟩
      rw [Int32.ofNat_add, ← Int32.add_assoc]
      exact hr.append hr'

end Spawn

theorem spawnReady_boot : SpawnReady Kernel.boot :=
  ⟨by decide, by decide, by decide, by decide, by decide, by decide, by decide⟩

/-- After `n` turns from boot, one more `fork`: init in slot 0 with pid
`1`, and its child in slot 1 with pid `2 + n`. -/
theorem spawn_after (n : Nat) : ∃ hist s, Machine.Run Kernel.step Kernel.boot hist s ∧
    (s.proc 0).state = .RUNNABLE ∧ (s.proc 0).pid = 1 ∧
    (s.proc 1).state = .RUNNABLE ∧ (s.proc 1).pid = 2 + Int32.ofNat n := by
  obtain ⟨hist, hr⟩ := spawnReady_boot.cycles n
  have hs := spawnReady_boot.with_nextpid (Kernel.boot.nextpid + Int32.ofNat n)
  have hnext : Kernel.boot.nextpid = 2 := by decide
  refine ⟨_, _, hr.cons hs.step_fork, ?_, ?_, ?_, ?_⟩
  · simp only [Kernel.setProc_proc_of_ne _ _ fin_zero_ne_one]
    decide
  · simp only [Kernel.setProc_proc_of_ne _ _ fin_zero_ne_one]
    decide
  · simp [spawnChild]
  · simp [spawnChild, hnext]

theorem pid_wraps_to_init :
    (∃ hist s, Machine.Run Kernel.step Kernel.boot hist s ∧
      (s.proc 1).state ≠ .UNUSED ∧ (s.proc 1).pid < 0) ∧
    (∃ hist s, Machine.Run Kernel.step Kernel.boot hist s ∧
      (s.proc 0).state ≠ .UNUSED ∧ (s.proc 1).state ≠ .UNUSED ∧
      (s.proc 0).pid = 1 ∧ (s.proc 1).pid = 1) := by
  -- `2^31 - 2` turns bring `nextpid` to `2^31`, which is `-2^31` as an `int`
  obtain ⟨h₁, s₁, hr₁, -, -, hst₁, hpid₁⟩ := spawn_after (2 ^ 31 - 2)
  -- `2^32 - 1` turns bring it round to `1`
  obtain ⟨h₂, s₂, hr₂, hst₀, hpid₀, hst₂, hpid₂⟩ := spawn_after (2 ^ 32 - 1)
  refine ⟨⟨h₁, s₁, hr₁, by simp [hst₁], ?_⟩, ⟨h₂, s₂, hr₂, by simp [hst₀], by simp [hst₂], hpid₀, ?_⟩⟩
  · rw [hpid₁]
    decide
  · rw [hpid₂]
    decide

end Xv6
