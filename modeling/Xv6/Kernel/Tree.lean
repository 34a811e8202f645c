/-
# `Xv6.Kernel.Tree` — the process tree, and what `wait` reaps

`exit` hands every child of the exiting process, zombies included, to
`initproc` before it marks itself `ZOMBIE`, and `initproc` never exits;
`fork` hangs its child below the caller; `wait` frees only a `ZOMBIE`
child of its caller.  Over every run from boot this keeps the tree the
comments of `proc.c` rely on (`TreeInv`):

    initproc is live and never a zombie;
    the parent of every live slot is live and no zombie;
    every live slot but initproc has a parent.

`kill`, `setkilled`, `exec` and `trace` change no state between live,
dead and zombie and no parent (`SameTree`); `fork` fills a free slot below
a live caller; `wait` and a failed `fork` free a slot no live slot hangs
below; `exit` moves the children before the zombie is made.

**Proved here.**

    TreeInv.step          one step of the kernel machine keeps the tree
    treeInv_run           so does every run from boot
    wait_returns          a wait that returns either leaves the table as it
                          was and returns -1, for one of its three reasons,
                          or frees exactly one ZOMBIE child and returns its
                          pid, and getnproc drops by one
    wait_fails            and each of the three reasons makes it return -1
-/
import Xv6.Kernel.Trace

namespace Xv6

/-! ## Counting live slots -/

/-- Taking one member of a list without duplicates out of a count lowers
the count by one. -/
theorem countP_off_add_one {α : Type} {l : List α} (hl : l.Nodup) {i : α} (hi : i ∈ l)
    {f g : α → Bool} (hf : f i = true) (hg : g i = false) (hfg : ∀ j, j ≠ i → g j = f j) :
    l.countP g + 1 = l.countP f := by
  induction l with
  | nil => cases hi
  | cons a l ih =>
      obtain ⟨ha, hl⟩ := List.nodup_cons.mp hl
      by_cases hai : a = i
      · subst hai
        -- the rest of the list does not hold `a`, so the two counts agree there
        have hrest : l.countP g = l.countP f :=
          List.countP_congr fun j hj => by rw [hfg j (fun h => ha (h ▸ hj))]
        simp [hf, hg, hrest]
      · have hi' : i ∈ l := (List.mem_cons.mp hi).resolve_left (Ne.symm hai)
        have := ih hl hi'
        simp only [List.countP_cons, hfg a hai]
        omega

/-- `freeproc` of a live slot lowers `getnproc` by one. -/
theorem getnproc_freeproc {s : Kernel} {i : Fin NPROC} (hi : (s.proc i).state ≠ .UNUSED) :
    getnproc (freeproc s i) + 1 = getnproc s := by
  unfold getnproc
  refine countP_off_add_one (List.nodup_finRange NPROC) (List.mem_finRange i)
    (by simpa using hi) (by simp) fun j hj => ?_
  simp [hj]

/-! ## The tree -/

/-- The tree `exit`, `wait` and `reparent` keep. -/
structure TreeInv (s : Kernel) : Prop where
  init : ∃ i, s.initproc = some i ∧ (s.proc i).state ≠ .UNUSED ∧ (s.proc i).state ≠ .ZOMBIE
  parent : ∀ j q, (s.proc j).state ≠ .UNUSED → (s.proc j).parent = some q →
    (s.proc q).state ≠ .UNUSED ∧ (s.proc q).state ≠ .ZOMBIE
  orphan : ∀ j, (s.proc j).state ≠ .UNUSED → s.initproc ≠ some j → (s.proc j).parent ≠ none

section Tree

variable {s s' : Kernel}

/-- No live slot hangs below a free slot or a zombie. -/
theorem TreeInv.parent_ne (hI : TreeInv s) {i j : Fin NPROC}
    (hi : (s.proc i).state = .UNUSED ∨ (s.proc i).state = .ZOMBIE)
    (hj : (s.proc j).state ≠ .UNUSED) : (s.proc j).parent ≠ some i := by
  intro hji
  obtain ⟨hu, hz⟩ := hI.parent j i hj hji
  rcases hi with hi | hi
  · exact hu hi
  · exact hz hi

/-- A free slot or a zombie is not the first process. -/
theorem TreeInv.initproc_ne (hI : TreeInv s) {i : Fin NPROC}
    (hi : (s.proc i).state = .UNUSED ∨ (s.proc i).state = .ZOMBIE) : s.initproc ≠ some i := by
  obtain ⟨i₀, h₀, hu, hz⟩ := hI.init
  rw [h₀]
  intro h
  cases h
  rcases hi with hi | hi
  · exact hu hi
  · exact hz hi

/-- `s'` has the first process, the free slots, the zombies and the
parents of `s`. -/
structure SameTree (s s' : Kernel) : Prop where
  initproc : s'.initproc = s.initproc
  unused : ∀ j, (s'.proc j).state = .UNUSED ↔ (s.proc j).state = .UNUSED
  zombie : ∀ j, (s'.proc j).state = .ZOMBIE ↔ (s.proc j).state = .ZOMBIE
  parent : ∀ j, (s'.proc j).parent = (s.proc j).parent

theorem SameTree.refl (s : Kernel) : SameTree s s :=
  ⟨rfl, fun _ => Iff.rfl, fun _ => Iff.rfl, fun _ => rfl⟩

theorem TreeInv.of_same (hI : TreeInv s) (h : SameTree s s') : TreeInv s' where
  init := by
    obtain ⟨i, h₀, hu, hz⟩ := hI.init
    exact ⟨i, h.initproc ▸ h₀, by rwa [Ne, h.unused], by rwa [Ne, h.zombie]⟩
  parent j q hj hjq := by
    rw [Ne, h.unused] at hj
    rw [h.parent] at hjq
    obtain ⟨hu, hz⟩ := hI.parent j q hj hjq
    exact ⟨by rwa [Ne, h.unused], by rwa [Ne, h.zombie]⟩
  orphan j hj hi := by
    rw [Ne, h.unused] at hj
    rw [h.initproc] at hi
    rw [h.parent]
    exact hI.orphan j hj hi

/-- Overwriting a slot with a record in the same kind of state, below the
same parent. -/
theorem sameTree_setProc {i : Fin NPROC} {q : Proc}
    (hu : q.state = .UNUSED ↔ (s.proc i).state = .UNUSED)
    (hz : q.state = .ZOMBIE ↔ (s.proc i).state = .ZOMBIE) (hp : q.parent = (s.proc i).parent) :
    SameTree s (s.setProc i q) where
  initproc := rfl
  unused j := by
    by_cases hji : j = i
    · subst hji; simpa using hu
    · simp [hji]
  zombie j := by
    by_cases hji : j = i
    · subst hji; simpa using hz
    · simp [hji]
  parent j := by
    by_cases hji : j = i
    · subst hji; simpa using hp
    · simp [hji]

theorem sameTree_allocpid (s : Kernel) : SameTree s (allocpid s).2 :=
  ⟨rfl, fun _ => Iff.rfl, fun _ => Iff.rfl, fun _ => rfl⟩

theorem sameTree_setkilled (s : Kernel) (p : Fin NPROC) : SameTree s (setkilled s p) :=
  sameTree_setProc Iff.rfl Iff.rfl rfl

/-- `kill` wakes a sleeper, which stays live and no zombie. -/
theorem sameTree_kill (s : Kernel) (pid : Int32) : SameTree s (kill s pid).2 := by
  rcases kill_spec s pid with ⟨_, hk⟩ | ⟨i, _, hk⟩ <;> rw [hk]
  · exact SameTree.refl s
  · refine sameTree_setProc ?_ ?_ rfl <;> split <;> simp_all

/-- Freeing a slot that is free or a zombie: no live slot hangs below it,
and it is not the first process. -/
theorem TreeInv.setProc_unused (hI : TreeInv s) {i : Fin NPROC}
    (hi : (s.proc i).state = .UNUSED ∨ (s.proc i).state = .ZOMBIE) {q : Proc}
    (hq : q.state = .UNUSED) : TreeInv (s.setProc i q) where
  init := by
    obtain ⟨i₀, h₀, hu, hz⟩ := hI.init
    have hne : i₀ ≠ i := fun h => hI.initproc_ne hi (h ▸ h₀)
    exact ⟨i₀, h₀, by simpa [hne] using hu, by simpa [hne] using hz⟩
  parent j q' hj hjq := by
    have hji : j ≠ i := by
      rintro rfl
      simp [hq] at hj
    simp only [Kernel.setProc_proc_of_ne _ _ hji] at hj hjq
    have hqi : q' ≠ i := fun h => hI.parent_ne hi hj (h ▸ hjq)
    simpa [hqi] using hI.parent j q' hj hjq
  orphan j hj hi₀ := by
    have hji : j ≠ i := by
      rintro rfl
      simp [hq] at hj
    simp only [Kernel.setProc_proc_of_ne _ _ hji] at hj ⊢
    exact hI.orphan j hj hi₀

/-- `fork`'s child fills a free slot below its caller, which is live and
no zombie. -/
theorem TreeInv.setProc_child (hI : TreeInv s) {p i : Fin NPROC}
    (hp : (s.proc p).state ≠ .UNUSED ∧ (s.proc p).state ≠ .ZOMBIE)
    (hi : (s.proc i).state = .UNUSED) {q : Proc} (hq : q.parent = some p) :
    TreeInv (s.setProc i q) where
  init := by
    obtain ⟨i₀, h₀, hu, hz⟩ := hI.init
    have hne : i₀ ≠ i := fun h => hI.initproc_ne (Or.inl hi) (h ▸ h₀)
    exact ⟨i₀, h₀, by simpa [hne] using hu, by simpa [hne] using hz⟩
  parent j q' hj hjq := by
    have hpi : p ≠ i := fun h => hp.1 (h ▸ hi)
    by_cases hji : j = i
    · -- the child: its parent is the caller
      subst hji
      simp only [Kernel.setProc_proc_self, hq, Option.some.injEq] at hjq
      subst hjq
      simpa [hpi] using hp
    · simp only [Kernel.setProc_proc_of_ne _ _ hji] at hj hjq
      have hqi : q' ≠ i := fun h => hI.parent_ne (Or.inl hi) hj (h ▸ hjq)
      simpa [hqi] using hI.parent j q' hj hjq
  orphan j hj hi₀ := by
    by_cases hji : j = i
    · subst hji
      simp [hq]
    · simp only [Kernel.setProc_proc_of_ne _ _ hji] at hj ⊢
      exact hI.orphan j hj hi₀

/-- `exit`: the children move to the first process, which is not the
caller, before the caller becomes a zombie. -/
theorem TreeInv.of_exit (hI : TreeInv s) {p : Fin NPROC} {status : Int32}
    (hp : (s.proc p).state ≠ .UNUSED) (h : exit s p status = some s') : TreeInv s' := by
  rw [exit_eq] at h
  split at h
  · cases h
  rename_i hinit
  cases h
  obtain ⟨i₀, h₀, hu₀, hz₀⟩ := hI.init
  have hi₀p : i₀ ≠ p := fun h => hinit (h ▸ h₀)
  -- what the exit leaves in each slot
  have hstate : ∀ j, (((reparent s p).setProc p
      { (reparent s p).proc p with xstate := status, state := .ZOMBIE }).proc j).state =
      if j = p then .ZOMBIE else (s.proc j).state := by
    intro j
    by_cases hjp : j = p
    · subst hjp; simp
    · simp only [Kernel.setProc_proc_of_ne _ _ hjp, reparent_proc, if_neg hjp]
      split <;> rfl
  have hparent : ∀ j, (((reparent s p).setProc p
      { (reparent s p).proc p with xstate := status, state := .ZOMBIE }).proc j).parent =
      if (s.proc j).parent = some p then s.initproc else (s.proc j).parent := by
    intro j
    by_cases hjp : j = p
    · subst hjp
      simp only [Kernel.setProc_proc_self, reparent_proc]
      split <;> rfl
    · simp only [Kernel.setProc_proc_of_ne _ _ hjp, reparent_proc]
      split <;> rfl
  have hlive : ∀ j, (((reparent s p).setProc p
      { (reparent s p).proc p with xstate := status, state := .ZOMBIE }).proc j).state ≠ .UNUSED →
      (s.proc j).state ≠ .UNUSED := by
    intro j hj
    rw [hstate] at hj
    split at hj
    · subst j; exact hp
    · exact hj
  refine ⟨⟨i₀, h₀, ?_, ?_⟩, fun j q hj hjq => ?_, fun j hj hi => ?_⟩
  · rwa [hstate, if_neg hi₀p]
  · rwa [hstate, if_neg hi₀p]
  · rw [hparent] at hjq
    split at hjq
    · -- a child of the caller now hangs below the first process
      rw [h₀, Option.some.injEq] at hjq
      subst hjq
      rw [hstate, if_neg hi₀p]
      exact ⟨hu₀, hz₀⟩
    · rename_i hnp
      have hqp : q ≠ p := fun h => hnp (h ▸ hjq)
      rw [hstate, if_neg hqp]
      exact hI.parent j q (hlive j hj) hjq
  · rw [hparent]
    split
    · rw [h₀]; exact Option.some_ne_none i₀
    · exact hI.orphan j (hlive j hj) hi

/-- `freeproc` of a zombie. -/
theorem TreeInv.of_freeproc (hI : TreeInv s) {i : Fin NPROC} (hi : (s.proc i).state = .ZOMBIE) :
    TreeInv (freeproc s i) :=
  hI.setProc_unused (Or.inr hi) rfl

/-- `fork`, in each of the three ways it can end. -/
theorem TreeInv.of_fork (hI : TreeInv s) {p : Fin NPROC} (hp : (s.proc p).state = .RUNNABLE)
    (a c : Bool) : TreeInv (fork s p a c).2 := by
  have hpu : (s.proc p).state ≠ .UNUSED := by simp [hp]
  rcases fork_spec s p a c hpu with ⟨_, hk⟩ | ⟨i, hu, _, hk⟩ | ⟨i, hu, _, _, hk⟩ <;> rw [hk]
  · exact hI
  · -- the slot goes back: the `USED` record is overwritten by the free one
    simp only [freeproc, Kernel.setProc_proc_self, Kernel.setProc_setProc]
    exact (hI.of_same (sameTree_allocpid s)).setProc_unused (Or.inl (unusedSlot_spec hu)) rfl
  · exact (hI.of_same (sameTree_allocpid s)).setProc_child ⟨hpu, by simp [hp]⟩
      (unusedSlot_spec hu) rfl

/-- Every handler, run by a process that can run. -/
theorem TreeInv.of_sys_call (hI : TreeInv s) {c : Sys} {p : Fin NPROC} {tf : Trapframe} {env : Env}
    {r : Ret} (hp : (s.proc p).state = .RUNNABLE) (h : sys_call c s p tf env = some (r, s')) :
    TreeInv s' := by
  have hpu : (s.proc p).state ≠ .UNUSED := by simp [hp]
  cases c with
  | fork =>
      simp only [sys_call, Option.some.injEq, Prod.mk.injEq] at h
      rw [← h.2]
      exact hI.of_fork hp _ _
  | exit =>
      obtain ⟨s₂, hx, hs⟩ := Option.map_eq_some_iff.mp h
      cases hs
      exact hI.of_exit hpu hx
  | wait =>
      obtain ⟨⟨r', s₂⟩, hx, hs⟩ := Option.map_eq_some_iff.mp h
      cases hs
      rcases wait_spec s p (argaddr tf 0) env.copyout_ok with hw | ⟨i, hz, hw⟩ | hw <;>
        rw [hw] at hx <;> cases hx
      · exact hI
      · exact hI.of_freeproc (zombieChild_spec hz).2
  | kill =>
      simp only [sys_call, Option.some.injEq, Prod.mk.injEq] at h
      rw [← h.2]
      exact hI.of_same (sameTree_kill s _)
  | exec =>
      simp only [sys_call] at h
      split at h <;> cases h
      · exact hI.of_same (sameTree_setProc Iff.rfl Iff.rfl rfl)
      · exact hI
  | trace =>
      simp only [sys_call, Option.some.injEq, Prod.mk.injEq] at h
      rw [← h.2]
      exact hI.of_same (sameTree_setProc Iff.rfl Iff.rfl rfl)
  | _ =>
      simp only [sys_call, Option.some.injEq, Prod.mk.injEq] at h
      rw [← h.2]
      exact hI

/-- The tail of `usertrap`: `exit(-1)` if the process was killed. -/
theorem TreeInv.of_usertrapTail (hI : TreeInv s) {p : Fin NPROC} {out out' : List Printf}
    (hp : (s.proc p).state ≠ .UNUSED) (h : usertrapTail s p out = some (s', out')) :
    TreeInv s' := by
  unfold usertrapTail at h
  split at h
  · obtain ⟨s₁, hx, hs₁⟩ := Option.map_eq_some_iff.mp h
    cases hs₁
    exact hI.of_exit hp hx
  · cases h
    exact hI

/-- The step lemma: one step of the kernel machine keeps the tree. -/
theorem TreeInv.step (hI : TreeInv s) {e : Event} {o : List Printf}
    (h : Kernel.step s e = some (s', o)) : TreeInv s' := by
  obtain ⟨p, c⟩ := e
  simp only [Kernel.step] at h
  split at h
  case isFalse => cases h
  rename_i hrun
  have hp : (s.proc p).state ≠ .UNUSED := by simp [hrun]
  cases c with
  | ecall tf env =>
      rcases usertrap_ecall_state h with ⟨-, hx⟩ | ⟨-, s₁, out, b, hsys, hs'⟩
      · exact hI.of_exit hp hx
      · -- the handler, then possibly `exit(-1)` in the tail
        have hI₁ : TreeInv s₁ ∧ (s₁.proc p).state ≠ .UNUSED := by
          rcases syscall_state hsys with ⟨-, rfl⟩ | ⟨c, name, r, -, hsc⟩
          · exact ⟨hI, hp⟩
          · exact ⟨hI.of_sys_call hrun hsc, sys_call_caller_live hrun hsc⟩
        rcases hs' with rfl | ht
        · exact hI₁.1
        · exact hI₁.1.of_usertrapTail hI₁.2 ht
  | devintr => exact hI.of_usertrapTail hp h
  | unexpected scause sepc stval =>
      refine (hI.of_same (sameTree_setkilled s p)).of_usertrapTail ?_ h
      simp [setkilled, hp]

end Tree

/-! ## What `wait` does -/

theorem havekids_eq_false {s : Kernel} {p : Fin NPROC} :
    havekids s p = false ↔ ∀ j, (s.proc j).parent ≠ some p := by
  simp [havekids]

theorem zombieChild_eq_none {s : Kernel} {p : Fin NPROC} :
    zombieChild s p = none ↔ ∀ j, (s.proc j).parent = some p → (s.proc j).state ≠ .ZOMBIE := by
  simp [zombieChild, List.find?_eq_none]

/-- A `wait` that returns either returns `-1` with the table as it was,
the caller having no child, being killed, or failing to copy the status
out, or frees exactly one `ZOMBIE` child and returns its pid. -/
theorem wait_returns {s s' : Kernel} {p : Fin NPROC} {addr : UInt64} {ok : Bool} {r : Int32}
    (h : wait s p addr ok = some (r, s')) :
    (r = -1 ∧ s' = s ∧
      ((∀ j, (s.proc j).parent ≠ some p) ∨ (s.proc p).killed = true ∨ (addr ≠ 0 ∧ ok = false))) ∨
    (∃ i, (s.proc i).parent = some p ∧ (s.proc i).state = .ZOMBIE ∧ r = (s.proc i).pid ∧
      (s'.proc i).state = .UNUSED ∧ (∀ j, j ≠ i → s'.proc j = s.proc j) ∧
      getnproc s' + 1 = getnproc s) := by
  cases hz : zombieChild s p with
  | some i =>
      simp only [wait, hz] at h
      obtain ⟨hpar, hzom⟩ := zombieChild_spec hz
      split at h
      · rename_i hc
        cases h
        exact Or.inl ⟨rfl, rfl, Or.inr (Or.inr hc)⟩
      · cases h
        refine Or.inr ⟨i, hpar, hzom, rfl, by simp, fun j hj => by simp [hj], ?_⟩
        exact getnproc_freeproc (by simp [hzom])
  | none =>
      simp only [wait, hz] at h
      split at h
      · rename_i hc
        cases h
        refine Or.inl ⟨rfl, rfl, ?_⟩
        rcases hc with hc | hc
        · exact Or.inl (havekids_eq_false.mp hc)
        · exact Or.inr (Or.inl hc)
      · cases h

/-- Each of the three reasons makes `wait` return `-1` at once, with the
table as it was. -/
theorem wait_fails {s : Kernel} {p : Fin NPROC} {addr : UInt64} {ok : Bool}
    (h : (∀ j, (s.proc j).parent ≠ some p) ∨
      ((s.proc p).killed = true ∧ ∀ j, (s.proc j).parent = some p → (s.proc j).state ≠ .ZOMBIE) ∨
      (addr ≠ 0 ∧ ok = false ∧ ∃ j, (s.proc j).parent = some p ∧ (s.proc j).state = .ZOMBIE)) :
    wait s p addr ok = some (-1, s) := by
  unfold wait
  cases hz : zombieChild s p with
  | some i =>
      -- a zombie child is found first, so only the failed copy is left
      obtain ⟨hpar, hzom⟩ := zombieChild_spec hz
      rcases h with hno | ⟨-, hnz⟩ | ⟨ha, hok, -⟩
      · exact absurd hpar (hno i)
      · exact absurd hzom (hnz i hpar)
      · simp [ha, hok]
  | none =>
      have hnz := zombieChild_eq_none.mp hz
      rcases h with hno | ⟨hk, -⟩ | ⟨-, -, j, hpar, hzom⟩
      · simp [havekids_eq_false.mpr hno]
      · simp [hk]
      · exact absurd hzom (hnz j hpar)

/-! ## Whole runs -/

/-- At boot only slot `0`, the first process, is live, and no slot has a
parent. -/
theorem boot_proc_tree (j : Fin NPROC) :
    (Kernel.boot.proc j).parent = none ∧ ((Kernel.boot.proc j).state ≠ .UNUSED → j = 0) := by
  have hu : unusedSlot Kernel.zero = some 0 := by decide
  simp only [Kernel.boot, userinit, allocproc, hu, if_true, allocpid]
  by_cases hj : j = 0
  · subst hj
    simp [Kernel.zero, Proc.zero]
  · simp [hj, Kernel.zero, Proc.zero]

theorem treeInv_boot : TreeInv Kernel.boot where
  init := ⟨0, by decide, by decide, by decide⟩
  parent j q _ hjq := by simp [(boot_proc_tree j).1] at hjq
  orphan j hj hi := absurd (by rw [(boot_proc_tree j).2 hj]; decide) hi

/-- The run lemma: every run from boot keeps the tree. -/
theorem treeInv_run {h : List (Kernel × Event × List Printf)} {s : Kernel}
    (hr : Machine.Run Kernel.step Kernel.boot h s) : TreeInv s :=
  Machine.Run.state_invariant TreeInv treeInv_boot (fun _ _ _ _ hI hs => hI.step hs) hr

theorem proc_tree_reap_once {h : List (Kernel × Event × List Printf)} {s : Kernel}
    (hr : Machine.Run Kernel.step Kernel.boot h s) :
    (∀ j, (s.proc j).state ∈ [.RUNNABLE, .RUNNING, .SLEEPING, .ZOMBIE] → s.initproc ≠ some j →
      ∃ q, (s.proc j).parent = some q ∧ (s.proc q).state ≠ .UNUSED ∧ (s.proc q).state ≠ .ZOMBIE) ∧
    (∀ p addr ok r s', wait s p addr ok = some (r, s') →
      (r = -1 ∧ s' = s ∧
        ((∀ j, (s.proc j).parent ≠ some p) ∨ (s.proc p).killed = true ∨ (addr ≠ 0 ∧ ok = false))) ∨
      (∃ i, (s.proc i).parent = some p ∧ (s.proc i).state = .ZOMBIE ∧ r = (s.proc i).pid ∧
        (s'.proc i).state = .UNUSED ∧ (∀ j, j ≠ i → s'.proc j = s.proc j) ∧
        getnproc s' + 1 = getnproc s)) ∧
    (∀ p addr ok, ((∀ j, (s.proc j).parent ≠ some p) ∨
        ((s.proc p).killed = true ∧ ∀ j, (s.proc j).parent = some p → (s.proc j).state ≠ .ZOMBIE) ∨
        (addr ≠ 0 ∧ ok = false ∧ ∃ j, (s.proc j).parent = some p ∧ (s.proc j).state = .ZOMBIE)) →
      wait s p addr ok = some (-1, s)) := by
  have hI := treeInv_run hr
  refine ⟨fun j hj hi => ?_, fun _ _ _ _ _ hw => wait_returns hw, fun _ _ _ hw => wait_fails hw⟩
  -- a slot in one of the four states is live, so it has a parent
  have hl : (s.proc j).state ≠ .UNUSED := by
    intro hu
    simp [hu] at hj
  obtain ⟨q, hq⟩ := Option.ne_none_iff_exists'.mp (hI.orphan j hl hi)
  exact ⟨q, hq, hI.parent j q hl hq⟩

/-- After `forkReuseRun` the child in the reused slot exits too, so init
has a zombie child to reap. -/
theorem proc_tree_reap_once_fork :
    ∃ h s, Machine.Run Kernel.step Kernel.boot h s ∧
      h.map (fun x => x.2.1) = (forkReuseRun ++
        [Event.trap 1 (.ecall ⟨5, 0, 0, 0, 0, 0, 2⟩ ⟨true, true, true, [], none, 0⟩)]).reverse ∧
      (∀ j, (s.proc j).state ∈ [.RUNNABLE, .RUNNING, .SLEEPING, .ZOMBIE] → s.initproc ≠ some j →
        ∃ q, (s.proc j).parent = some q ∧ (s.proc q).state ≠ .UNUSED ∧ (s.proc q).state ≠ .ZOMBIE) ∧
      (∀ p addr ok r s', wait s p addr ok = some (r, s') →
        (r = -1 ∧ s' = s ∧
          ((∀ j, (s.proc j).parent ≠ some p) ∨ (s.proc p).killed = true ∨ (addr ≠ 0 ∧ ok = false))) ∨
        (∃ i, (s.proc i).parent = some p ∧ (s.proc i).state = .ZOMBIE ∧ r = (s.proc i).pid ∧
          (s'.proc i).state = .UNUSED ∧ (∀ j, j ≠ i → s'.proc j = s.proc j) ∧
          getnproc s' + 1 = getnproc s)) ∧
      (∀ p addr ok, ((∀ j, (s.proc j).parent ≠ some p) ∨
          ((s.proc p).killed = true ∧ ∀ j, (s.proc j).parent = some p → (s.proc j).state ≠ .ZOMBIE) ∨
          (addr ≠ 0 ∧ ok = false ∧ ∃ j, (s.proc j).parent = some p ∧ (s.proc j).state = .ZOMBIE)) →
        wait s p addr ok = some (-1, s)) := by
  obtain ⟨h, s, hr, hev⟩ := @Machine.exists_run_of_events _ _ _ Kernel.step (Kernel.boot)
    (forkReuseRun ++ [Event.trap 1 (.ecall ⟨5, 0, 0, 0, 0, 0, 2⟩ ⟨true, true, true, [], none, 0⟩)]) (by decide +kernel)
  exact ⟨h, s, hr, hev, proc_tree_reap_once hr⟩

end Xv6
