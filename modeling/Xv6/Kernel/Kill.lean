/-
# `Xv6.Kernel.Kill` — `kill` and the slots nobody owns

`kill(pid)` scans the whole table for the first slot whose `pid` matches,
in whatever state it is.  An `UNUSED` slot carries `pid = 0` (the zeroed
BSS at boot, `freeproc` later), so `kill(0)` finds the first unused slot,
sets its `killed` flag and returns `0`.  `allocproc` resets neither `pid`
nor `killed` before it hands out that same first unused slot, so the next
process `fork` creates starts out killed, and `usertrap` makes it exit
with status `-1` at its first trap.  `user/kill.c` reaches this with
`kill x`, since `atoi("x") = 0`.

**Proved here.**

    kill_zero_kills_next_child   from boot: kill(0) by init returns 0 with
                                 no live process of pid 0, and marks slot 1;
                                 init's next fork puts its child in slot 1
                                 already killed; the child's first trap
                                 leaves it a ZOMBIE with exit status -1

    kill_spec_marks_pid          what kill does in general: it marks exactly
                                 the first slot of that pid, live or not
-/
import Xv6.Kernel.Syscall
import Xv6.Lib.Run

namespace Xv6

/-- `kill` marks one slot, the first whose `pid` matches, and no other;
whether that slot is live is not looked at. -/
theorem kill_spec_marks_pid (s : Kernel) (pid : Int32) (j : Fin NPROC) :
    ((kill s pid).2.proc j).killed = ((s.proc j).killed || pidSlot s pid = some j) ∧
    ((kill s pid).1 = 0 ↔ ∃ i, (s.proc i).pid = pid) := by
  rcases kill_spec s pid with ⟨hn, hk⟩ | ⟨i, hi, hk⟩
  · rw [hk, hn]
    refine ⟨by simp, ?_⟩
    constructor
    · intro h
      cases h
    · rintro ⟨i, hi⟩
      have := List.find?_eq_none.mp hn i (List.mem_finRange i)
      simp [hi] at this
  · rw [hk, hi]
    refine ⟨?_, ⟨fun _ => ⟨i, pidSlot_spec hi⟩, fun _ => rfl⟩⟩
    by_cases hji : j = i
    · subst hji
      simp
    · have hij : i ≠ j := fun h => hji h.symm
      simp [hji, hij]

/-- Init's three steps of the failing run: `kill(0)`, then `fork`, then
the child's first timer interrupt.  Every allocation succeeds. -/
def killZeroRun : List Event :=
  [.trap 0 (.ecall ⟨0, 0, 0, 0, 0, 0, 6⟩ ⟨true, true, true, [], none, 0⟩),
   .trap 0 (.ecall ⟨0, 0, 0, 0, 0, 0, 1⟩ ⟨true, true, true, [], none, 0⟩),
   .trap 1 .devintr]

theorem kill_zero_kills_next_child :
    -- at boot no live process has pid 0, yet `kill(0)` succeeds and marks slot 1
    (∀ i, (Kernel.boot.proc i).state ≠ .UNUSED → (Kernel.boot.proc i).pid ≠ 0) ∧
    (kill Kernel.boot 0).1 = 0 ∧ (Kernel.boot.proc 1).state = .UNUSED ∧
    ((kill Kernel.boot 0).2.proc 1).killed = true ∧
    -- the fork that follows puts a child of pid 2 in slot 1, already killed
    (Machine.exec Kernel.step Kernel.boot [] (killZeroRun.take 2)).map
      (fun r => ((r.2.proc 1).state, (r.2.proc 1).pid, (r.2.proc 1).killed)) =
      some (.RUNNABLE, 2, true) ∧
    -- and its first trap ends it with exit status -1
    (Machine.exec Kernel.step Kernel.boot [] killZeroRun).map
      (fun r => ((r.2.proc 1).state, (r.2.proc 1).xstate)) = some (.ZOMBIE, -1) := by
  -- `kill(0)` goes by the pid alone, and slot 1 is the first of pid 0
  have hkill := kill_spec_marks_pid Kernel.boot 0 1
  have hslot : pidSlot Kernel.boot 0 = some 1 := by decide
  refine ⟨by decide, hkill.2.mpr ⟨1, by decide⟩, by decide, ?_, by decide, by decide⟩
  rw [hkill.1, hslot]
  simp

end Xv6
