/-
# `Xv6.Fs.LogAdmission` — how much room `begin_op` reserves

File-system operations run in processes, each bracketed by `begin_op` and
`end_op`, and each passes at most `MAXOPBLOCKS` distinct blocks to
`log_write`.  `begin_op` admits an operation while
`n + (outstanding + 1) * MAXOPBLOCKS ≤ LOGSIZE`, so it promises every
admitted operation room for `MAXOPBLOCKS` blocks out of `LOGSIZE`.  The
region `mkfs` lays out has `nlog = LOGSIZE` blocks, the header among them,
and `log_write` panics once `n ≥ log.size - 1`: it has room for
`LOGSIZE - 1` blocks only.

**Proved here.**

    admitted_op_overflows_log   three operations admitted together on an
                                empty log; after 10, 10 and 9 distinct
                                blocks the third operation's tenth block,
                                within its budget, makes `log_write` panic
-/
import Xv6.Fs.Log
import Xv6.Kernel.Proc
import Xv6.Lib.Run

namespace Xv6

/-- The log `initlog` sets up on `mkfs`'s image: `sb.logstart = 2`,
`sb.nlog = LOGSIZE`. -/
def mkfsLog : Log :=
  initlog 2 LOGSIZE

/-- The file-system operations over the log: the log, and for each process
the distinct blocks its operation in flight has passed to `log_write`, or
`none` outside an operation. -/
structure LogOps where
  log : Log
  op : Fin NPROC → Option (List Nat)

/-- What a process does to the log. -/
inductive LogEvent where
  | begin (p : Fin NPROC)
  | write (p : Fin NPROC) (blockno : Nat)
  | finish (p : Fin NPROC)
  deriving DecidableEq, Repr

namespace LogOps

/-- After boot: no operation in flight. -/
def init : LogOps :=
  ⟨mkfsLog, fun _ => none⟩

/-- Process `p` may `log_write` block `b`: it is inside an operation that
has written `b` already, or fewer than `MAXOPBLOCKS` distinct blocks. -/
def allowed (s : LogOps) (p : Fin NPROC) (b : Nat) : Bool :=
  match s.op p with
  | none => false
  | some W => decide (b ∈ W) || decide (W.length < MAXOPBLOCKS)

/-- One call.  `none` while `begin_op` sleeps, for a `log_write` the
operations' budget rules out, and when the kernel panics. -/
def step (s : LogOps) : LogEvent → Option (LogOps × Unit)
  | .begin p =>
      match s.op p, begin_op s.log with
      | none, some l => some (⟨l, Function.update s.op p (some [])⟩, ())
      | _, _ => none
  | .write p b =>
      if s.allowed p b then
        match s.op p, log_write s.log b with
        | some W, .ok l => some (⟨l, Function.update s.op p (some (W.insert b))⟩, ())
        | _, _ => none
      else none
  | .finish p =>
      match s.op p, end_op s.log with
      | some _, .ok (l, _) => some (⟨l, Function.update s.op p none⟩, ())
      | _, _ => none

end LogOps

/-- Three operations admitted together on an empty log; the first two
write ten distinct blocks each, the third nine. -/
def overflowRun : List LogEvent :=
  [.begin 0, .begin 1, .begin 2] ++ (List.range 10).map (fun i => .write 0 (100 + i)) ++
    (List.range 10).map (fun i => .write 1 (110 + i)) ++
    (List.range 9).map (fun i => .write 2 (120 + i))

/-- Admission control does not keep `log_write` from panicking: a reachable
state where process `2` may still write a tenth block, and `log_write`
panics on it, the log holding `log.size - 1` blocks. -/
theorem admitted_op_overflows_log :
    ∃ h s, Machine.Run LogOps.step LogOps.init h s ∧ s.allowed 2 129 = true ∧
      s.log.lh.n = s.log.size - 1 ∧ log_write s.log 129 = .error "too big a transaction" :=
  Machine.exists_run_of_exec overflowRun (by decide)

end Xv6
