/-
# `Xv6.Kernel.Syscall` — trap entry and system call dispatch

`usertrap` of `kernel/trap.c`, `syscall` and the two tables of
`kernel/syscall.c`, and the handlers of `kernel/sysproc.c`, over the
process table of `Xv6.Kernel.Proc`.  Together they are the kernel as a
machine: the one kind of event is a process trapping into the kernel, and
a step is everything `usertrap` does until it returns to user space or the
process has exited.  The machine starts in `Kernel.boot`, the state
`userinit` leaves.

**What a handler learns from below.**  Handlers whose code lives in the
memory and file layers (`read`, `write`, `open`, `sbrk`, …) change nothing
in the process table; their return value is a field of `Env`, as are the
outcomes of the allocations and copies that `fork`, `wait` and `exec` make.
A theorem proved for every `Env` holds whatever those layers do.

**Output.**  The kernel's console output is the list of `printf` calls a
step makes, each with its format and arguments; how `printf` renders them
is a question for `kernel/printf.c`.
-/
import Xv6.Kernel.Proc

namespace Xv6

/-! ## Registers, environment, output -/

/-- The trapframe registers `syscall` and its handlers read: the arguments
`a0`–`a5` and the number in `a7`. -/
structure Trapframe where
  a0 : UInt64
  a1 : UInt64
  a2 : UInt64
  a3 : UInt64
  a4 : UInt64
  a5 : UInt64
  a7 : UInt64
  deriving DecidableEq, Repr

/-- `argraw(n)` for the six argument registers (the `panic("argraw")`
branch is unreachable from the handlers, which ask for `n ≤ 2`). -/
def argraw (tf : Trapframe) : Fin 6 → UInt64
  | 0 => tf.a0
  | 1 => tf.a1
  | 2 => tf.a2
  | 3 => tf.a3
  | 4 => tf.a4
  | 5 => tf.a5

/-- The six argument registers are numbered from `0`: one instance that
every `argint tf 0` of the model shares. -/
instance neZero_six : NeZero (6 : Nat) := ⟨by decide⟩

/-- `argint`: the low 32 bits of the register, as an `int`. -/
def argint (tf : Trapframe) (n : Fin 6) : Int32 :=
  (argraw tf n).toUInt32.toInt32

/-- `argaddr`. -/
def argaddr (tf : Trapframe) (n : Fin 6) : UInt64 :=
  argraw tf n

/-- What a handler learns from the layers below the process table. -/
structure Env where
  /-- `allocproc`'s `kalloc` of the trapframe and `proc_pagetable` succeed. -/
  alloc_ok : Bool
  /-- `fork`'s `uvmcopy` succeeds. -/
  uvmcopy_ok : Bool
  /-- `wait`'s `copyout` of the exit status succeeds. -/
  copyout_ok : Bool
  /-- The path `sys_exec` fetched with `argstr`. -/
  path : List Char
  /-- What `exec` returns: `argc` after committing to the new image, or
  `none` for the `bad:` exit. -/
  exec : Option Int32
  /-- The return value of a handler of the memory or file layers. -/
  ret : UInt64
  deriving DecidableEq, Repr

/-- An argument of a kernel `printf`: an `int`, a `char *` (its
characters, or `null` for the null pointer) or a `uint64`. -/
inductive PrintArg where
  | int (v : Int32)
  | str (s : List Char)
  | null
  | ptr (v : UInt64)
  deriving DecidableEq, Repr

/-- One call `printf(fmt, args...)`. -/
structure Printf where
  fmt : String
  args : List PrintArg
  deriving DecidableEq, Repr

/-! ## The two tables of `syscall.c` -/

/-- The handlers of `syscalls[]`. -/
inductive Sys where
  | fork | exit | wait | pipe | read | kill | exec | fstat | chdir | dup | getpid | sbrk
  | sleep | uptime | open | write | mknod | unlink | link | mkdir | close | trace | sysinfo
  deriving DecidableEq, Repr

/-- `NELEM(syscalls)`: the array runs to `[SYS_sysinfo]`. -/
def NELEM_syscalls : Nat := SYS_sysinfo + 1

/-- `syscalls[num]`, `none` for a null entry. -/
def syscalls : Nat → Option Sys
  | 1 => some .fork | 2 => some .exit | 3 => some .wait | 4 => some .pipe
  | 5 => some .read | 6 => some .kill | 7 => some .exec | 8 => some .fstat
  | 9 => some .chdir | 10 => some .dup | 11 => some .getpid | 12 => some .sbrk
  | 13 => some .sleep | 14 => some .uptime | 15 => some .open | 16 => some .write
  | 17 => some .mknod | 18 => some .unlink | 19 => some .link | 20 => some .mkdir
  | 21 => some .close | 22 => some .trace | 23 => some .sysinfo
  | _ => none

/-- `syscall_names[num]`, `none` for a null entry. -/
def syscall_names : Nat → Option String
  | 1 => some "fork" | 2 => some "exit" | 3 => some "wait" | 4 => some "pipe"
  | 5 => some "read" | 6 => some "kill" | 7 => some "exec" | 8 => some "fstat"
  | 9 => some "chdir" | 10 => some "dup" | 11 => some "getpid" | 12 => some "sbrk"
  | 13 => some "sleep" | 14 => some "uptime" | 15 => some "open" | 16 => some "write"
  | 17 => some "mknod" | 18 => some "unlink" | 19 => some "link" | 20 => some "mkdir"
  | 21 => some "close" | 22 => some "trace" | 23 => some "sysinfo"
  | _ => none

/-- The test at the top of `syscall`:
`num > 0 && num < NELEM(syscalls) && syscalls[num] && syscall_names[num]`,
with the handler and the name it finds. -/
def dispatchable (num : Int32) : Option (Sys × String) :=
  if 0 < num.toInt ∧ num.toInt < NELEM_syscalls then
    match syscalls num.toInt.toNat, syscall_names num.toInt.toNat with
    | some c, some name => some (c, name)
    | _, _ => none
  else none

/-! ## Handlers -/

/-- The `int`-to-`uint64` conversion of a handler's `return`. -/
def sysRet (v : Int32) : UInt64 :=
  v.toInt64.toUInt64

/-- How a handler ends: it returns a value into `syscall`, or (`exit`) it
never returns. -/
inductive Ret where
  | ret (v : UInt64)
  | noreturn
  deriving DecidableEq, Repr

/-- The name `exec` saves: the path after its last `'/'`, cut by
`safestrcpy(p->name, last, sizeof(p->name))` to 15 characters. -/
def execName (path : List Char) : List Char :=
  ((path.reverse.takeWhile (· ≠ '/')).reverse).take 15

/-- `syscalls[num]()` run for process `p`.  `none` when the handler does
not return now: a `wait` that sleeps, or the `panic` in `exit`. -/
def sys_call (c : Sys) (s : Kernel) (p : Fin NPROC) (tf : Trapframe) (env : Env) :
    Option (Ret × Kernel) :=
  match c with
  | .fork =>
      let (pid, s) := fork s p env.alloc_ok env.uvmcopy_ok
      some (.ret (sysRet pid), s)
  | .exit => (exit s p (argint tf 0)).map fun s => (.noreturn, s)
  | .wait => (wait s p (argaddr tf 0) env.copyout_ok).map fun (r, s) => (.ret (sysRet r), s)
  | .kill =>
      let (r, s) := kill s (argint tf 0)
      some (.ret (sysRet r), s)
  | .getpid => some (.ret (sysRet (s.proc p).pid), s)
  | .exec =>
      match env.exec with
      | some argc => some (.ret (sysRet argc), s.setProc p { s.proc p with name := execName env.path })
      | none => some (.ret (sysRet (-1)), s)
  | .trace => some (.ret 0, s.setProc p { s.proc p with trace_mask := argint tf 0 })
  | _ => some (.ret env.ret, s)

/-- The line `syscall` prints for a traced call. -/
def traceLine (pid : Int32) (name : String) (v : UInt64) : Printf :=
  { fmt := "%d: syscall %s -> %d\n", args := [.int pid, .str name.toList, .int v.toUInt32.toInt32] }

/-- The line `syscall` prints for a number it rejects. -/
def unknownLine (pid : Int32) (name : List Char) (num : Int32) : Printf :=
  { fmt := "%d %s: unknown sys call %d\n", args := [.int pid, .str name, .int num] }

/-- `(p->trace_mask >> num) & 1`, as the `if` tests it. -/
def traced (mask num : Int32) : Bool :=
  (mask >>> num) &&& 1 != 0

/-- `num = p->trapframe->a7`, an `int`. -/
def sysnum (tf : Trapframe) : Int32 :=
  tf.a7.toUInt32.toInt32

/-- `syscall()`: dispatch on `a7`, then print the trace line if the
caller's mask, read after the handler, has bit `num`.  The result is the
new table, what was printed, and whether control came back (`false` after
`exit`). -/
def syscall (s : Kernel) (p : Fin NPROC) (tf : Trapframe) (env : Env) :
    Option (Kernel × List Printf × Bool) :=
  let num := sysnum tf
  match dispatchable num with
  | some (c, name) =>
      match sys_call c s p tf env with
      | none => none
      | some (.noreturn, s) => some (s, [], false)
      | some (.ret v, s) =>
          if traced (s.proc p).trace_mask num then
            some (s, [traceLine (s.proc p).pid name v], true)
          else some (s, [], true)
  | none => some (s, [unknownLine (s.proc p).pid (s.proc p).name num], true)

attribute [grind] sys_call traceLine traced syscall

/-! ## `usertrap` and the kernel machine -/

/-- Why the process trapped: `scause == 8` with its registers and what the
layers below will answer, a device interrupt, or anything else. -/
inductive Scause where
  | ecall (tf : Trapframe) (env : Env)
  | devintr
  | unexpected (scause sepc stval : UInt64)
  deriving DecidableEq, Repr

/-- The tail of `usertrap`: `if(killed(p)) exit(-1)`. -/
def usertrapTail (s : Kernel) (p : Fin NPROC) (out : List Printf) :
    Option (Kernel × List Printf) :=
  if (s.proc p).killed then (exit s p (-1)).map fun s => (s, out) else some (s, out)

/-- `usertrap` for process `p`. -/
def usertrap (s : Kernel) (p : Fin NPROC) : Scause → Option (Kernel × List Printf)
  | .ecall tf env =>
      if (s.proc p).killed then (exit s p (-1)).map fun s => (s, [])
      else
        match syscall s p tf env with
        | none => none
        | some (s, out, false) => some (s, out)
        | some (s, out, true) => usertrapTail s p out
  | .devintr => usertrapTail s p []
  | .unexpected scause sepc stval =>
      usertrapTail (setkilled s p) p
        [{ fmt := "usertrap(): unexpected scause %p pid=%d\n",
           args := [.ptr scause, .int (s.proc p).pid] },
         { fmt := "            sepc=%p stval=%p\n", args := [.ptr sepc, .ptr stval] }]

attribute [grind] usertrapTail usertrap

/-- An event of the kernel machine. -/
inductive Event where
  /-- Process `p`, running in user space, traps into the kernel. -/
  | trap (p : Fin NPROC) (c : Scause)
  deriving DecidableEq, Repr

namespace Kernel

/-- One step: a process that can run traps, and `usertrap` runs to its end. -/
def step (s : Kernel) : Event → Option (Kernel × List Printf)
  | .trap p c => if (s.proc p).state = .RUNNABLE then usertrap s p c else none

/-- The state `userinit` leaves. -/
def boot : Kernel := userinit Kernel.zero

attribute [grind] step boot

end Kernel

end Xv6
