/-
# `Xv6.Kernel.Console` — the input side of `console.c`

`cons` holds a ring of `INPUT_BUF_SIZE` bytes and three `uint` counters
that only grow (or step back) and wrap modulo `2^32`: `r`, where
`consoleread` takes the next byte; `w`, the end of the bytes committed to
readers; `e`, the end of the line being edited.  `consoleintr` edits the
line between `w` and `e` and commits it by moving `w` up to `e`.

Every stretch of `consoleread` runs under `cons.lock` until it returns or
sleeps waiting for input, and `consoleintr` runs under the same lock, so
the machine here has one step per stretch: a character handed to
`consoleintr`, a `read` of `n > 0` bytes by the reading process, or that
process running again after a sleep, each with what `killed(myproc())`
says when the stretch waits for input: a killed reader that finds none
returns `-1`, and the bytes it copied out in that call are lost.  One
process reads the console at a time; its destinations are good, so
`either_copyout` does not fail.  The echo (`consputc`) and `procdump`
print only.

The machine is written once over the representation of the buffer
(`ConsSys`): `consoleStep` runs it on the ring, and `Xv6.Kernel.ConsoleLine`
runs it on lists.
-/
import Xv6.Lib.Ring
import Xv6.Lib.Run

namespace Xv6

/-- `INPUT_BUF_SIZE`. -/
def INPUT_BUF_SIZE : Nat := 128

instance : NeZero INPUT_BUF_SIZE := ⟨by decide⟩

/-- `C(x)`: control-`x`. -/
def C (x : Char) : UInt8 := UInt8.ofNat (x.toNat - '@'.toNat)

/-- `'\n'`. -/
def LF : UInt8 := 10

/-- `'\r'`. -/
def CR : UInt8 := 13

/-- `'\x7f'`, the delete key. -/
def DEL : UInt8 := 127

/-- The input half of `cons`, without its lock. -/
structure Cons where
  buf : Fin INPUT_BUF_SIZE → UInt8
  r : UInt32
  w : UInt32
  e : UInt32

namespace Cons

/-- `x % INPUT_BUF_SIZE`, as an index of `buf`. -/
def idx (x : UInt32) : Fin INPUT_BUF_SIZE :=
  Fin.ofNat INPUT_BUF_SIZE (x % UInt32.ofNat INPUT_BUF_SIZE).toNat

attribute [grind] idx

end Cons

/-- The `^U` loop of `consoleintr`: erase back to `w` or to a newline.  It
runs at most `e - w` rounds, which is its fuel. -/
def killLoop : Nat → Cons → Cons
  | 0, cons => cons
  | fuel + 1, cons =>
    if cons.e ≠ cons.w ∧ cons.buf (Cons.idx (cons.e - 1)) ≠ LF then
      killLoop fuel { cons with e := cons.e - 1 }
    else cons

/-- `consoleintr(c)`, without the echo. -/
def consoleintr (c : UInt8) (cons : Cons) : Cons :=
  if c = C 'P' then cons
  else if c = C 'U' then killLoop (cons.e - cons.w).toNat cons
  else if c = C 'H' ∨ c = DEL then
    if cons.e ≠ cons.w then { cons with e := cons.e - 1 } else cons
  else if c ≠ 0 ∧ cons.e - cons.r < UInt32.ofNat INPUT_BUF_SIZE then
    let c := if c = CR then LF else c
    -- store for consumption by `consoleread`
    let cons := { cons with buf := Function.update cons.buf (Cons.idx cons.e) c, e := cons.e + 1 }
    if c = LF ∨ c = C 'D' ∨ cons.e - cons.r = UInt32.ofNat INPUT_BUF_SIZE then { cons with w := cons.e }
    else cons
  else cons

attribute [grind] killLoop

/-- Where a stretch of `consoleread` stopped: asleep waiting for input with
`n` bytes still wanted, returning `ret`, or returning `-1` to a killed
process that found no input. -/
inductive ReadStatus where
  | asleep (n : Nat)
  | done (ret : Nat)
  | killed
  deriving DecidableEq

/-- The loop of `consoleread(user_dst, dst, n)`, with `target` the size
asked for, `killed` what `killed(myproc())` says while the stretch waits,
and `out` the bytes copied out so far, run until it sleeps or returns. -/
def readLoop (target : Nat) (killed : Bool) : (n : Nat) → List UInt8 → Cons → Cons × List UInt8 × ReadStatus
  | 0, out, cons => (cons, out, .done target)
  | n + 1, out, cons =>
    if cons.r = cons.w then
      if killed then (cons, out, .killed) else (cons, out, .asleep (n + 1))
    else
      let c := cons.buf (Cons.idx cons.r)
      let cons := { cons with r := cons.r + 1 }
      if c = C 'D' then
        -- a `^D` after some bytes is saved for the next read, which returns 0
        if n + 1 < target then ({ cons with r := cons.r - 1 }, out, .done (target - (n + 1)))
        else (cons, out, .done (target - (n + 1)))
      else if c = LF then (cons, out ++ [c], .done (target - n))
      else readLoop target killed n (out ++ [c]) cons

attribute [grind] readLoop

/-! ## The machine -/

/-- A `consoleread` asleep in its loop: the size asked for, the bytes still
wanted, and those copied out. -/
structure Reading where
  target : Nat
  n : Nat
  out : List UInt8

/-- What the console can be handed. -/
inductive ConsEvent where
  /-- `uartintr` passes a received character to `consoleintr`. -/
  | intr (c : UInt8)
  /-- The reading process calls `read` on the console for `n` bytes. -/
  | read (n : Nat) (killed : Bool)
  /-- The reading process, asleep in `consoleread`, runs again. -/
  | wake (killed : Bool)

/-- The console's input, in some representation `S`, and the read asleep
in `consoleread`, if any. -/
structure ConsSys (S : Type) where
  buf : S
  reader : Option Reading

namespace ConsSys

variable {S : Type}

/-- The end of a stretch of `consoleread`: asleep, keeping how far it got,
or returned, with its return value and the bytes it copied out. -/
def settle (target : Nat) : S × List UInt8 × ReadStatus → ConsSys S × Option (Int × List UInt8)
  | (s, out, .asleep n) => (⟨s, some ⟨target, n, out⟩⟩, none)
  | (s, out, .done ret) => (⟨s, none⟩, some (ret, out))
  | (s, out, .killed) => (⟨s, none⟩, some (-1, out))

/-- One step, for an editing function `intr` and a read loop `loop`; a
step's output is what a returning `consoleread` gave back. -/
def step (intr : UInt8 → S → S) (loop : Nat → Bool → Nat → List UInt8 → S → S × List UInt8 × ReadStatus)
    (sys : ConsSys S) : ConsEvent → Option (ConsSys S × Option (Int × List UInt8))
  | .intr c => some ({ sys with buf := intr c sys.buf }, none)
  | .read n killed => if sys.reader = none ∧ 0 < n then some (settle n (loop n killed n [] sys.buf)) else none
  | .wake killed => sys.reader.map fun rd => settle rd.target (loop rd.target killed rd.n rd.out sys.buf)

attribute [grind] step

/-- Related ends of the read loop settle alike. -/
theorem settle_sim {T : Type} {R : S → T → Prop} (target : Nat) {a : S × List UInt8 × ReadStatus}
    {b : T × List UInt8 × ReadStatus} (hR : R a.1 b.1) (h : a.2 = b.2) :
    (settle target b).2 = (settle target a).2 ∧ R (settle target a).1.buf (settle target b).1.buf ∧
      (settle target a).1.reader = (settle target b).1.reader := by
  obtain ⟨s, out, st⟩ := a
  obtain ⟨t, out', st'⟩ := b
  obtain ⟨rfl, rfl⟩ := Prod.mk.inj h
  cases st <;> exact ⟨rfl, hR, rfl⟩

/-- A relation between two representations that the editing and the read
loops keep, with the same bytes copied out, is kept by every step, with the
same outputs. -/
theorem step_sim {T : Type} {intr : UInt8 → S → S}
    {loop : Nat → Bool → Nat → List UInt8 → S → S × List UInt8 × ReadStatus}
    {intr' : UInt8 → T → T} {loop' : Nat → Bool → Nat → List UInt8 → T → T × List UInt8 × ReadStatus}
    (R : S → T → Prop) (hintr : ∀ c s t, R s t → R (intr c s) (intr' c t))
    (hloop : ∀ target killed n out s t, R s t →
      R (loop target killed n out s).1 (loop' target killed n out t).1 ∧
        (loop target killed n out s).2 = (loop' target killed n out t).2)
    {sys sys₁ : ConsSys S} {sys' : ConsSys T} {e : ConsEvent} {o : Option (Int × List UInt8)}
    (hR : R sys.buf sys'.buf) (hrd : sys.reader = sys'.reader) (h : step intr loop sys e = some (sys₁, o)) :
    ∃ sys₁', step intr' loop' sys' e = some (sys₁', o) ∧ R sys₁.buf sys₁'.buf ∧ sys₁.reader = sys₁'.reader := by
  -- a stretch of the read loop, from related states, settles alike
  have hsettle : ∀ target killed n out, settle target (loop target killed n out sys.buf) = (sys₁, o) →
      (settle target (loop' target killed n out sys'.buf)).2 = o ∧
        R sys₁.buf (settle target (loop' target killed n out sys'.buf)).1.buf ∧
        sys₁.reader = (settle target (loop' target killed n out sys'.buf)).1.reader := by
    intro target killed n out hs
    have hl := hloop target killed n out _ _ hR
    obtain ⟨rfl, rfl⟩ := Prod.ext_iff.mp hs
    exact settle_sim target hl.1 hl.2
  cases e with
  | intr c =>
    obtain ⟨rfl, rfl⟩ := Prod.mk.inj (Option.some.inj h)
    exact ⟨_, rfl, hintr c _ _ hR, hrd⟩
  | read n killed =>
    simp only [step] at h ⊢
    rw [← hrd]
    split at h
    · rename_i hc
      obtain ⟨hout, hR', hrd'⟩ := hsettle n killed n [] (Option.some.inj h)
      exact ⟨_, by rw [if_pos hc, ← hout], hR', hrd'⟩
    · cases h
  | wake killed =>
    simp only [step] at h ⊢
    rw [← hrd]
    cases hr : sys.reader with
    | none => rw [hr] at h; cases h
    | some rd =>
      rw [hr, Option.map_some] at h
      obtain ⟨hout, hR', hrd'⟩ := hsettle rd.target killed rd.n rd.out (Option.some.inj h)
      exact ⟨_, by rw [Option.map_some, ← hout], hR', hrd'⟩

end ConsSys

/-- The console after `consoleinit`: the counters at `0`, no reader. -/
def Console.init : ConsSys Cons :=
  ⟨⟨fun _ => 0, 0, 0, 0⟩, none⟩

/-- A step of the console on its ring. -/
def consoleStep : ConsSys Cons → ConsEvent → Option (ConsSys Cons × Option (Int × List UInt8)) :=
  ConsSys.step consoleintr readLoop

end Xv6
