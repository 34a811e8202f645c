/-
# `Xv6.Kernel.Pipe` — `pipe.c`: a ring of `PIPESIZE` bytes between two counters

`struct pipe` holds `data[PIPESIZE]` and two `uint` counters, `nread` and
`nwrite`, which only grow and wrap modulo `2^32`; the bytes in the pipe are
the cells from `nread` up to `nwrite`, each at its counter modulo
`PIPESIZE`.  Since `PIPESIZE` divides `2^32`, the wrap moves no cell.

Every stretch of `pipewrite` and `piperead` runs under `pi->lock` until the
call returns or sleeps; what another process does can only come between
two stretches.  The machine here has one step per stretch, of any call, in
any order, with the pipe's ends closed by `pipeclose` at any time and any
caller killed at any time; a sleeping `pipewrite` keeps how far it got.
`copyin` and `copyout` are given as functions of the byte's offset (`none`
or `false` where the user address is bad).

**The abstraction.**  `Pipe.contents` reads the bytes between the counters
as a list, oldest first (`Ring.window`); `Pipe.count` is
`nwrite - nread` as a `uint`.  What a `pipewrite` accepted is read off its
source: the bytes `copyin` finds at the offsets its `i` went through
(`PipeSys.took`, `acceptedBytes`).

**Proved here.**

    put_contents          writing a byte into a pipe that is not full
                          appends it to the contents
    contents_of_ne        the byte at nread is the first of the contents
    pipewriteLoop_spec    a stretch of pipewrite appends what it copied in,
                          and returns -1 only for a closed read end or a
                          killed writer
    pipereadLoop_spec     the copy loop of piperead removes from the front
                          exactly what it copies out
    piperead_bad_copy_drops
                          why the read buffers must be good: `nread`
                          moves before `copyout`, so a failed copy loses
                          the oldest byte
    pipeStep_spec         the step lemma: the invariant, the stream
                          equation, and the meaning of the two returns
    pipe_run              the same over every run from pipealloc, with
                          the bytes stored those the writers took from
                          their sources
    pipe_fifo             hence, with good read buffers: the count stays
                          within PIPESIZE, the bytes copied out are a prefix
                          of the bytes the writers took from their sources
                          (`acceptedBytes`), the rest being the contents;
                          each stretch of a `pipewrite` took its source's
                          bytes in order and returned how far it got, short
                          of its count only at a bad byte, or `-1`; and the
                          two returns keep their meaning
-/
import Xv6.Lib.Ring
import Xv6.Lib.Run

namespace Xv6

/-- `PIPESIZE`. -/
def PIPESIZE : Nat := 512

attribute [grind] PIPESIZE

instance : NeZero PIPESIZE := ⟨by decide⟩

/-- `struct pipe`, without its lock. -/
structure Pipe where
  data : Fin PIPESIZE → UInt8
  nread : UInt32
  nwrite : UInt32
  readopen : Bool
  writeopen : Bool

namespace Pipe

/-- `x % PIPESIZE`, as an index of `data`. -/
def idx (x : UInt32) : Fin PIPESIZE :=
  Fin.ofNat PIPESIZE (x % UInt32.ofNat PIPESIZE).toNat

/-- `pi->data[pi->nwrite++ % PIPESIZE] = ch`. -/
def put (pi : Pipe) (ch : UInt8) : Pipe :=
  { pi with data := Function.update pi.data (idx pi.nwrite) ch, nwrite := pi.nwrite + 1 }

/-- `nwrite - nread`, the bytes in the pipe. -/
def count (pi : Pipe) : Nat :=
  (pi.nwrite - pi.nread).toNat

/-- The bytes in the pipe, oldest first. -/
def contents (pi : Pipe) : List UInt8 :=
  Ring.window pi.data pi.nread.toNat pi.count

attribute [grind] idx put count contents

end Pipe

/-- `pipeclose(pi, writable)`, up to the `kfree` once both ends are closed. -/
def pipeclose (pi : Pipe) (writable : Bool) : Pipe :=
  if writable then { pi with writeopen := false } else { pi with readopen := false }

/-- The loop of `pipewrite` from byte `i` of `n`, until the call sleeps
(`none`) or returns; with the pipe, how far it got and the bytes it
stored.  `src k` is what `copyin` reads at `addr + k` (`none` if it fails),
`killed k` what `killed(pr)` says when the loop tests it before byte `k`. -/
def pipewriteLoop (src : Nat → Option UInt8) (n : Int32) (killed : Nat → Bool) (pi : Pipe)
    (i : Nat) : Pipe × Nat × List UInt8 × Option Int32 :=
  if (i : Int) < n.toInt then
    if pi.readopen = false ∨ killed i = true then (pi, i, [], some (-1))
    else if pi.nwrite = pi.nread + UInt32.ofNat PIPESIZE then (pi, i, [], none)
    else
      match src i with
      | none => (pi, i, [], some (Int32.ofNat i))
      | some ch =>
          let (pi, j, stored, r) := pipewriteLoop src n killed (pi.put ch) (i + 1)
          (pi, j, ch :: stored, r)
  else (pi, i, [], some (Int32.ofNat i))
termination_by (n.toInt - i).toNat
decreasing_by omega

/-- The copy loop of `piperead` from byte `i` of `n`, with the bytes it
copied out; `ok k` is whether `copyout` to `addr + k` succeeds.  The byte
is taken, and `nread` advanced, before the copy. -/
def pipereadLoop (n : Int32) (ok : Nat → Bool) (pi : Pipe) (i : Nat) : Pipe × Nat × List UInt8 :=
  if (i : Int) < n.toInt then
    if pi.nread = pi.nwrite then (pi, i, [])
    else
      let ch := pi.data (Pipe.idx pi.nread)
      let pi := { pi with nread := pi.nread + 1 }
      if ok i = true then
        let (pi, j, out) := pipereadLoop n ok pi (i + 1)
        (pi, j, ch :: out)
      else (pi, i, [])
  else (pi, i, [])
termination_by (n.toInt - i).toNat
decreasing_by omega

/-- One stretch of `piperead`: the wait loop, which sleeps (`none`), or
returns `-1` to a killed reader, then the copy loop. -/
def piperead (n : Int32) (killed : Bool) (ok : Nat → Bool) (pi : Pipe) :
    Pipe × Option (Int32 × List UInt8) :=
  if pi.nread = pi.nwrite ∧ pi.writeopen = true then
    if killed = true then (pi, some (-1, [])) else (pi, none)
  else
    let (pi, i, out) := pipereadLoop n ok pi 0
    (pi, some (Int32.ofNat i, out))

attribute [grind] pipereadLoop piperead

/-! ## The machine -/

/-- A `pipewrite` asleep on the pipe: its source, its count, and how many
bytes it has written. -/
structure Writer where
  src : Nat → Option UInt8
  n : Int32
  i : Nat

/-- The pipe, and the calls of `pipewrite` asleep on it, by caller. -/
structure PipeSys where
  pipe : Pipe
  writers : Nat → Option Writer

/-- A stretch under `pi->lock`, or a `pipeclose`. -/
inductive PipeEvent where
  /-- Caller `id` calls `pipewrite(pi, addr, n)`. -/
  | write (id : Nat) (src : Nat → Option UInt8) (n : Int32) (killed : Nat → Bool)
  /-- The sleeping `pipewrite` of caller `id` runs again. -/
  | wake (id : Nat) (killed : Nat → Bool)
  /-- A `piperead(pi, addr, n)`, called or woken, runs. -/
  | read (n : Int32) (killed : Bool) (ok : Nat → Bool)
  /-- `pipeclose(pi, writable)`. -/
  | close (writable : Bool)

/-- What a stretch did: the bytes it stored, the bytes it copied out, what
the call returned, if it returned, and for a stretch of `pipewrite` how far
its `i` got. -/
structure PipeOut where
  stored : List UInt8
  copied : List UInt8
  ret : Option Int32
  upto : Nat

/-- A stretch of the `pipewrite` of caller `id`: asleep again with its
progress, or returned and gone. -/
def runWriter (S : PipeSys) (id : Nat) (w : Writer) (killed : Nat → Bool) : PipeSys × PipeOut :=
  let (pi, i, stored, r) := pipewriteLoop w.src w.n killed S.pipe w.i
  ({ pipe := pi, writers := Function.update S.writers id (if r.isNone then some { w with i := i } else none) },
    ⟨stored, [], r, i⟩)

/-- One step of the pipe machine. -/
def pipeStep (S : PipeSys) : PipeEvent → Option (PipeSys × PipeOut)
  | .write id src n killed =>
      if S.writers id = none then some (runWriter S id ⟨src, n, 0⟩ killed) else none
  | .wake id killed => (S.writers id).map fun w => runWriter S id w killed
  | .read n killed ok =>
      let (pi, r) := piperead n killed ok S.pipe
      some ({ S with pipe := pi }, ⟨[], (r.map Prod.snd).getD [], r.map Prod.fst, 0⟩)
  | .close writable => some ({ S with pipe := pipeclose S.pipe writable }, ⟨[], [], none, 0⟩)

/-- The pipe as `pipealloc` leaves it: both ends open, both counters `0`,
and whatever the page held. -/
def PipeSys.fresh (data : Fin PIPESIZE → UInt8) : PipeSys :=
  ⟨⟨data, 0, 0, true, true⟩, fun _ => none⟩

attribute [grind] pipeStep PipeSys.fresh

/-! ## What the writers take from their sources -/

/-- The caller whose `pipewrite` a step runs, and where that call had got
to: a new call at byte `0`, a woken one where it went to sleep. -/
def PipeSys.writerOf (S : PipeSys) : PipeEvent → Option (Nat × Writer)
  | .write id src n _ => some (id, ⟨src, n, 0⟩)
  | .wake id _ => (S.writers id).map fun w => (id, w)
  | _ => none

/-- What a step took from the source of its `pipewrite`: what `copyin`
reads at the offsets from where the call had got to up to `upto`. -/
def PipeSys.took (S : PipeSys) (e : PipeEvent) (o : PipeOut) : List (Option UInt8) :=
  match S.writerOf e with
  | some (_, w) => (List.range' w.i (o.upto - w.i)).map w.src
  | none => []

/-- The bytes the `pipewrite`s of a run took from their sources, in the
order they took them. -/
def acceptedBytes : List (PipeSys × PipeEvent × PipeOut) → List (Option UInt8)
  | [] => []
  | (S, e, o) :: h => acceptedBytes h ++ S.took e o

attribute [grind] PipeSys.writerOf PipeSys.took acceptedBytes

/-- What a stretch of a `pipewrite` that had got to `w` did, by its source
and its return: it took the source's bytes from `w.i` up to `o.upto`, all
good, and stored them in that order; it returned `o.upto` or `-1`, or went
back to sleep; and it returned less than its count only at a byte `copyin`
could not read. -/
structure Wrote (w : Writer) (o : PipeOut) : Prop where
  le : w.i ≤ o.upto
  stored : o.stored.map some = (List.range' w.i (o.upto - w.i)).map w.src
  ret : o.ret = none ∨ o.ret = some (-1) ∨ o.ret = some (Int32.ofNat o.upto)
  short : o.ret = some (Int32.ofNat o.upto) → (o.upto : Int) < w.n.toInt → w.src o.upto = none

/-! ## The counters and the contents -/

namespace Pipe

variable {pi : Pipe} {ch : UInt8}

theorem idx_eq (x : UInt32) : idx x = Fin.ofNat PIPESIZE x.toNat := by
  have hsize : (UInt32.ofNat PIPESIZE).toNat = PIPESIZE := rfl
  ext
  simp only [idx, UInt32.toNat_mod, hsize, Fin.val_ofNat, Nat.mod_mod]

theorem nwrite_mod (pi : Pipe) : pi.nwrite.toNat % PIPESIZE = (pi.nread.toNat + pi.count) % PIPESIZE := by
  have ha := pi.nwrite.toNat_lt
  have hb := pi.nread.toNat_lt
  simp only [count, UInt32.toNat_sub, PIPESIZE]
  omega

/-- `nwrite == nread + PIPESIZE` is the test for a full pipe. -/
theorem full_iff : pi.nwrite = pi.nread + UInt32.ofNat PIPESIZE ↔ pi.count = PIPESIZE := by
  have ha := pi.nwrite.toNat_lt
  have hb := pi.nread.toNat_lt
  rw [← UInt32.toNat_inj]
  simp only [count, UInt32.toNat_sub, UInt32.toNat_add, PIPESIZE]
  have : (UInt32.ofNat 512).toNat = 512 := rfl
  rw [this]
  omega

/-- `nread == nwrite` is the test for an empty pipe. -/
theorem empty_iff : pi.nread = pi.nwrite ↔ pi.count = 0 := by
  have ha := pi.nwrite.toNat_lt
  have hb := pi.nread.toNat_lt
  rw [← UInt32.toNat_inj]
  simp only [count, UInt32.toNat_sub]
  omega

theorem count_put (h : pi.count < PIPESIZE) : (pi.put ch).count = pi.count + 1 := by
  have ha := pi.nwrite.toNat_lt
  have hb := pi.nread.toNat_lt
  simp only [count, put, UInt32.toNat_sub, UInt32.toNat_add, UInt32.toNat_one] at h ⊢
  unfold PIPESIZE at h
  omega

/-- Writing into a pipe that is not full appends the byte. -/
theorem put_contents (h : pi.count < PIPESIZE) : (pi.put ch).contents = pi.contents ++ [ch] := by
  have hidx : idx pi.nwrite = Fin.ofNat PIPESIZE (pi.nread.toNat + pi.count) := by
    rw [idx_eq]
    exact Fin.ext (by simp [nwrite_mod pi])
  simp only [contents, count_put h]
  simp only [put, hidx]
  exact Ring.window_push h

/-- Reading the byte at `nread` shortens the pipe by one. -/
theorem count_take (h : pi.count ≠ 0) : ({ pi with nread := pi.nread + 1 } : Pipe).count = pi.count - 1 := by
  have ha := pi.nwrite.toNat_lt
  have hb := pi.nread.toNat_lt
  simp only [count, UInt32.toNat_sub, UInt32.toNat_add, UInt32.toNat_one] at h ⊢
  omega

/-- The byte at `nread` is the oldest. -/
theorem contents_of_ne (h : pi.count ≠ 0) :
    pi.contents = pi.data (idx pi.nread) :: ({ pi with nread := pi.nread + 1 } : Pipe).contents := by
  obtain ⟨c, hc⟩ : ∃ c, pi.count = c + 1 := ⟨pi.count - 1, by omega⟩
  have hmod : (pi.nread.toNat + 1) % PIPESIZE = (pi.nread + 1).toNat % PIPESIZE := by
    simp only [UInt32.toNat_add, UInt32.toNat_one, PIPESIZE]
    omega
  simp only [contents, count_take h, hc, Ring.window_succ, idx_eq, Nat.add_sub_cancel]
  rw [Ring.window_mod hmod]

end Pipe

/-! ## One stretch -/

/-- What a stretch of `pipewrite` from byte `i` of `src` and from `pi` did,
with `res` what it ended with: the pipe stays within `PIPESIZE`, its new
bytes are those stored, which are the source's from `i` on, the progress
stays within the count, the stretch returns `-1` only for a closed read end
or a killed writer, returns its progress otherwise, short of the count only
at a bad source byte, or sleeps on a full pipe. -/
structure WroteFrom (src : Nat → Option UInt8) (n : Int32) (killed : Nat → Bool) (pi : Pipe) (i : Nat)
    (res : Pipe × Nat × List UInt8 × Option Int32) : Prop where
  count : res.1.count ≤ PIPESIZE
  contents : res.1.contents = pi.contents ++ res.2.2.1
  bound : (res.2.1 : Int) ≤ max n.toInt 0
  fail : res.2.2.2 = some (-1) → pi.readopen = false ∨ killed res.2.1 = true
  progress : i ≤ res.2.1
  stored : res.2.2.1.map some = (List.range' i (res.2.1 - i)).map src
  ret : res.2.2.2 = none ∨ res.2.2.2 = some (-1) ∨ res.2.2.2 = some (Int32.ofNat res.2.1)
  short : res.2.2.2 = some (Int32.ofNat res.2.1) → (res.2.1 : Int) < n.toInt → src res.2.1 = none
  full : res.2.2.2 = none → res.1.count = PIPESIZE

/-- `return i` is not `-1`: `i` is below `2^31`. -/
theorem ofNat_ne_neg_one {i : Nat} {n : Int32} (hi : (i : Int) ≤ max n.toInt 0) :
    Int32.ofNat i ≠ -1 := by
  have hn := n.toInt_lt
  intro h
  have := congrArg Int32.toInt h
  rw [Int32.toInt_ofNat_of_lt (by omega)] at this
  simp at this

/-- A stretch that ends at byte `i` without storing stores what the
source holds from `i` on: nothing. -/
theorem stored_nil (src : Nat → Option UInt8) (i : Nat) :
    ([] : List UInt8).map some = (List.range' i (i - i)).map src := by
  simp

theorem pipewriteLoop_spec {src : Nat → Option UInt8} {n : Int32} {killed : Nat → Bool} {pi : Pipe}
    {i : Nat} (hc : pi.count ≤ PIPESIZE) (hi : (i : Int) ≤ max n.toInt 0) :
    WroteFrom src n killed pi i (pipewriteLoop src n killed pi i) := by
  fun_induction pipewriteLoop src n killed pi i with
  | case1 pi i hlt hstop =>
      -- `-1` for a closed read end or a killed writer
      exact ⟨hc, by simp, hi, fun _ => by simpa using hstop, le_rfl, stored_nil src i, .inr (.inl rfl),
        fun h => absurd (Option.some.inj h).symm (ofNat_ne_neg_one hi), nofun⟩
  | case2 pi i hlt _ hfull =>
      -- asleep on a full pipe
      exact ⟨hc, by simp, hi, nofun, le_rfl, stored_nil src i, .inl rfl, nofun, fun _ => Pipe.full_iff.mp hfull⟩
  | case3 pi i hlt _ _ hsrc =>
      -- `copyin` fails: the bytes so far
      exact ⟨hc, by simp, hi, fun h => absurd (Option.some.inj h) (ofNat_ne_neg_one hi), le_rfl,
        stored_nil src i, .inr (.inr rfl), fun _ _ => hsrc, nofun⟩
  | case4 pi i hlt hstop hfull ch hsrc pi' j stored r hres ih =>
      -- not full, so the byte goes in and the rest of the stretch follows
      have hlt' : pi.count < PIPESIZE := lt_of_le_of_ne hc (mt Pipe.full_iff.mpr hfull)
      have hrest := ih (by rw [Pipe.count_put hlt']; omega) (by omega)
      rw [hres] at hrest
      have hj : i + 1 ≤ j := hrest.progress
      refine ⟨hrest.count, ?_, hrest.bound, fun h => ?_, by show i ≤ j; omega, ?_, hrest.ret, hrest.short,
        hrest.full⟩
      · rw [hrest.contents, Pipe.put_contents hlt', List.append_assoc]
        rfl
      · simpa [Pipe.put] using hrest.fail h
      · -- byte `i` is `ch`, the rest are the source's from `i + 1` on
        obtain ⟨m, hm⟩ : ∃ m, j - i = m + 1 := ⟨j - (i + 1), by omega⟩
        have hrest' : stored.map some = (List.range' (i + 1) m).map src := by
          have hst : stored.map some = (List.range' (i + 1) (j - (i + 1))).map src := hrest.stored
          rw [hst]
          congr 2
          omega
        show (ch :: stored).map some = (List.range' i (j - i)).map src
        rw [hm, List.range'_succ, List.map_cons, List.map_cons, hrest', hsrc]
  | case5 pi i hge =>
      -- the whole count is written
      exact ⟨hc, by simp, hi, fun h => absurd (Option.some.inj h) (ofNat_ne_neg_one hi), le_rfl,
        stored_nil src i, .inr (.inr rfl), fun _ hlt => absurd hlt hge, nofun⟩

/-- What the copy loop of `piperead` from byte `i` did: the pipe only
shrinks; when every copy succeeds it loses from the front exactly the bytes
copied out; and it stops at byte `i` only at the count, at an empty pipe
or at a failed copy. -/
structure ReadFrom (pi : Pipe) (n : Int32) (ok : Nat → Bool) (i : Nat)
    (res : Pipe × Nat × List UInt8) : Prop where
  count : res.1.count ≤ pi.count
  contents : (∀ k, ok k = true) → pi.contents = res.2.2 ++ res.1.contents
  progress : i ≤ res.2.1
  bound : (res.2.1 : Int) ≤ max n.toInt i
  stop : res.2.1 = i → (i : Int) < n.toInt → pi.nread = pi.nwrite ∨ ok i = false

theorem pipereadLoop_spec {n : Int32} {ok : Nat → Bool} {pi : Pipe} {i : Nat} :
    ReadFrom pi n ok i (pipereadLoop n ok pi i) := by
  fun_induction pipereadLoop n ok pi i with
  | case1 pi i hlt hempty =>
      exact ⟨le_rfl, fun _ => by simp, le_rfl, le_max_right _ _, fun _ _ => Or.inl hempty⟩
  | case2 pi i hlt hne ch pi₁ hok pi₂ j out hres ih =>
      -- the byte at `nread` is taken and copied out, then the loop goes on
      rw [hres] at ih
      have hc : pi.count ≠ 0 := mt Pipe.empty_iff.mpr hne
      have hprog : i + 1 ≤ j := ih.progress
      have hbound : (j : Int) ≤ max n.toInt ((i + 1 : Nat) : Int) := ih.bound
      refine ⟨le_trans ih.count (by rw [Pipe.count_take hc]; omega), fun hall => ?_, by
        show i ≤ j; omega, by show (j : Int) ≤ max n.toInt i; omega, fun hj _ => ?_⟩
      · rw [Pipe.contents_of_ne hc, ih.contents hall]
        rfl
      · change j = i at hj
        omega
  | case3 pi i hlt hne pi₁ hok =>
      have hc : pi.count ≠ 0 := mt Pipe.empty_iff.mpr hne
      refine ⟨by rw [Pipe.count_take hc]; omega, fun hall => absurd (hall i) hok, le_rfl,
        le_max_right _ _, fun _ _ => Or.inr (by simpa using hok)⟩
  | case4 pi i hge =>
      exact ⟨le_rfl, fun _ => by simp, le_rfl, le_max_right _ _, fun _ hlt => absurd hlt hge⟩

/-- `return i` is `0` only for `i = 0`: `i` is below `2^31`. -/
theorem eq_zero_of_ofNat {j : Nat} {n : Int32} (hj : (j : Int) ≤ max n.toInt 0)
    (h : Int32.ofNat j = 0) : j = 0 := by
  have hn := n.toInt_lt
  have := congrArg Int32.toInt h
  rw [Int32.toInt_ofNat_of_lt (by omega)] at this
  simpa using this

/-- Why the buffers must be good: `piperead` advances `nread` before its
`copyout`, so a copy that fails drops the oldest byte, which no one gets. -/
theorem piperead_bad_copy_drops {n : Int32} {killed : Bool} {ok : Nat → Bool} {pi : Pipe}
    (hc : pi.count ≠ 0) (hn : 0 < n.toInt) (hok : ok 0 = false) :
    piperead n killed ok pi = ({ pi with nread := pi.nread + 1 }, some (0, [])) ∧
    pi.contents = pi.data (Pipe.idx pi.nread) :: ({ pi with nread := pi.nread + 1 } : Pipe).contents := by
  have hne : ¬ pi.nread = pi.nwrite := mt Pipe.empty_iff.mp hc
  refine ⟨?_, Pipe.contents_of_ne hc⟩
  rw [piperead, if_neg (fun h => hne h.1), pipereadLoop, if_pos (by simpa using hn), if_neg hne]
  simp [hok]

/-- A stretch of `piperead`: the pipe only shrinks; with good copies it
loses from the front what it copied out; and it returns `0` for `n > 0`
only when the pipe was empty with its write end closed. -/
theorem piperead_spec {n : Int32} {killed : Bool} {ok : Nat → Bool} {pi pi' : Pipe}
    {r : Option (Int32 × List UInt8)} (h : piperead n killed ok pi = (pi', r)) :
    pi'.count ≤ pi.count ∧
    ((∀ k, ok k = true) → pi.contents = (r.map Prod.snd).getD [] ++ pi'.contents) ∧
    (r.map Prod.fst = some 0 → 0 < n.toInt → (∀ k, ok k = true) →
      pi.nread = pi.nwrite ∧ pi.writeopen = false) := by
  unfold piperead at h
  split at h
  · -- the wait loop: asleep, or `-1` for a killed reader, with nothing taken
    split at h <;> cases h <;> simp
  · rename_i hwait
    have hl : ReadFrom pi n ok 0 (pipereadLoop n ok pi 0) := pipereadLoop_spec
    rcases hres : pipereadLoop n ok pi 0 with ⟨pi₁, j, out⟩
    rw [hres] at hl h
    cases h
    refine ⟨hl.count, hl.contents, fun hz hn hall => ?_⟩
    -- `return i` gave `0`, so the copy loop stopped at once
    have hb : (j : Int) ≤ max n.toInt 0 := by simpa using hl.bound
    have hj : j = 0 := eq_zero_of_ofNat hb (by simpa using hz)
    rcases hl.stop hj (by simpa using hn) with he | hf
    · exact ⟨he, by simpa [he] using hwait⟩
    · simp [hall] at hf

@[simp] theorem pipeclose_count (pi : Pipe) (writable : Bool) :
    (pipeclose pi writable).count = pi.count := by
  unfold pipeclose
  split <;> rfl

@[simp] theorem pipeclose_contents (pi : Pipe) (writable : Bool) :
    (pipeclose pi writable).contents = pi.contents := by
  unfold pipeclose
  split <;> rfl

/-! ## Every step, and every run -/

/-- The state invariant: the pipe within `PIPESIZE`, and each sleeping
`pipewrite` within its count. -/
structure PipeSys.Inv (S : PipeSys) : Prop where
  count : S.pipe.count ≤ PIPESIZE
  writers : ∀ id w, S.writers id = some w → (w.i : Int) ≤ max w.n.toInt 0

/-- What one step guarantees: the invariant; the stream equation (the
bytes in the pipe and those stored are those copied out and those left),
when the step is not a read to a bad buffer; the bytes stored are those
taken from the source of a `pipewrite`, whose stretch did what `Wrote`
says and, asleep again, sleeps on a full pipe where it got to; and the
meaning of `0` from `piperead` and of `-1` from `pipewrite`. -/
structure StepSpec (S : PipeSys) (e : PipeEvent) (S' : PipeSys) (o : PipeOut) : Prop where
  inv : S'.Inv
  stream : (∀ n k ok, e = .read n k ok → ∀ i, ok i = true) →
    S.pipe.contents ++ o.stored = o.copied ++ S'.pipe.contents
  took : o.stored.map some = S.took e o
  wrote : ∀ id w, S.writerOf e = some (id, w) →
    Wrote w o ∧ (o.ret = none → S'.pipe.count = PIPESIZE ∧ S'.writers id = some { w with i := o.upto })
  read_zero : ∀ n k ok, e = .read n k ok → o.ret = some 0 → 0 < n.toInt → (∀ i, ok i = true) →
    S.pipe.nread = S.pipe.nwrite ∧ S.pipe.writeopen = false
  write_fail : ∀ killed, ((∃ id src n, e = .write id src n killed) ∨ ∃ id, e = .wake id killed) →
    o.ret = some (-1) → S.pipe.readopen = false ∨ ∃ k, killed k = true

section Steps

variable {S S' : PipeSys} {o : PipeOut}

/-- A stretch of a `pipewrite`. -/
theorem runWriter_spec (hI : S.Inv) {id : Nat} {w : Writer} {killed : Nat → Bool}
    (hw : (w.i : Int) ≤ max w.n.toInt 0) (h : runWriter S id w killed = (S', o)) :
    S'.Inv ∧ S.pipe.contents ++ o.stored = o.copied ++ S'.pipe.contents ∧
    (o.ret = some (-1) → S.pipe.readopen = false ∨ ∃ k, killed k = true) ∧ Wrote w o ∧
    (o.ret = none → S'.pipe.count = PIPESIZE ∧ S'.writers id = some { w with i := o.upto }) := by
  have hl : WroteFrom w.src w.n killed S.pipe w.i (pipewriteLoop w.src w.n killed S.pipe w.i) :=
    pipewriteLoop_spec hI.count hw
  unfold runWriter at h
  rcases hres : pipewriteLoop w.src w.n killed S.pipe w.i with ⟨pi, j, stored, r⟩
  rw [hres] at hl h
  cases h
  refine ⟨⟨hl.count, fun id' w' hw' => ?_⟩, by simp [hl.contents], fun hr => ?_,
    ⟨hl.progress, hl.stored, hl.ret, hl.short⟩, fun (hr : r = none) => ⟨hl.full hr, by simp [hr]⟩⟩
  · -- the caller keeps its progress if it sleeps again; the others are as they were
    dsimp only at hw'
    by_cases hid : id' = id
    · subst hid
      simp only [Function.update_self] at hw'
      split at hw'
      · cases hw'
        exact hl.bound
      · cases hw'
    · rw [Function.update_of_ne hid] at hw'
      exact hI.writers id' w' hw'
  · rcases hl.fail hr with hro | hk
    · exact Or.inl hro
    · exact Or.inr ⟨j, hk⟩

/-- A step that runs a stretch of the `pipewrite` of `id`, which had got
to `w`, with `killed` what `killed(pr)` says. -/
theorem runWriter_stepSpec (hI : S.Inv) {e : PipeEvent} {id : Nat} {w : Writer} {killed : Nat → Bool}
    (he : S.writerOf e = some (id, w))
    (hk : ∀ k, ((∃ id src n, e = .write id src n k) ∨ ∃ id, e = .wake id k) → k = killed)
    (hw : (w.i : Int) ≤ max w.n.toInt 0) (h : runWriter S id w killed = (S', o)) : StepSpec S e S' o := by
  obtain ⟨hI', hstream, hfail, hwrote, hsleep⟩ := runWriter_spec hI hw h
  have htook : S.took e o = (List.range' w.i (o.upto - w.i)).map w.src := by
    rw [PipeSys.took, he]
  refine ⟨hI', fun _ => hstream, htook ▸ hwrote.stored, fun id' w' he' => ?_, fun n k ok hr => ?_,
    fun k hke hret => ?_⟩
  · rw [he, Option.some.injEq, Prod.mk.injEq] at he'
    obtain ⟨rfl, rfl⟩ := he'
    exact ⟨hwrote, hsleep⟩
  · -- a read runs no `pipewrite`
    subst hr
    cases he
  · exact hk k hke ▸ hfail hret

/-- The step lemma. -/
theorem pipeStep_spec (hI : S.Inv) {e : PipeEvent} (h : pipeStep S e = some (S', o)) :
    StepSpec S e S' o := by
  cases e with
  | write id src n killed =>
      simp only [pipeStep] at h
      split at h
      · refine runWriter_stepSpec hI rfl (fun k hk => ?_) (by simp) (Option.some.inj h)
        rcases hk with ⟨_, _, _, he⟩ | ⟨_, he⟩ <;> cases he
        rfl
      · cases h
  | wake id killed =>
      obtain ⟨w, hw, hrun⟩ := Option.map_eq_some_iff.mp h
      refine runWriter_stepSpec hI (by simp [PipeSys.writerOf, hw]) (fun k hk => ?_) (hI.writers id w hw) hrun
      rcases hk with ⟨_, _, _, he⟩ | ⟨_, he⟩ <;> cases he
      rfl
  | read n killed ok =>
      simp only [pipeStep] at h
      rcases hres : piperead n killed ok S.pipe with ⟨pi, r⟩
      rw [hres] at h
      cases h
      obtain ⟨hcount, hcontents, hzero⟩ := piperead_spec hres
      refine ⟨⟨le_trans hcount hI.count, hI.writers⟩, fun hok => ?_, rfl, fun _ _ he => (by cases he),
        fun n' k' ok' he hr hn hall => ?_, fun _ hk => ?_⟩
      · rw [List.append_nil]
        exact hcontents (hok n killed ok rfl)
      · cases he
        exact hzero hr hn hall
      · rcases hk with ⟨_, _, _, he⟩ | ⟨_, he⟩ <;> cases he
  | close writable =>
      simp only [pipeStep, Option.some.injEq] at h
      cases h
      refine ⟨⟨by simpa using hI.count, hI.writers⟩, fun _ => by simp, rfl, fun _ _ he => (by cases he),
        fun _ _ _ he => (by cases he), fun _ hk => ?_⟩
      rcases hk with ⟨_, _, _, he⟩ | ⟨_, he⟩ <;> cases he

end Steps

/-- The bytes the stretches of a run stored, in the order they stored
them. -/
def storedBytes : List (PipeSys × PipeEvent × PipeOut) → List UInt8
  | [] => []
  | (_, _, o) :: h => storedBytes h ++ o.stored

/-- The bytes the reads of a run copied out, in the order they completed. -/
def copiedBytes : List (PipeSys × PipeEvent × PipeOut) → List UInt8
  | [] => []
  | (_, _, o) :: h => copiedBytes h ++ o.copied

attribute [grind] storedBytes copiedBytes

theorem PipeSys.fresh_inv (data : Fin PIPESIZE → UInt8) : (PipeSys.fresh data).Inv :=
  ⟨show ((0 : UInt32) - 0).toNat ≤ PIPESIZE by decide, fun _ _ h => by cases h⟩

theorem PipeSys.fresh_contents (data : Fin PIPESIZE → UInt8) :
    (PipeSys.fresh data).pipe.contents = [] := by
  simp [Pipe.contents, Pipe.count, PipeSys.fresh]

/-- The run lemma: from `pipealloc`, every run keeps the invariant; the
bytes copied out, followed by the contents, are the bytes stored, as long
as no read copied out to a bad buffer; the bytes stored are those the
writers took from their sources; and every step kept what `Wrote` says of a
`pipewrite` and the meaning of the two returns. -/
theorem pipe_run {data : Fin PIPESIZE → UInt8} {h : List (PipeSys × PipeEvent × PipeOut)}
    {S : PipeSys} (hr : Machine.Run pipeStep (PipeSys.fresh data) h S) :
    S.Inv ∧
    ((∀ x ∈ h, ∀ n k ok, x.2.1 = .read n k ok → ∀ i, ok i = true) →
      copiedBytes h ++ S.pipe.contents = storedBytes h) ∧
    (storedBytes h).map some = acceptedBytes h ∧
    ∀ x ∈ h,
      (∀ id w, x.1.writerOf x.2.1 = some (id, w) → Wrote w x.2.2) ∧
      (∀ n k ok, x.2.1 = .read n k ok → x.2.2.ret = some 0 → 0 < n.toInt → (∀ i, ok i = true) →
        x.1.pipe.nread = x.1.pipe.nwrite ∧ x.1.pipe.writeopen = false) ∧
      (∀ killed, ((∃ id src n, x.2.1 = .write id src n killed) ∨ ∃ id, x.2.1 = .wake id killed) →
        x.2.2.ret = some (-1) → x.1.pipe.readopen = false ∨ ∃ k, killed k = true) := by
  induction hr with
  | nil =>
      exact ⟨PipeSys.fresh_inv data, fun _ => by simp [copiedBytes, storedBytes, PipeSys.fresh_contents],
        rfl, fun _ hx => by cases hx⟩
  | @cons h s s' e o _ hs ih =>
      obtain ⟨hI, hstream, htook, hret⟩ := ih
      have hspec := pipeStep_spec hI hs
      refine ⟨hspec.inv, fun hok => ?_, ?_, fun x hx => ?_⟩
      · -- the stream equation of the step, after that of the run before it
        have hrest := hstream fun x hx => hok x (List.mem_cons_of_mem _ hx)
        have hstep := hspec.stream (hok (s, e, o) List.mem_cons_self)
        simp only [copiedBytes, storedBytes, List.append_assoc, ← hstep, ← hrest]
      · simp only [storedBytes, acceptedBytes, List.map_append, htook, hspec.took]
      · rcases List.mem_cons.mp hx with rfl | hx
        · exact ⟨fun id w he => (hspec.wrote id w he).1, hspec.read_zero, hspec.write_fail⟩
        · exact hret x hx

theorem pipe_fifo {data : Fin PIPESIZE → UInt8} {h : List (PipeSys × PipeEvent × PipeOut)}
    {S : PipeSys} (hr : Machine.Run pipeStep (PipeSys.fresh data) h S)
    (hok : ∀ x ∈ h, ∀ n k ok, x.2.1 = .read n k ok → ∀ i, ok i = true) :
    (S.pipe.nwrite - S.pipe.nread).toNat ≤ PIPESIZE ∧
    (copiedBytes h ++ S.pipe.contents).map some = acceptedBytes h ∧
    (copiedBytes h).map some <+: acceptedBytes h ∧
    (∀ x ∈ h, ∀ id w, x.1.writerOf x.2.1 = some (id, w) → Wrote w x.2.2) ∧
    (∀ x ∈ h, ∀ n k ok, x.2.1 = .read n k ok → x.2.2.ret = some 0 → 0 < n.toInt →
      x.1.pipe.nread = x.1.pipe.nwrite ∧ x.1.pipe.writeopen = false) ∧
    (∀ x ∈ h, ∀ killed, ((∃ id src n, x.2.1 = .write id src n killed) ∨ ∃ id, x.2.1 = .wake id killed) →
      x.2.2.ret = some (-1) → x.1.pipe.readopen = false ∨ ∃ k, killed k = true) := by
  obtain ⟨hI, hstream, htook, hret⟩ := pipe_run hr
  -- what the reads and the pipe hold is what the writers took from their sources
  have hfifo : (copiedBytes h ++ S.pipe.contents).map some = acceptedBytes h := by
    rw [hstream hok, htook]
  refine ⟨hI.count, hfifo, ⟨S.pipe.contents.map some, by rw [← List.map_append, hfifo]⟩,
    fun x hx => (hret x hx).1, fun x hx n k ok he hz hn => ?_, fun x hx => (hret x hx).2.2⟩
  -- the read's buffer was good, as every read's in the run
  exact (hret x hx).2.1 n k ok he hz hn (hok x hx n k ok he)

/-- A `pipewrite` of 514 bytes fills the pipe and sleeps; a read of 3
makes room; the writer, woken, stores its last two bytes and returns; a read
of 600 takes the rest; with the write end closed a read returns `0`, and
with the read end closed a new `pipewrite` gets `-1`. -/
def pipeRun : List PipeEvent :=
  [.write 0 (fun k => some (UInt8.ofNat k)) 514 (fun _ => false), .read 3 false (fun _ => true),
    .wake 0 (fun _ => false), .read 600 false (fun _ => true), .close true, .read 4 false (fun _ => true),
    .close false, .write 1 (fun _ => some 7) 5 (fun _ => false)]

attribute [grind] pipeRun

theorem pipe_fifo_sleep_wake : ∃ h S, Machine.Run pipeStep (PipeSys.fresh fun _ => 0) h S ∧
    h.map (fun x => x.2.1) = pipeRun.reverse ∧
    (h.map fun x => x.2.2.ret).reverse = [none, some 3, some 514, some 511, none, some 0, none, some (-1)] ∧
    (S.pipe.nwrite - S.pipe.nread).toNat ≤ PIPESIZE ∧
    (copiedBytes h ++ S.pipe.contents).map some = acceptedBytes h ∧
    (copiedBytes h).map some <+: acceptedBytes h ∧
    (∀ x ∈ h, ∀ id w, x.1.writerOf x.2.1 = some (id, w) → Wrote w x.2.2) ∧
    (∀ x ∈ h, ∀ n k ok, x.2.1 = .read n k ok → x.2.2.ret = some 0 → 0 < n.toInt →
      x.1.pipe.nread = x.1.pipe.nwrite ∧ x.1.pipe.writeopen = false) ∧
    (∀ x ∈ h, ∀ killed, ((∃ id src n, x.2.1 = .write id src n killed) ∨ ∃ id, x.2.1 = .wake id killed) →
      x.2.2.ret = some (-1) → x.1.pipe.readopen = false ∨ ∃ k, killed k = true) := by
  obtain ⟨r, hx⟩ := Option.isSome_iff_exists.mp
    (by decide +kernel : (Machine.exec pipeStep (PipeSys.fresh fun _ => 0) [] pipeRun).isSome)
  obtain ⟨hr, hev⟩ := Machine.run_of_exec hx
  have hret : (r.1.map fun x => x.2.2.ret).reverse =
      [none, some 3, some 514, some 511, none, some 0, none, some (-1)] :=
    Machine.exec_map_eq hx (fun r => (r.1.map fun x => x.2.2.ret).reverse) (by decide +kernel)
  -- every read of the run copies out to a good buffer
  have hok : ∀ x ∈ r.1, ∀ n k ok, x.2.1 = .read n k ok → ∀ i, ok i = true := by
    intro x hx n k ok he i
    have hmem := List.mem_map_of_mem (f := fun x => x.2.1) hx
    rw [hev, he] at hmem
    simp only [pipeRun, List.reverse_cons, List.reverse_nil, List.nil_append, List.cons_append,
      List.mem_cons, PipeEvent.read.injEq, reduceCtorEq, List.not_mem_nil, false_or, or_false] at hmem
    rcases hmem with ⟨-, -, rfl⟩ | ⟨-, -, rfl⟩ | ⟨-, -, rfl⟩ <;> rfl
  exact ⟨r.1, r.2, hr, hev, hret, pipe_fifo hr hok⟩

end Xv6
