/-
# `Xv6.Kernel.Uart` — the transmit ring of `kernel/uart.c`

`uartputc` stores a byte in `uart_tx_buf` at `uart_tx_w` and starts the
transmitter; `uartstart` moves bytes from `uart_tx_r` to `THR` while the
ring is not empty and `LSR` says `THR` is idle.  Both run under
`uart_tx_lock`, so each call is one step of the machine, and a `uartputc`
that finds the ring full sleeps until a `uartstart` has made room: its
step is not enabled before.  `uartstart` runs from `uartputc` and from
`uartintr`; `lsr` is what its successive reads of `LSR_TX_IDLE` return,
and past the end of the list `THR` is busy.

The counters are `uint64`s that only grow; the bytes in the ring are the
window of `Xv6.Lib.Ring` from `uart_tx_r`, `uart_tx_w - uart_tx_r` long.
`uartputc_sync`, the receive side of `uartintr` and `panicked` are left
out: they write to `THR` or read `RHR` without the ring.

**Proved here.**

    uartstart_spec   what `uartstart` writes to `THR`, then the ring, is
                     the ring it found
    uartStep_spec    one step keeps the ring within `UART_TX_BUF_SIZE`
                     and the stream equation
    uart_fifo        on every run, `THR` got the bytes given to
                     `uartputc`, in order, and the ring holds the rest
-/
import Xv6.Lib.Ring
import Xv6.Lib.Run

namespace Xv6

namespace Uart

/-- `UART_TX_BUF_SIZE`. -/
def UART_TX_BUF_SIZE : Nat := 32

attribute [grind] UART_TX_BUF_SIZE

instance neZero_bufSize : NeZero UART_TX_BUF_SIZE := ⟨by decide⟩

/-- `uart_tx_buf`, `uart_tx_w` and `uart_tx_r`. -/
structure Tx where
  buf : Fin UART_TX_BUF_SIZE → UInt8
  w : UInt64
  r : UInt64

/-- `x % UART_TX_BUF_SIZE`, as an index of `buf`. -/
def idx (x : UInt64) : Fin UART_TX_BUF_SIZE :=
  Fin.ofNat UART_TX_BUF_SIZE (x % UInt64.ofNat UART_TX_BUF_SIZE).toNat

/-- `uart_tx_w - uart_tx_r`, the bytes in the ring. -/
def Tx.count (u : Tx) : Nat :=
  (u.w - u.r).toNat

/-- The bytes in the ring, oldest first. -/
def Tx.contents (u : Tx) : List UInt8 :=
  Ring.window u.buf u.r.toNat u.count

/-- `uartstart()`: while the ring is not empty and `THR` is idle, the byte
at `uart_tx_r` goes to `THR`.  The state, and the bytes written to `THR`. -/
def uartstart : Tx → List Bool → Tx × List UInt8
  | u, [] => (u, [])
  | u, idle :: lsr =>
    if u.w = u.r then (u, [])
    else if idle then
      let c := u.buf (idx u.r)
      let r := uartstart { u with r := u.r + 1 } lsr
      (r.1, c :: r.2)
    else (u, [])

/-- `uartputc(c)` once the ring has room: the byte stored at `uart_tx_w`,
and `uartstart`.  `none` while it is full (`uartputc` sleeps). -/
def uartputc (u : Tx) (c : UInt8) (lsr : List Bool) : Option (Tx × List UInt8) :=
  if u.w = u.r + UInt64.ofNat UART_TX_BUF_SIZE then none
  else some (uartstart { u with buf := Function.update u.buf (idx u.w) c, w := u.w + 1 } lsr)

attribute [grind] idx Tx.count Tx.contents uartstart uartputc

/-- A call that takes `uart_tx_lock`: `uartputc`, or the `uartstart` of
`uartintr`. -/
inductive Event where
  | putc (c : UInt8) (lsr : List Bool)
  | intr (lsr : List Bool)

/-- One call; the bytes it wrote to `THR`. -/
def uartStep (u : Tx) : Event → Option (Tx × List UInt8)
  | .putc c lsr => uartputc u c lsr
  | .intr lsr => some (uartstart u lsr)

/-- The ring at boot: both counters `0`. -/
def Tx.boot (buf : Fin UART_TX_BUF_SIZE → UInt8) : Tx :=
  ⟨buf, 0, 0⟩

attribute [grind] uartStep Tx.boot

/-! ## The ring -/

variable {u : Tx}

theorem idx_eq (x : UInt64) : idx x = Fin.ofNat UART_TX_BUF_SIZE x.toNat := by
  have hsize : (UInt64.ofNat UART_TX_BUF_SIZE).toNat = UART_TX_BUF_SIZE := rfl
  ext
  simp only [idx, UInt64.toNat_mod, hsize, Fin.val_ofNat, Nat.mod_mod]

/-- `uart_tx_w == uart_tx_r + UART_TX_BUF_SIZE` is the test for a full
ring. -/
theorem full_iff : u.w = u.r + UInt64.ofNat UART_TX_BUF_SIZE ↔ u.count = UART_TX_BUF_SIZE := by
  have hw := u.w.toNat_lt
  have hr := u.r.toNat_lt
  have hsize : (UInt64.ofNat 32).toNat = 32 := rfl
  rw [← UInt64.toNat_inj]
  simp only [Tx.count, UInt64.toNat_sub, UInt64.toNat_add, UART_TX_BUF_SIZE, hsize]
  omega

/-- `uart_tx_w == uart_tx_r` is the test for an empty ring. -/
theorem empty_iff : u.w = u.r ↔ u.count = 0 := by
  have hw := u.w.toNat_lt
  have hr := u.r.toNat_lt
  rw [← UInt64.toNat_inj]
  simp only [Tx.count, UInt64.toNat_sub]
  omega

/-- Storing at `uart_tx_w` in a ring that is not full appends the byte. -/
theorem contents_put {c : UInt8} (h : u.count < UART_TX_BUF_SIZE) :
    ({ u with buf := Function.update u.buf (idx u.w) c, w := u.w + 1 } : Tx).contents =
      u.contents ++ [c] ∧
    ({ u with buf := Function.update u.buf (idx u.w) c, w := u.w + 1 } : Tx).count = u.count + 1 := by
  have hw := u.w.toNat_lt
  have hr := u.r.toNat_lt
  have hcount : (u.w + 1 - u.r).toNat = u.count + 1 := by
    simp only [Tx.count, UInt64.toNat_sub, UInt64.toNat_add, UInt64.toNat_one, UART_TX_BUF_SIZE] at h ⊢
    omega
  -- the cell of `uart_tx_w` is the one just past the window
  have hmod : u.w.toNat % UART_TX_BUF_SIZE = (u.r.toNat + u.count) % UART_TX_BUF_SIZE := by
    simp only [Tx.count, UInt64.toNat_sub, UART_TX_BUF_SIZE]
    omega
  have hidx : idx u.w = Fin.ofNat UART_TX_BUF_SIZE (u.r.toNat + u.count) := by
    rw [idx_eq]
    exact Fin.ext (by simp [hmod])
  refine ⟨?_, hcount⟩
  simp only [Tx.contents, Tx.count, hcount]
  rw [hidx]
  exact Ring.window_push h

/-- The byte at `uart_tx_r` is the oldest; taking it shortens the ring. -/
theorem contents_take (h : u.count ≠ 0) :
    u.contents = u.buf (idx u.r) :: ({ u with r := u.r + 1 } : Tx).contents ∧
      ({ u with r := u.r + 1 } : Tx).count = u.count - 1 := by
  have hw := u.w.toNat_lt
  have hr := u.r.toNat_lt
  have hcount : ({ u with r := u.r + 1 } : Tx).count = u.count - 1 := by
    simp only [Tx.count, UInt64.toNat_sub, UInt64.toNat_add, UInt64.toNat_one] at h ⊢
    omega
  obtain ⟨k, hk⟩ : ∃ k, u.count = k + 1 := ⟨u.count - 1, by omega⟩
  have hmod : (u.r.toNat + 1) % UART_TX_BUF_SIZE = (u.r + 1).toNat % UART_TX_BUF_SIZE := by
    simp only [UInt64.toNat_add, UInt64.toNat_one, UART_TX_BUF_SIZE]
    omega
  refine ⟨?_, hcount⟩
  simp only [Tx.contents, hcount, hk, Ring.window_succ, idx_eq, Nat.add_sub_cancel]
  rw [Ring.window_mod hmod]

/-- `uartstart` sends the oldest bytes of the ring, in order, and leaves
the rest: by induction on the readings of `LSR`, one byte a round. -/
theorem uartstart_spec : ∀ (lsr : List Bool) (u : Tx),
    (uartstart u lsr).2 ++ (uartstart u lsr).1.contents = u.contents ∧
      (uartstart u lsr).1.count ≤ u.count
  | [], u => by simp [uartstart]
  | idle :: lsr, u => by
    by_cases hne : u.w = u.r
    · simp [uartstart, hne]
    cases idle with
    | false => simp [uartstart, hne]
    | true =>
      -- `THR` is idle: the byte at `uart_tx_r` goes out
      have hcount : u.count ≠ 0 := fun h => hne (empty_iff.mpr h)
      obtain ⟨hcont, hcnt⟩ := contents_take hcount
      obtain ⟨ih₁, ih₂⟩ := uartstart_spec lsr { u with r := u.r + 1 }
      simp only [uartstart, if_neg hne, if_true]
      exact ⟨by rw [List.cons_append, ih₁, hcont], by omega⟩

/-- One call keeps the ring within `UART_TX_BUF_SIZE`, and what it wrote
to `THR`, then the ring, is the ring it found, then the byte it was
given. -/
theorem uartStep_spec {u u' : Tx} {e : Event} {out : List UInt8} (hu : u.count ≤ UART_TX_BUF_SIZE)
    (h : uartStep u e = some (u', out)) :
    u'.count ≤ UART_TX_BUF_SIZE ∧
      out ++ u'.contents = u.contents ++ (match e with | .putc c _ => [c] | .intr _ => []) := by
  cases e with
  | putc c lsr =>
    simp only [uartStep, uartputc] at h
    split at h
    · cases h
    · rename_i hfull
      have hlt : u.count < UART_TX_BUF_SIZE := by
        have := mt full_iff.mpr hfull
        omega
      obtain ⟨hcont, hcnt⟩ := @contents_put u c hlt
      obtain ⟨hs₁, hs₂⟩ := uartstart_spec lsr
        { u with buf := Function.update u.buf (idx u.w) c, w := u.w + 1 }
      obtain ⟨rfl, rfl⟩ := Prod.mk.inj (Option.some.inj h)
      exact ⟨by omega, by rw [hs₁, hcont]⟩
  | intr lsr =>
    obtain ⟨rfl, rfl⟩ := Prod.mk.inj (Option.some.inj h).symm
    obtain ⟨hs₁, hs₂⟩ := uartstart_spec lsr u
    exact ⟨by omega, by rw [hs₁, List.append_nil]⟩

/-! ## Whole runs -/

/-- The bytes a run wrote to `THR`, oldest first. -/
def sentBytes : List (Tx × Event × List UInt8) → List UInt8
  | [] => []
  | (_, _, out) :: h => sentBytes h ++ out

/-- The bytes a run gave to `uartputc`, oldest first. -/
def putBytes : List (Tx × Event × List UInt8) → List UInt8
  | [] => []
  | (_, .putc c _, _) :: h => putBytes h ++ [c]
  | (_, .intr _, _) :: h => putBytes h

attribute [grind] sentBytes putBytes

/-- The transmit ring is a lossless FIFO: on every run from boot, under
every interleaving of `uartputc` and `uartintr` and every pattern of
`LSR` readings, `uart_tx_w - uart_tx_r` stays within
`UART_TX_BUF_SIZE`, and the bytes written to `THR`, followed by those
still in the ring, are the bytes given to `uartputc`, in order. -/
theorem uart_fifo {buf : Fin UART_TX_BUF_SIZE → UInt8} {h : List (Tx × Event × List UInt8)} {u : Tx}
    (hr : Machine.Run uartStep (Tx.boot buf) h u) :
    (u.w - u.r).toNat ≤ UART_TX_BUF_SIZE ∧ sentBytes h ++ u.contents = putBytes h := by
  induction hr with
  | nil => exact ⟨by simp [Tx.boot], by simp [sentBytes, putBytes, Tx.contents, Tx.count, Tx.boot]⟩
  | @cons h s s' e o _ hs ih =>
    obtain ⟨hcount, hstream⟩ := ih
    obtain ⟨hcount', hstep⟩ := uartStep_spec hcount hs
    refine ⟨hcount', ?_⟩
    cases e with
    | putc c lsr => simp only [sentBytes, putBytes, List.append_assoc, hstep, ← hstream]
    | intr lsr => simp only [sentBytes, putBytes, List.append_assoc, hstep, List.append_nil, hstream]

/-- Two bytes put while the transmitter is busy, then both sent by one
interrupt and a third put and sent at once. -/
theorem uart_fifo_three_bytes :
    ∃ h u, Machine.Run uartStep (Tx.boot fun _ => 0) h u ∧
      h.map (fun x => x.2.1) = [.putc 67 [true], .intr [true, true], .putc 66 [false], .putc 65 [false]] ∧
      (u.w - u.r).toNat ≤ UART_TX_BUF_SIZE ∧ sentBytes h ++ u.contents = putBytes h := by
  obtain ⟨h, u, hr, hev⟩ := @Machine.exists_run_of_events _ _ _ uartStep (Tx.boot fun _ => 0)
    [.putc 65 [false], .putc 66 [false], .intr [true, true], .putc 67 [true]] (by decide +kernel)
  exact ⟨h, u, hr, hev, uart_fifo hr⟩

end Uart

end Xv6
