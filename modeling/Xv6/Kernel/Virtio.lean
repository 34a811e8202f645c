/-
# `Xv6.Kernel.Virtio` — the descriptors and rings of `virtio_disk.c`

The driver owns `NUM` descriptors.  A request takes three with
`alloc3_desc`, chains them `idx[0] → idx[1] → idx[2]` with `NEXT` flags,
puts `idx[0]` on the avail ring and sleeps until `virtio_disk_intr` finds
the chain on the used ring; it then gives the chain back with
`free_chain`.  The avail and used indices are free-running `uint16`
counters, read modulo `NUM`.

**Model.**  `Disk` is `struct disk` with the two rings it shares with the
device; of a descriptor only `flags` and `next` are kept, the addresses
and lengths being what the device reads, not what the driver decides.
A panic is an `.error`.  The calls, the device and the interrupt are run
together in `Xv6.Kernel.VirtioRun`.

**Proved here.**

    alloc3_desc_spec       alloc3_desc takes three distinct free
                           descriptors, or leaves the disk as it was
    alloc3_desc_fail       a failed alloc3_desc frees what it took
    free_chain_triple      free_chain frees the three descriptors of a
                           chain, and nothing else, without a panic
    linked_submit          virtio_disk_rw chains its three descriptors
    intrLoop_cons          one round of virtio_disk_intr's loop
-/
import Xv6.Kernel.Param
import Xv6.Lib.Run
import Mathlib.Data.List.FinRange
import Mathlib.Data.Finset.Card

namespace Xv6

namespace Virtio

/-- `NUM`: the descriptors, and the entries of each ring. -/
def NUM : Nat := 8

instance : NeZero NUM := ⟨by decide⟩

def VRING_DESC_F_NEXT : UInt16 := 1

def VRING_DESC_F_WRITE : UInt16 := 2

/-- The fields of `struct virtq_desc` the driver's bookkeeping reads. -/
structure Desc where
  flags : UInt16
  next : UInt16
  deriving DecidableEq

/-- A descriptor as `free_desc` leaves it. -/
def Desc.zero : Desc := ⟨0, 0⟩

/-- `struct disk`, with the avail and used rings it shares with the device. -/
@[ext]
structure Disk where
  desc : Fin NUM → Desc
  free : Fin NUM → Bool
  /-- `avail->idx` and `avail->ring` -/
  avail_idx : UInt16
  avail_ring : Fin NUM → UInt16
  /-- `used->idx` and the `id`s of `used->ring`, written by the device -/
  used_ring_idx : UInt16
  used_ring : Fin NUM → UInt32
  /-- `disk.used_idx`: how far `virtio_disk_intr` has looked -/
  used_idx : UInt16
  /-- `info[].b`, `none` for a null pointer, and `info[].status` -/
  info_b : Fin NUM → Option (Fin NBUF)
  info_status : Fin NUM → UInt8

/-- The ring entry a free-running index names: `idx % NUM`. -/
def slot (x : UInt16) : Fin NUM :=
  ⟨x.toNat % NUM, Nat.mod_lt _ (by decide)⟩

/-! ## The descriptor functions -/

/-- `alloc_desc()`: the first free descriptor, marked non-free; `none` is
its `-1`. -/
def alloc_desc (d : Disk) : Disk × Option (Fin NUM) :=
  match (List.finRange NUM).find? (d.free ·) with
  | some i => ({ d with free := Function.update d.free i false }, some i)
  | none => (d, none)

/-- `free_desc(i)`. -/
def free_desc (d : Disk) (i : Nat) : Except String Disk :=
  if h : i < NUM then
    if d.free ⟨i, h⟩ then .error "free_desc 2"
    else .ok { d with
      desc := Function.update d.desc ⟨i, h⟩ Desc.zero
      free := Function.update d.free ⟨i, h⟩ true }
  else .error "free_desc 1"

/-- `free_chain(i)`: free `i`, and go on to its `next` while its `flags`
have `NEXT`.  `fuel` bounds the loop, which on a chain of the driver's
stops after three rounds (`free_chain_triple`). -/
def free_chain : (fuel : Nat) → Disk → Nat → Except String Disk
  | 0, _, _ => .error "free_chain"
  | fuel + 1, d, i =>
    -- `int flag = disk.desc[i].flags; int nxt = disk.desc[i].next;`
    if h : i < NUM then
      let flag := (d.desc ⟨i, h⟩).flags
      let nxt := (d.desc ⟨i, h⟩).next
      (free_desc d i).bind fun d =>
        if flag &&& VRING_DESC_F_NEXT ≠ 0 then free_chain fuel d nxt.toNat else .ok d
    else .error "free_desc 1"

/-- `for(int j = 0; j < i; j++) free_desc(idx[j]);` -/
def freeTaken (d : Disk) : List (Fin NUM) → Except String Disk
  | [] => .ok d
  | j :: js => (free_desc d j).bind fun d => freeTaken d js

/-- `alloc3_desc(idx)`, its loop over `i = 0, 1, 2` written out: each round
takes the first free descriptor, and when there is none frees those
already taken and returns `-1` (`none`). -/
def alloc3_desc (d : Disk) : Except String (Disk × Option (Fin NUM × Fin NUM × Fin NUM)) :=
  match alloc_desc d with
  | (d, none) => (freeTaken d []).map fun d => (d, none)
  | (d, some i0) =>
    match alloc_desc d with
    | (d, none) => (freeTaken d [i0]).map fun d => (d, none)
    | (d, some i1) =>
      match alloc_desc d with
      | (d, none) => (freeTaken d [i0, i1]).map fun d => (d, none)
      | (d, some i2) => .ok (d, some (i0, i1, i2))

/-- What `virtio_disk_rw(b, write)` does under the lock once it has its
three descriptors: the chain, `info[idx[0]]`, and `idx[0]` on the avail
ring. -/
def submit (d : Disk) (b : Fin NBUF) (write : Bool) (i0 i1 i2 : Fin NUM) : Disk :=
  let desc := Function.update d.desc i0 ⟨VRING_DESC_F_NEXT, UInt16.ofNat i1⟩
  -- the device reads `b->data` for a write and writes it for a read
  let desc := Function.update desc i1
    ⟨(if write then 0 else VRING_DESC_F_WRITE) ||| VRING_DESC_F_NEXT, UInt16.ofNat i2⟩
  let desc := Function.update desc i2 ⟨VRING_DESC_F_WRITE, 0⟩
  { d with
    desc := desc
    info_status := Function.update d.info_status i0 0xff
    info_b := Function.update d.info_b i0 (some b)
    avail_ring := Function.update d.avail_ring (slot d.avail_idx) (UInt16.ofNat i0)
    avail_idx := d.avail_idx + 1 }

attribute [grind] free_desc free_chain freeTaken submit

/-- One entry less to look at on the used ring. -/
theorem toNat_sub_succ {u x : UInt16} (h : x ≠ u) : (u - (x + 1)).toNat + 1 = (u - x).toNat := by
  have hx := x.toNat_lt
  have hu := u.toNat_lt
  have hne : x.toNat ≠ u.toNat := fun e => h (UInt16.toNat_inj.mp e)
  rw [UInt16.toNat_sub, UInt16.toNat_sub, UInt16.toNat_add, UInt16.toNat_one]
  omega

/-- The loop of `virtio_disk_intr` over the used ring, with the `b->disk`
of each buffer.  Reading `info[id]` for `id ≥ NUM`, or writing through a
null `info[id].b`, is undefined in C; the model stops there. -/
def intrLoop (d : Disk) (bufDisk : Fin NBUF → Bool) : Except String (Disk × (Fin NBUF → Bool)) :=
  if _hne : d.used_idx ≠ d.used_ring_idx then
    let id := (d.used_ring (slot d.used_idx)).toNat
    if h : id < NUM then
      if d.info_status ⟨id, h⟩ ≠ 0 then .error "virtio_disk_intr status"
      else
        match d.info_b ⟨id, h⟩ with
        -- `b->disk = 0`: the disk is done with the buffer
        | some b => intrLoop { d with used_idx := d.used_idx + 1 } (Function.update bufDisk b false)
        | none => .error "info[id].b is null"
    else .error "info[id] out of bounds"
  else .ok (d, bufDisk)
termination_by (d.used_ring_idx - d.used_idx).toNat
decreasing_by
  have := toNat_sub_succ _hne
  omega

attribute [grind] intrLoop

/-! ## What the descriptor functions do -/

/-- The chain `i0 → i1 → i2` a request builds: three descriptors linked by
`NEXT` and `next`, the last without `NEXT`. -/
structure Linked (d : Disk) (i0 i1 i2 : Fin NUM) : Prop where
  ne01 : i0 ≠ i1
  ne02 : i0 ≠ i2
  ne12 : i1 ≠ i2
  head : d.desc i0 = ⟨VRING_DESC_F_NEXT, UInt16.ofNat i1⟩
  mid_flags : (d.desc i1).flags &&& VRING_DESC_F_NEXT ≠ 0
  mid_next : (d.desc i1).next = UInt16.ofNat i2
  last : (d.desc i2).flags &&& VRING_DESC_F_NEXT = 0

theorem toNat_ofNat_fin (i : Fin NUM) : (UInt16.ofNat i).toNat = i := by
  rw [UInt16.toNat_ofNat']
  exact Nat.mod_eq_of_lt (Nat.lt_trans i.isLt (by decide))

theorem toNat_ofNat_fin32 (i : Fin NUM) : (UInt32.ofNat i).toNat = i := by
  rw [UInt32.toNat_ofNat']
  exact Nat.mod_eq_of_lt (Nat.lt_trans i.isLt (by decide))

theorem slot_eq_ofNat (x : UInt16) : slot x = Fin.ofNat NUM x.toNat := rfl

section Descriptors

variable {d d' : Disk} {i i0 i1 i2 : Fin NUM}

theorem alloc_desc_some (h : alloc_desc d = (d', some i)) :
    d.free i = true ∧ d' = { d with free := Function.update d.free i false } := by
  unfold alloc_desc at h
  split at h
  · rename_i j hj
    obtain ⟨rfl, hi⟩ := Prod.mk.inj h
    cases Option.some.inj hi
    exact ⟨List.find?_some hj, rfl⟩
  · cases (Prod.mk.inj h).2

theorem alloc_desc_none (h : alloc_desc d = (d', none)) : d' = d ∧ ∀ i, d.free i = false := by
  unfold alloc_desc at h
  split at h
  · cases (Prod.mk.inj h).2
  · rename_i hn
    exact ⟨(Prod.mk.inj h).1.symm, fun i => by simpa using List.find?_eq_none.mp hn i (List.mem_finRange i)⟩

/-- `free_desc` of a taken descriptor zeroes it and marks it free. -/
theorem free_desc_of_taken (h : d.free i = false) :
    free_desc d i = .ok { d with
      desc := Function.update d.desc i Desc.zero
      free := Function.update d.free i true } := by
  rw [free_desc, dif_pos i.isLt, if_neg (by simp [h])]

/-- Freeing taken descriptors gives each back, zeroed. -/
theorem freeTaken_eq : ∀ (js : List (Fin NUM)) (d : Disk), js.Nodup → (∀ j ∈ js, d.free j = false) →
    freeTaken d js = .ok { d with
      desc := fun i => if i ∈ js then Desc.zero else d.desc i
      free := fun i => if i ∈ js then true else d.free i }
  | [], d, _, _ => by simp [freeTaken]
  | j :: js, d, hnd, hjs => by
    obtain ⟨hj, hnd⟩ := List.nodup_cons.mp hnd
    have hrest : ∀ k ∈ js, (Function.update d.free j true) k = false := fun k hk => by
      rw [Function.update_of_ne (ne_of_mem_of_not_mem hk hj)]
      exact hjs k (List.mem_cons_of_mem j hk)
    rw [freeTaken, free_desc_of_taken (hjs j List.mem_cons_self)]
    refine (freeTaken_eq js _ hnd hrest).trans ?_
    congr 2 <;> funext i <;> by_cases hij : i = j <;> simp [hij, Function.update_of_ne]

/-- Descriptors taken and given back zeroed leave the disk as it was, when
its free descriptors are zero. -/
theorem give_back {g : Fin NUM → Bool} (hzero : ∀ i, d.free i = true → d.desc i = Desc.zero)
    (js : List (Fin NUM)) (hjs : ∀ j ∈ js, d.free j = true) (hg : ∀ i ∉ js, g i = d.free i) :
    ({ d with
      desc := fun i => if i ∈ js then Desc.zero else d.desc i
      free := fun i => if i ∈ js then true else g i } : Disk) = d := by
  refine Disk.ext (funext fun i => ?_) (funext fun i => ?_) rfl rfl rfl rfl rfl rfl rfl
  · dsimp only
    split
    · rename_i hi
      exact (hzero i (hjs i hi)).symm
    · rfl
  · dsimp only
    split
    · rename_i hi
      exact (hjs i hi).symm
    · rename_i hi
      exact hg i hi

/-- What `alloc3_desc` does from a disk whose free descriptors are zero:
it does not panic, and either takes three distinct free descriptors or
leaves the disk as it was. -/
theorem alloc3_desc_spec (hzero : ∀ i, d.free i = true → d.desc i = Desc.zero) :
    alloc3_desc d = .ok (d, none) ∨
      ∃ i0 i1 i2, d.free i0 = true ∧ d.free i1 = true ∧ d.free i2 = true ∧ i0 ≠ i1 ∧ i0 ≠ i2 ∧ i1 ≠ i2 ∧
        alloc3_desc d = .ok ({ d with
          free := Function.update (Function.update (Function.update d.free i0 false) i1 false) i2 false },
          some (i0, i1, i2)) := by
  unfold alloc3_desc
  split
  · -- nothing free: nothing to give back
    rename_i d₁ h₁
    obtain ⟨rfl, -⟩ := alloc_desc_none h₁
    rw [freeTaken_eq [] _ List.nodup_nil (by simp)]
    exact .inl (congrArg (fun d' => Except.ok (d', none)) (give_back hzero [] (by simp) fun _ _ => rfl))
  · rename_i d₁ i0 h₁
    obtain ⟨hf0, rfl⟩ := alloc_desc_some h₁
    split
    · -- one free: `idx[0]` is given back
      rename_i d₂ h₂
      obtain ⟨rfl, -⟩ := alloc_desc_none h₂
      rw [freeTaken_eq [i0] _ (List.nodup_singleton i0) (by simp)]
      refine .inl (congrArg (fun d' => Except.ok (d', none)) (give_back hzero [i0] (by simpa using hf0) fun i hi => ?_))
      dsimp only
      rw [Function.update_of_ne (by simpa using hi)]
    · rename_i d₂ i1 h₂
      obtain ⟨hf1, rfl⟩ := alloc_desc_some h₂
      dsimp only at hf1
      -- the second is another descriptor: the first is taken by then
      have h10 : i1 ≠ i0 := fun e => by simp [e] at hf1
      rw [Function.update_of_ne h10] at hf1
      split
      · -- two free: `idx[0]` and `idx[1]` are given back
        rename_i d₃ h₃
        obtain ⟨rfl, -⟩ := alloc_desc_none h₃
        rw [freeTaken_eq [i0, i1] _ (by simp [Ne.symm h10]) (by simp [Function.update_of_ne h10.symm])]
        refine .inl (congrArg (fun d' => Except.ok (d', none))
          (give_back hzero [i0, i1] (by simp [hf0, hf1]) fun i hi => ?_))
        simp only [List.mem_cons, List.not_mem_nil, or_false, not_or] at hi
        dsimp only
        rw [Function.update_of_ne hi.2, Function.update_of_ne hi.1]
      · rename_i d₃ i2 h₃
        obtain ⟨hf2, rfl⟩ := alloc_desc_some h₃
        dsimp only at hf2
        have h21 : i2 ≠ i1 := fun e => by simp [e] at hf2
        rw [Function.update_of_ne h21] at hf2
        have h20 : i2 ≠ i0 := fun e => by simp [e] at hf2
        rw [Function.update_of_ne h20] at hf2
        exact .inr ⟨i0, i1, i2, hf0, hf1, hf2, h10.symm, h20.symm, h21.symm, rfl⟩

/-- A failed `alloc3_desc` frees exactly the descriptors it took: with
free descriptors zeroed, as `free_desc` leaves them, the disk is as it
was. -/
theorem alloc3_desc_fail (hzero : ∀ i, d.free i = true → d.desc i = Desc.zero)
    (h : alloc3_desc d = .ok (d', none)) : d' = d := by
  rcases alloc3_desc_spec hzero with hfail | ⟨i0, i1, i2, -, -, -, -, -, -, hok⟩
  · exact (Prod.mk.inj (Except.ok.inj (h.symm.trans hfail))).1
  · cases (Prod.mk.inj (Except.ok.inj (h.symm.trans hok))).2

/-- One round of `free_chain` on a taken descriptor. -/
theorem free_chain_succ {fuel : Nat} (h : d.free i = false) :
    free_chain (fuel + 1) d i =
      if (d.desc i).flags &&& VRING_DESC_F_NEXT ≠ 0 then
        free_chain fuel { d with
          desc := Function.update d.desc i Desc.zero
          free := Function.update d.free i true } (d.desc i).next.toNat
      else .ok { d with desc := Function.update d.desc i Desc.zero, free := Function.update d.free i true } := by
  rw [free_chain, dif_pos i.isLt]
  simp only [Fin.eta, free_desc_of_taken h]
  rfl

/-- `free_chain` on a chain `i0 → i1 → i2` of taken descriptors frees the
three, and nothing else, in three rounds. -/
theorem free_chain_triple (hl : Linked d i0 i1 i2) (h0 : d.free i0 = false) (h1 : d.free i1 = false)
    (h2 : d.free i2 = false) {fuel : Nat} (hf : 3 ≤ fuel) :
    free_chain fuel d i0 = .ok { d with
      desc := Function.update (Function.update (Function.update d.desc i0 Desc.zero) i1 Desc.zero) i2 Desc.zero
      free := Function.update (Function.update (Function.update d.free i0 true) i1 true) i2 true } := by
  obtain ⟨f, rfl⟩ : ∃ f, fuel = f + 2 + 1 := ⟨fuel - 3, by omega⟩
  -- round one: `i0` has `NEXT`, to `i1`
  rw [free_chain_succ h0, hl.head]
  dsimp only
  rw [if_pos (by decide), toNat_ofNat_fin]
  rw [free_chain_succ (by dsimp only; rwa [Function.update_of_ne hl.ne01.symm])]
  -- round two: `i1` has `NEXT`, to `i2`
  dsimp only
  simp only [Function.update_of_ne hl.ne01.symm]
  rw [if_pos hl.mid_flags, hl.mid_next, toNat_ofNat_fin]
  rw [free_chain_succ (by
    dsimp only
    rw [Function.update_of_ne hl.ne12.symm, Function.update_of_ne hl.ne02.symm]
    exact h2)]
  -- round three: `i2` ends the chain
  dsimp only
  simp only [Function.update_of_ne hl.ne12.symm, Function.update_of_ne hl.ne02.symm]
  rw [if_neg (not_not.mpr hl.last)]

/-- Three updates with one value, read back. -/
theorem update3_apply {α : Type} (f : Fin NUM → α) (v : α) (j : Fin NUM) :
    Function.update (Function.update (Function.update f i0 v) i1 v) i2 v j =
      if j ∈ [i0, i1, i2] then v else f j := by
  simp only [Function.update_apply, List.mem_cons, List.not_mem_nil, or_false]
  split_ifs <;> simp_all

/-- A chain is a matter of its three descriptors alone. -/
theorem Linked.congr (hl : Linked d i0 i1 i2) (h0 : d'.desc i0 = d.desc i0) (h1 : d'.desc i1 = d.desc i1)
    (h2 : d'.desc i2 = d.desc i2) : Linked d' i0 i1 i2 where
  ne01 := hl.ne01
  ne02 := hl.ne02
  ne12 := hl.ne12
  head := h0.trans hl.head
  mid_flags := by rw [h1]; exact hl.mid_flags
  mid_next := by rw [h1]; exact hl.mid_next
  last := by rw [h2]; exact hl.last

/-- `virtio_disk_rw` writes no descriptor but its three. -/
theorem submit_desc_of_not_mem {b : Fin NBUF} {write : Bool} {j : Fin NUM} (h : j ∉ [i0, i1, i2]) :
    (submit d b write i0 i1 i2).desc j = d.desc j := by
  simp only [List.mem_cons, List.not_mem_nil, or_false, not_or] at h
  simp only [submit, Function.update_of_ne h.1, Function.update_of_ne h.2.1, Function.update_of_ne h.2.2]

/-- `virtio_disk_rw` chains its three descriptors, whatever the direction. -/
theorem linked_submit {b : Fin NBUF} {write : Bool} (h01 : i0 ≠ i1) (h02 : i0 ≠ i2) (h12 : i1 ≠ i2) :
    Linked (submit d b write i0 i1 i2) i0 i1 i2 where
  ne01 := h01
  ne02 := h02
  ne12 := h12
  head := by simp only [submit, Function.update_of_ne h01, Function.update_of_ne h02, Function.update_self]
  mid_flags := by
    simp only [submit, Function.update_of_ne h12, Function.update_self]
    cases write <;> decide
  mid_next := by simp only [submit, Function.update_of_ne h12, Function.update_self]
  last := by
    simp only [submit, Function.update_self]
    decide

theorem intrLoop_done {bufDisk : Fin NBUF → Bool} (h : d.used_idx = d.used_ring_idx) :
    intrLoop d bufDisk = .ok (d, bufDisk) := by
  rw [intrLoop, dif_neg (not_not.mpr h)]

/-- One round of `virtio_disk_intr`'s loop on an entry whose status is 0
and whose buffer is recorded. -/
theorem intrLoop_cons {bufDisk : Fin NBUF → Bool} {b : Fin NBUF} (hne : d.used_idx ≠ d.used_ring_idx)
    (hid : (d.used_ring (slot d.used_idx)).toNat = i) (hs : d.info_status i = 0) (hb : d.info_b i = some b) :
    intrLoop d bufDisk = intrLoop { d with used_idx := d.used_idx + 1 } (Function.update bufDisk b false) := by
  have hlt : (d.used_ring (slot d.used_idx)).toNat < NUM := hid ▸ i.isLt
  have hi : (⟨_, hlt⟩ : Fin NUM) = i := Fin.ext hid
  rw [intrLoop, dif_pos hne]
  simp only [dif_pos hlt, hi, hs, hb, ne_eq, not_true_eq_false, if_false]

end Descriptors

end Virtio

end Xv6
