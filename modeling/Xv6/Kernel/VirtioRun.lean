/-
# `Xv6.Kernel.VirtioRun` — the driver's calls, the device and the interrupt, interleaved

`virtio_disk_rw` and `virtio_disk_intr` share `struct disk` under
`vdisk_lock`, and the device works beside them.  `Sys` is the disk with
where each call of `virtio_disk_rw` stands (`Req`: not running, asleep on
`&disk.free[0]` until three descriptors are free, or asleep on its buffer
with its chain submitted), the `b->disk` flag of every buffer, and the
device: how far it has read the avail ring (`seen`) and the heads of the
chains it has read and not yet completed (`fetched`).

`step` runs one event: a call of `virtio_disk_rw` or a wakeup of one
(each runs under the lock up to its next `sleep`, or to its end); the
device reading the next avail entry, or completing, in any order, a chain
it has read, writing its status and a used entry; and `virtio_disk_intr`.
A panic is an `.error`; `runStep` goes on only through steps that do not
panic, and `Inv.step` shows that no event panics from a reachable state.
The device completes every request with status 0: a failed status is a
panic of `virtio_disk_intr` by design.

**Proved here.**

    Inv                the invariant: the chains of the requests are
                       linked by NEXT and pairwise disjoint, a descriptor
                       is free exactly when no request owns it, and the
                       avail ring, the device and the used ring hold each
                       submitted head not yet handed back once
    Inv.step           every event keeps it, and none panics
    Inv.nfree_add      free descriptors + 3 × requests in flight = NUM
    virtio_accounting  all of this over every run from boot
-/
import Xv6.Kernel.Virtio
import Xv6.Lib.Ring
import Mathlib.Algebra.BigOperators.Group.Finset.Basic

namespace Xv6

namespace Virtio

/-- Where a call of `virtio_disk_rw` for a buffer stands. -/
inductive Req where
  /-- no call for the buffer is running -/
  | idle
  /-- asleep on `&disk.free[0]`: fewer than three descriptors were free -/
  | waiting (write : Bool)
  /-- its chain `i0 → i1 → i2` submitted; asleep on the buffer until
  `b->disk` is 0 -/
  | active (i0 i1 i2 : Fin NUM)
  deriving DecidableEq

/-- The descriptors a request owns. -/
def Req.descs : Req → List (Fin NUM)
  | .active i0 i1 i2 => [i0, i1, i2]
  | _ => []

@[simp] theorem Req.descs_idle : Req.idle.descs = [] := rfl

@[simp] theorem Req.descs_waiting {write : Bool} : (Req.waiting write).descs = [] := rfl

@[simp] theorem Req.descs_active {i0 i1 i2 : Fin NUM} : (Req.active i0 i1 i2).descs = [i0, i1, i2] := rfl

/-- The disk, the calls of `virtio_disk_rw`, and the device. -/
structure Sys where
  disk : Disk
  req : Fin NBUF → Req
  /-- `b->disk` -/
  bufDisk : Fin NBUF → Bool
  /-- how far the device has read the avail ring -/
  seen : UInt16
  /-- the heads the device has read and not yet completed -/
  fetched : List Nat

inductive Ev where
  /-- `virtio_disk_rw(b, write)` is called -/
  | rw (b : Fin NBUF) (write : Bool)
  /-- the call for `b`, asleep on `&disk.free[0]`, wakes and tries again -/
  | retry (b : Fin NBUF)
  /-- the call for `b`, asleep on `b`, wakes -/
  | finish (b : Fin NBUF)
  /-- the device reads the next avail entry -/
  | fetch
  /-- the device completes the chain with head `h` -/
  | complete (h : Fin NUM)
  /-- `virtio_disk_intr()` -/
  | intr

/-- The loop of `virtio_disk_rw` that takes three descriptors, run once:
on success the chain is built and submitted, otherwise the call sleeps. -/
def attempt (S : Sys) (b : Fin NBUF) (write : Bool) : Except String Sys :=
  (alloc3_desc S.disk).map fun
    | (d, none) => { S with disk := d, req := Function.update S.req b (.waiting write) }
    | (d, some (i0, i1, i2)) => { S with
        disk := submit d b write i0 i1 i2
        req := Function.update S.req b (.active i0 i1 i2)
        bufDisk := Function.update S.bufDisk b true }

/-- One event; `none` when it cannot happen. -/
def step (S : Sys) : Ev → Option (Except String Sys)
  -- a buffer is locked while it is read or written: one call at a time
  | .rw b write => if S.req b = .idle then some (attempt S b write) else none
  | .retry b =>
    match S.req b with
    | .waiting write => some (attempt S b write)
    | _ => none
  | .finish b =>
    match S.req b with
    | .active i0 _ _ =>
      -- woken while `b->disk == 1`, the call sleeps again
      if S.bufDisk b = false then
        some ((free_chain NUM { S.disk with info_b := Function.update S.disk.info_b i0 none } i0).map
          fun d => { S with disk := d, req := Function.update S.req b .idle })
      else none
    | _ => none
  | .fetch =>
    if S.seen ≠ S.disk.avail_idx then
      some (.ok { S with
        seen := S.seen + 1
        fetched := S.fetched ++ [(S.disk.avail_ring (slot S.seen)).toNat] })
    else none
  | .complete h =>
    if (h : Nat) ∈ S.fetched then
      some (.ok { S with
        disk := { S.disk with
          info_status := Function.update S.disk.info_status h 0
          used_ring := Function.update S.disk.used_ring (slot S.disk.used_ring_idx) (UInt32.ofNat h)
          used_ring_idx := S.disk.used_ring_idx + 1 }
        fetched := S.fetched.erase h })
    else none
  | .intr => some ((intrLoop S.disk S.bufDisk).map fun (d, bufDisk) => { S with disk := d, bufDisk := bufDisk })

/-- The steps that do not panic. -/
def runStep (S : Sys) (e : Ev) : Option (Sys × Unit) :=
  match step S e with
  | some (.ok S') => some (S', ())
  | _ => none

/-- After `virtio_disk_init`: every descriptor free, the rings zeroed. -/
def Sys.boot : Sys where
  disk :=
    { desc := fun _ => Desc.zero
      free := fun _ => true
      avail_idx := 0
      avail_ring := fun _ => 0
      used_ring_idx := 0
      used_ring := fun _ => 0
      used_idx := 0
      info_b := fun _ => none
      info_status := fun _ => 0 }
  req := fun _ => .idle
  bufDisk := fun _ => false
  seen := 0
  fetched := []

attribute [grind] attempt step Sys.boot

/-! ## The heads on the rings -/

/-- The heads on the avail ring the device has not read. -/
def availPending (S : Sys) : List Nat :=
  Ring.between16 (UInt16.toNat ∘ S.disk.avail_ring) S.seen S.disk.avail_idx

/-- The used entries `virtio_disk_intr` has not looked at. -/
def usedPending (S : Sys) : List Nat :=
  Ring.between16 (UInt32.toNat ∘ S.disk.used_ring) S.disk.used_idx S.disk.used_ring_idx

/-- Every submitted head the interrupt has not handed back, in ring order. -/
def pending (S : Sys) : List Nat :=
  availPending S ++ S.fetched ++ usedPending S

/-- `x` is the head of a request whose buffer the disk still holds. -/
def InFlight (S : Sys) (x : Nat) : Prop :=
  ∃ b i0 i1 i2, S.req b = .active i0 i1 i2 ∧ S.bufDisk b = true ∧ x = i0

/-- Free descriptors, and requests that own descriptors. -/
def nfree (d : Disk) : Nat := (Finset.univ.filter fun i => d.free i = true).card

def nactive (S : Sys) : Nat := (Finset.univ.filter fun b => (S.req b).descs ≠ []).card

attribute [grind] availPending usedPending pending InFlight nfree nactive

/-- The invariant of the driver. -/
structure Inv (S : Sys) : Prop where
  linked : ∀ b i0 i1 i2, S.req b = .active i0 i1 i2 → Linked S.disk i0 i1 i2
  info : ∀ b i0 i1 i2, S.req b = .active i0 i1 i2 → S.disk.info_b i0 = some b
  disjoint : ∀ b b', b ≠ b' → (S.req b).descs.Disjoint (S.req b').descs
  taken : ∀ i, S.disk.free i = false ↔ ∃ b, i ∈ (S.req b).descs
  zero : ∀ i, S.disk.free i = true → S.disk.desc i = Desc.zero
  nodup : (pending S).Nodup
  onRings : ∀ x, x ∈ pending S ↔ InFlight S x
  status : ∀ x (h : x < NUM), x ∈ usedPending S → S.disk.info_status ⟨x, h⟩ = 0

/-! ## Requests after one buffer's changes -/

section Update

variable {req : Fin NBUF → Req} {b b' : Fin NBUF} {r : Req}

theorem Req.exists_of_descs_ne_nil (h : r.descs ≠ []) : ∃ i0 i1 i2, r = .active i0 i1 i2 := by
  cases r with
  | idle => exact absurd rfl h
  | waiting _ => exact absurd rfl h
  | active i0 i1 i2 => exact ⟨i0, i1, i2, rfl⟩

theorem ne_of_descs_nil {i0 i1 i2 : Fin NUM} (hb : (req b).descs = []) (h' : req b' = .active i0 i1 i2) :
    b' ≠ b := by
  rintro rfl
  rw [h'] at hb
  cases hb

theorem update_eq_active {i0 i1 i2 : Fin NUM} (h : Function.update req b r b' = .active i0 i1 i2) :
    (b' = b ∧ r = .active i0 i1 i2) ∨ (b' ≠ b ∧ req b' = .active i0 i1 i2) := by
  by_cases hb : b' = b
  · subst hb
    rw [Function.update_self] at h
    exact .inl ⟨rfl, h⟩
  · rw [Function.update_of_ne hb] at h
    exact .inr ⟨hb, h⟩

/-- The owners of a descriptor other than a buffer that does not own it. -/
theorem exists_ne_iff {i : Fin NUM} (hb : i ∉ (req b).descs) :
    (∃ b', b' ≠ b ∧ i ∈ (req b').descs) ↔ ∃ b', i ∈ (req b').descs := by
  constructor
  · rintro ⟨b', -, h⟩
    exact ⟨b', h⟩
  · rintro ⟨b', h⟩
    refine ⟨b', ?_, h⟩
    rintro rfl
    exact hb h

/-- Who owns a descriptor once one buffer's request is replaced. -/
theorem exists_mem_descs_update {i : Fin NUM} :
    (∃ b', i ∈ (Function.update req b r b').descs) ↔ i ∈ r.descs ∨ ∃ b', b' ≠ b ∧ i ∈ (req b').descs := by
  constructor
  · rintro ⟨b', hb'⟩
    by_cases h : b' = b
    · subst h
      rw [Function.update_self] at hb'
      exact .inl hb'
    · rw [Function.update_of_ne h] at hb'
      exact .inr ⟨b', h, hb'⟩
  · rintro (h | ⟨b', hne, hb'⟩)
    · exact ⟨b, by rwa [Function.update_self]⟩
    · exact ⟨b', by rwa [Function.update_of_ne hne]⟩

/-- Disjoint chains stay disjoint when one buffer's request is replaced by
one disjoint from the others. -/
theorem disjoint_update (hd : ∀ b₁ b₂, b₁ ≠ b₂ → (req b₁).descs.Disjoint (req b₂).descs)
    (hr : ∀ b', b' ≠ b → r.descs.Disjoint (req b').descs) :
    ∀ b₁ b₂, b₁ ≠ b₂ → (Function.update req b r b₁).descs.Disjoint (Function.update req b r b₂).descs := by
  intro b₁ b₂ hne
  by_cases h₁ : b₁ = b
  · subst h₁
    rw [Function.update_self, Function.update_of_ne hne.symm]
    exact hr b₂ hne.symm
  · by_cases h₂ : b₂ = b
    · subst h₂
      rw [Function.update_self, Function.update_of_ne h₁]
      exact (hr b₁ h₁).symm
    · rw [Function.update_of_ne h₁, Function.update_of_ne h₂]
      exact hd b₁ b₂ hne

end Update

/-- A list of distinct numbers below `n` that misses one of them is
shorter than `n`: a ring of `n` entries has room for one more. -/
theorem length_lt_of_fresh {l : List Nat} {n i : Nat} (hl : l.Nodup) (hlt : ∀ x ∈ l, x < n) (hi : i < n)
    (hfresh : i ∉ l) : l.length < n := by
  have hsub : (i :: l).Subperm (List.range n) :=
    List.subperm_of_subset (List.nodup_cons.2 ⟨hfresh, hl⟩) fun x hx => by
      rcases List.mem_cons.1 hx with rfl | hx
      · exact List.mem_range.2 hi
      · exact List.mem_range.2 (hlt x hx)
  simpa using hsub.length_le

/-! ## What the invariant gives -/

section Inv

variable {S : Sys}

/-- A descriptor is owned by one buffer at most. -/
theorem Inv.owner_unique (hI : Inv S) {b b' : Fin NBUF} {i : Fin NUM} (h : i ∈ (S.req b).descs)
    (h' : i ∈ (S.req b').descs) : b = b' := by
  by_contra hne
  exact hI.disjoint b b' hne h h'

/-- Two requests have different heads. -/
theorem Inv.heads_ne (hI : Inv S) {b b' : Fin NBUF} {i0 i1 i2 j0 j1 j2 : Fin NUM}
    (hb : S.req b = .active i0 i1 i2) (hb' : S.req b' = .active j0 j1 j2) (hne : b ≠ b') : i0 ≠ j0 := by
  rintro rfl
  exact hne (hI.owner_unique (i := i0) (by simp [hb]) (by simp [hb']))

/-- A request's descriptors are taken. -/
theorem Inv.taken_of_active (hI : Inv S) {b : Fin NBUF} {i0 i1 i2 j : Fin NUM} (hb : S.req b = .active i0 i1 i2)
    (hj : j ∈ [i0, i1, i2]) : S.disk.free j = false :=
  (hI.taken j).2 ⟨b, by rw [hb]; exact hj⟩

/-- A free descriptor is no request's. -/
theorem Inv.not_mem_descs (hI : Inv S) {i : Fin NUM} (h : S.disk.free i = true) (b : Fin NBUF) :
    i ∉ (S.req b).descs := fun hm => by
  have := (hI.taken i).2 ⟨b, hm⟩
  rw [h] at this
  cases this

theorem Inv.lt_of_mem (hI : Inv S) {x : Nat} (hx : x ∈ pending S) : x < NUM := by
  obtain ⟨b, i0, i1, i2, -, -, rfl⟩ := (hI.onRings x).1 hx
  exact i0.isLt

/-- A free descriptor is the head of nothing on the rings. -/
theorem Inv.not_mem_of_free (hI : Inv S) {i : Fin NUM} (h : S.disk.free i = true) : (i : Nat) ∉ pending S := by
  intro hx
  obtain ⟨b, i0, i1, i2, hb, -, he⟩ := (hI.onRings _).1 hx
  obtain rfl : i = i0 := Fin.ext he
  exact hI.not_mem_descs h b (by simp [hb])

/-- An event that touches no descriptor, request or recorded buffer keeps
the invariant once the heads on the rings are accounted for. -/
theorem Inv.of_frame {S' : Sys} (hI : Inv S) (hdesc : S'.disk.desc = S.disk.desc)
    (hfree : S'.disk.free = S.disk.free) (hinfo : S'.disk.info_b = S.disk.info_b) (hreq : S'.req = S.req)
    (hnodup : (pending S').Nodup) (hpending : ∀ x, x ∈ pending S' ↔ InFlight S' x)
    (hstatus : ∀ x (h : x < NUM), x ∈ usedPending S' → S'.disk.info_status ⟨x, h⟩ = 0) : Inv S' where
  linked b i0 i1 i2 h :=
    (hI.linked b i0 i1 i2 (hreq ▸ h)).congr (by rw [hdesc]) (by rw [hdesc]) (by rw [hdesc])
  info b i0 i1 i2 h := by
    rw [hinfo]
    exact hI.info b i0 i1 i2 (hreq ▸ h)
  disjoint := by
    rw [hreq]
    exact hI.disjoint
  taken := by
    rw [hfree, hreq]
    exact hI.taken
  zero := by
    rw [hfree, hdesc]
    exact hI.zero
  nodup := hnodup
  onRings := hpending
  status := hstatus

/-- The device reads the next avail entry: the head moves from the ring to
the device. -/
theorem Inv.of_fetch (hI : Inv S) (h : S.seen ≠ S.disk.avail_idx) :
    Inv { S with seen := S.seen + 1, fetched := S.fetched ++ [(S.disk.avail_ring (slot S.seen)).toNat] } := by
  set S' : Sys := { S with seen := S.seen + 1, fetched := S.fetched ++ [(S.disk.avail_ring (slot S.seen)).toNat] }
  have hpop : availPending S = (S.disk.avail_ring (slot S.seen)).toNat :: availPending S' :=
    Ring.between16_pop ⟨8192, rfl⟩ h
  have hperm : List.Perm (pending S') (pending S) := by
    show List.Perm (availPending S' ++ (S.fetched ++ [_]) ++ usedPending S) (availPending S ++ S.fetched ++ usedPending S)
    rw [hpop]
    simpa only [List.append_assoc, List.cons_append, List.singleton_append, List.nil_append] using
      (List.perm_middle : List.Perm ((availPending S' ++ S.fetched) ++ _ :: usedPending S) _)
  refine hI.of_frame rfl rfl rfl rfl (hperm.nodup_iff.2 hI.nodup) (fun x => ?_) hI.status
  rw [hperm.mem_iff, hI.onRings x]
  rfl

/-- The device completes a chain it has read: its status becomes 0 and its
head moves to the used ring, which has room for it. -/
theorem Inv.of_complete (hI : Inv S) {h : Fin NUM} (hf : (h : Nat) ∈ S.fetched) :
    Inv { S with
      disk := { S.disk with
        info_status := Function.update S.disk.info_status h 0
        used_ring := Function.update S.disk.used_ring (slot S.disk.used_ring_idx) (UInt32.ofNat h)
        used_ring_idx := S.disk.used_ring_idx + 1 }
      fetched := S.fetched.erase h } := by
  set S' : Sys := { S with
      disk := { S.disk with
        info_status := Function.update S.disk.info_status h 0
        used_ring := Function.update S.disk.used_ring (slot S.disk.used_ring_idx) (UInt32.ofNat h)
        used_ring_idx := S.disk.used_ring_idx + 1 }
      fetched := S.fetched.erase h }
  have hsub : (usedPending S).Sublist (pending S) := List.sublist_append_right _ _
  -- `h` is not on the used ring yet, so the ring has room for it
  have hnot : (h : Nat) ∉ usedPending S := fun hu =>
    List.disjoint_of_nodup_append hI.nodup (List.mem_append_right _ hf) hu
  have hroom : (S.disk.used_ring_idx - S.disk.used_idx).toNat < NUM := by
    have hlen : (usedPending S).length = (S.disk.used_ring_idx - S.disk.used_idx).toNat := Ring.length_between16
    rw [← hlen]
    exact length_lt_of_fresh (hI.nodup.sublist hsub) (fun x hx => hI.lt_of_mem (hsub.subset hx)) h.isLt hnot
  have hpush : usedPending S' = usedPending S ++ [(h : Nat)] := by
    show Ring.between16 (UInt32.toNat ∘ Function.update S.disk.used_ring (slot S.disk.used_ring_idx)
      (UInt32.ofNat h)) S.disk.used_idx (S.disk.used_ring_idx + 1) = _
    rw [Function.comp_update, slot_eq_ofNat, Ring.between16_push ⟨8192, rfl⟩ (by decide) hroom]
    simp only [toNat_ofNat_fin32, usedPending]
  have hperm : List.Perm (pending S') (pending S) :=
    calc List.Perm (pending S') ((h : Nat) :: (availPending S ++ S.fetched.erase h ++ usedPending S)) := by
          rw [pending, hpush, ← List.append_assoc]
          exact List.perm_append_singleton _ _
      List.Perm _ (availPending S ++ ((h : Nat) :: S.fetched.erase h) ++ usedPending S) := by
          simpa [List.append_assoc] using List.perm_middle.symm
      List.Perm _ (pending S) := ((List.perm_cons_erase hf).symm.append_left _).append_right _
  refine hI.of_frame rfl rfl rfl rfl (hperm.nodup_iff.2 hI.nodup) (fun x => ?_) (fun x hx hmem => ?_)
  · rw [hperm.mem_iff, hI.onRings x]
    rfl
  · rw [hpush, List.mem_append, List.mem_singleton] at hmem
    show Function.update S.disk.info_status h 0 ⟨x, hx⟩ = 0
    by_cases he : (⟨x, hx⟩ : Fin NUM) = h
    · rw [he, Function.update_self]
    · rw [Function.update_of_ne he]
      exact hI.status x hx (hmem.resolve_right fun e => he (Fin.ext e))

/-- Replacing the request of a buffer the disk does not hold by a request
that is not active leaves the heads in flight as they were. -/
theorem inFlight_update {S' : Sys} {b : Fin NBUF} {r : Req} (hreq : S'.req = Function.update S.req b r)
    (hbuf : S'.bufDisk = S.bufDisk) (hr : ∀ i0 i1 i2, r ≠ .active i0 i1 i2)
    (hb : ∀ i0 i1 i2, S.req b = .active i0 i1 i2 → S.bufDisk b = false) (x : Nat) :
    InFlight S' x ↔ InFlight S x := by
  constructor
  · rintro ⟨b', i0, i1, i2, h, hbd, rfl⟩
    rw [hreq] at h
    rcases update_eq_active h with ⟨-, h⟩ | ⟨-, h⟩
    · exact absurd h (hr i0 i1 i2)
    · exact ⟨b', i0, i1, i2, h, hbuf ▸ hbd, rfl⟩
  · rintro ⟨b', i0, i1, i2, h, hbd, rfl⟩
    have hne : b' ≠ b := by
      rintro rfl
      rw [hb i0 i1 i2 h] at hbd
      cases hbd
    exact ⟨b', i0, i1, i2, by rw [hreq, Function.update_of_ne hne]; exact h, hbuf ▸ hbd, rfl⟩

/-- A call that goes to sleep on `&disk.free[0]` holds nothing. -/
theorem Inv.of_waiting (hI : Inv S) {b : Fin NBUF} (hb : (S.req b).descs = []) (write : Bool) :
    Inv { S with req := Function.update S.req b (.waiting write) } where
  linked b' i0 i1 i2 h := by
    rcases update_eq_active h with ⟨-, hr⟩ | ⟨-, hr⟩
    · cases hr
    · exact hI.linked b' i0 i1 i2 hr
  info b' i0 i1 i2 h := by
    rcases update_eq_active h with ⟨-, hr⟩ | ⟨-, hr⟩
    · cases hr
    · exact hI.info b' i0 i1 i2 hr
  disjoint := disjoint_update hI.disjoint fun _ _ _ h _ => nomatch h
  taken i := by
    rw [hI.taken i, exists_mem_descs_update, exists_ne_iff (by rw [hb]; exact List.not_mem_nil)]
    simp only [Req.descs_waiting, List.not_mem_nil, false_or]
  zero := hI.zero
  nodup := hI.nodup
  onRings x := by
    refine (hI.onRings x).trans (inFlight_update (by rfl) (by rfl) ?_ ?_ x).symm
    · intro _ _ _ h
      cases h
    · intro _ _ _ h
      rw [h] at hb
      cases hb
  status := hI.status

/-- `virtio_disk_rw` with three free descriptors: it takes them, chains
them, records the buffer and puts the head on the avail ring. -/
theorem Inv.of_submit (hI : Inv S) {b : Fin NBUF} (hb : (S.req b).descs = []) (write : Bool) {i0 i1 i2 : Fin NUM}
    (hf0 : S.disk.free i0 = true) (hf1 : S.disk.free i1 = true) (hf2 : S.disk.free i2 = true)
    (h01 : i0 ≠ i1) (h02 : i0 ≠ i2) (h12 : i1 ≠ i2) :
    Inv { S with
      disk := submit { S.disk with
        free := Function.update (Function.update (Function.update S.disk.free i0 false) i1 false) i2 false }
        b write i0 i1 i2
      req := Function.update S.req b (.active i0 i1 i2)
      bufDisk := Function.update S.bufDisk b true } := by
  set S' : Sys := { S with
      disk := submit { S.disk with
        free := Function.update (Function.update (Function.update S.disk.free i0 false) i1 false) i2 false }
        b write i0 i1 i2
      req := Function.update S.req b (.active i0 i1 i2)
      bufDisk := Function.update S.bufDisk b true }
  -- the three were free: no request owns them, and no head on the rings is one of them
  have hfresh : ∀ b' j, j ∈ (S.req b').descs → j ∉ [i0, i1, i2] := by
    intro b' j hj hmem
    have hfj : S.disk.free j = true := by
      simp only [List.mem_cons, List.not_mem_nil, or_false] at hmem
      rcases hmem with rfl | rfl | rfl <;> assumption
    exact hI.not_mem_descs hfj b' hj
  have hhead : (i0 : Nat) ∉ pending S := hI.not_mem_of_free hf0
  -- the avail ring has room for the new head
  have hsub : (availPending S).Sublist (pending S) :=
    (List.sublist_append_left _ _).trans (List.sublist_append_left _ _)
  have hroom : (S.disk.avail_idx - S.seen).toNat < NUM := by
    have hlen : (availPending S).length = (S.disk.avail_idx - S.seen).toNat := Ring.length_between16
    rw [← hlen]
    exact length_lt_of_fresh (hI.nodup.sublist hsub) (fun x hx => hI.lt_of_mem (hsub.subset hx)) i0.isLt
      fun h => hhead (hsub.subset h)
  have hpush : availPending S' = availPending S ++ [(i0 : Nat)] := by
    show Ring.between16 (UInt16.toNat ∘ Function.update S.disk.avail_ring (slot S.disk.avail_idx)
      (UInt16.ofNat i0)) S.seen (S.disk.avail_idx + 1) = _
    rw [Function.comp_update, slot_eq_ofNat, Ring.between16_push ⟨8192, rfl⟩ (by decide) hroom]
    simp only [toNat_ofNat_fin, availPending]
  have hperm : List.Perm (pending S') ((i0 : Nat) :: pending S) := by
    show List.Perm (availPending S' ++ S.fetched ++ usedPending S) _
    rw [hpush]
    simpa only [pending, List.append_assoc, List.cons_append, List.singleton_append, List.nil_append] using
      (List.perm_middle : List.Perm (availPending S ++ _ :: (S.fetched ++ usedPending S)) _)
  have hfl : ∀ x, InFlight S' x ↔ x = i0 ∨ InFlight S x := by
    intro x
    constructor
    · rintro ⟨b', j0, j1, j2, h, hbd, rfl⟩
      rcases update_eq_active h with ⟨-, hr⟩ | ⟨hne, hr⟩
      · cases hr
        exact .inl rfl
      · change Function.update S.bufDisk b true b' = true at hbd
        rw [Function.update_of_ne hne] at hbd
        exact .inr ⟨b', j0, j1, j2, hr, hbd, rfl⟩
    · rintro (rfl | ⟨b', j0, j1, j2, hr, hbd, rfl⟩)
      · exact ⟨b, i0, i1, i2, Function.update_self _ _ _, Function.update_self _ _ _, rfl⟩
      · have hne := ne_of_descs_nil hb hr
        refine ⟨b', j0, j1, j2, ?_, ?_, rfl⟩
        · show Function.update S.req b _ b' = _
          rw [Function.update_of_ne hne, hr]
        · show Function.update S.bufDisk b true b' = true
          rw [Function.update_of_ne hne, hbd]
  exact {
    linked := fun b' j0 j1 j2 h => by
      rcases update_eq_active h with ⟨-, hr⟩ | ⟨-, hr⟩
      · cases hr
        exact linked_submit h01 h02 h12
      · have hown : ∀ j ∈ [j0, j1, j2], S'.disk.desc j = S.disk.desc j := fun j hj =>
          submit_desc_of_not_mem (hfresh b' j (by rw [hr]; exact hj))
        exact (hI.linked b' j0 j1 j2 hr).congr (hown j0 (by simp)) (hown j1 (by simp)) (hown j2 (by simp))
    info := fun b' j0 j1 j2 h => by
      show Function.update S.disk.info_b i0 (some b) j0 = some b'
      rcases update_eq_active h with ⟨rfl, hr⟩ | ⟨-, hr⟩
      · cases hr
        exact Function.update_self _ _ _
      · have hj0 : j0 ≠ i0 := fun e => hfresh b' j0 (by rw [hr]; simp) (by simp [e])
        rw [Function.update_of_ne hj0]
        exact hI.info b' j0 j1 j2 hr
    disjoint := disjoint_update hI.disjoint fun b' _ j hj hj' => hfresh b' j hj' hj
    taken := fun i => by
      show Function.update (Function.update (Function.update S.disk.free i0 false) i1 false) i2 false i = false ↔ _
      rw [update3_apply, exists_mem_descs_update, exists_ne_iff (by rw [hb]; exact List.not_mem_nil), ← hI.taken i]
      split_ifs with hi
      · exact iff_of_true rfl (.inl hi)
      · exact (or_iff_right hi).symm
    zero := fun i hi => by
      change Function.update (Function.update (Function.update S.disk.free i0 false) i1 false) i2 false i = true
        at hi
      rw [update3_apply] at hi
      split_ifs at hi with hm
      rw [submit_desc_of_not_mem hm]
      exact hI.zero i hi
    nodup := hperm.nodup_iff.2 (List.nodup_cons.2 ⟨hhead, hI.nodup⟩)
    onRings := fun x => by rw [hperm.mem_iff, List.mem_cons, hI.onRings x, hfl x]
    status := fun x hx hmem => by
      have hne : (⟨x, hx⟩ : Fin NUM) ≠ i0 := fun e =>
        hhead (by rw [← e]; exact (List.mem_append_right (availPending S ++ S.fetched) hmem : x ∈ pending S))
      show Function.update S.disk.info_status i0 0xff ⟨x, hx⟩ = 0
      rw [Function.update_of_ne hne]
      exact hI.status x hx hmem }

/-- One round of `virtio_disk_rw`'s allocation loop: it submits, or sleeps
with the disk as it was. -/
theorem Inv.of_attempt (hI : Inv S) {b : Fin NBUF} (hb : (S.req b).descs = []) (write : Bool) :
    ∃ S', attempt S b write = .ok S' ∧ Inv S' := by
  rcases alloc3_desc_spec hI.zero with hfail | ⟨i0, i1, i2, hf0, hf1, hf2, h01, h02, h12, hok⟩
  · refine ⟨_, ?_, hI.of_waiting hb write⟩
    rw [attempt, hfail]
    rfl
  · refine ⟨_, ?_, hI.of_submit hb write hf0 hf1 hf2 h01 h02 h12⟩
    rw [attempt, hok]
    rfl

/-- The call for a buffer the interrupt has handed back: it clears
`info[idx[0]].b` and frees its chain, without a panic. -/
theorem Inv.of_finish (hI : Inv S) {b : Fin NBUF} {i0 i1 i2 : Fin NUM} (hact : S.req b = .active i0 i1 i2)
    (hbd : S.bufDisk b = false) :
    ∃ d, free_chain NUM { S.disk with info_b := Function.update S.disk.info_b i0 none } i0 = .ok d ∧
      Inv { S with disk := d, req := Function.update S.req b .idle } := by
  -- clearing `info[idx[0]].b` leaves the chain as it is
  have hl : Linked { S.disk with info_b := Function.update S.disk.info_b i0 none } i0 i1 i2 :=
    (hI.linked b i0 i1 i2 hact).congr rfl rfl rfl
  refine ⟨_, free_chain_triple hl (hI.taken_of_active hact (by simp)) (hI.taken_of_active hact (by simp))
    (hI.taken_of_active hact (by simp)) (by decide : 3 ≤ NUM), ?_⟩
  -- the other requests' descriptors are not among the three
  have hoth : ∀ b' j, b' ≠ b → j ∈ (S.req b').descs → j ∉ [i0, i1, i2] := fun b' j hne hj hm =>
    hI.disjoint b' b hne hj (by rw [hact]; exact hm)
  exact {
    linked := fun b' j0 j1 j2 h => by
      rcases update_eq_active h with ⟨-, hr⟩ | ⟨hne, hr⟩
      · cases hr
      · have hkeep : ∀ j ∈ [j0, j1, j2], Function.update (Function.update (Function.update S.disk.desc i0
            Desc.zero) i1 Desc.zero) i2 Desc.zero j = S.disk.desc j := fun j hj => by
          rw [update3_apply, if_neg (hoth b' j hne (by rw [hr]; exact hj))]
        exact (hI.linked b' j0 j1 j2 hr).congr (hkeep j0 (by simp)) (hkeep j1 (by simp)) (hkeep j2 (by simp))
    info := fun b' j0 j1 j2 h => by
      rcases update_eq_active h with ⟨-, hr⟩ | ⟨hne, hr⟩
      · cases hr
      · have hj0 : j0 ≠ i0 := fun e => hoth b' j0 hne (by rw [hr]; simp) (by simp [e])
        show Function.update S.disk.info_b i0 none j0 = some b'
        rw [Function.update_of_ne hj0]
        exact hI.info b' j0 j1 j2 hr
    disjoint := disjoint_update hI.disjoint fun _ _ _ h _ => nomatch h
    taken := fun i => by
      show Function.update (Function.update (Function.update S.disk.free i0 true) i1 true) i2 true i = false ↔ _
      rw [update3_apply, exists_mem_descs_update]
      simp only [Req.descs_idle, List.not_mem_nil, false_or]
      split_ifs with hi
      · exact iff_of_false (by decide) fun ⟨b', hne, hj⟩ => hoth b' i hne hj hi
      · rw [exists_ne_iff (by rw [hact]; exact hi), hI.taken i]
    zero := fun i hi => by
      change Function.update (Function.update (Function.update S.disk.free i0 true) i1 true) i2 true i = true
        at hi
      show Function.update (Function.update (Function.update S.disk.desc i0 Desc.zero) i1 Desc.zero) i2
        Desc.zero i = Desc.zero
      rw [update3_apply] at hi ⊢
      split_ifs at hi ⊢
      · rfl
      · exact hI.zero i hi
    nodup := hI.nodup
    onRings := fun x => by
      refine (hI.onRings x).trans (inFlight_update (by rfl) (by rfl) ?_ (fun _ _ _ _ => hbd) x).symm
      intro _ _ _ h
      cases h
    status := hI.status }

/-- `virtio_disk_intr` on the used entry at `used_idx`: the head of a
request in flight, whose buffer it hands back. -/
theorem Inv.of_intr_one (hI : Inv S) {b : Fin NBUF} {i0 i1 i2 : Fin NUM}
    (hne : S.disk.used_idx ≠ S.disk.used_ring_idx) (hid : (S.disk.used_ring (slot S.disk.used_idx)).toNat = i0)
    (hact : S.req b = .active i0 i1 i2) :
    Inv { S with
      disk := { S.disk with used_idx := S.disk.used_idx + 1 }
      bufDisk := Function.update S.bufDisk b false } := by
  set S' : Sys := { S with
      disk := { S.disk with used_idx := S.disk.used_idx + 1 }
      bufDisk := Function.update S.bufDisk b false }
  have hpop : usedPending S = (i0 : Nat) :: usedPending S' := by
    rw [← hid]
    exact Ring.between16_pop ⟨8192, rfl⟩ hne
  have hperm : List.Perm (pending S) ((i0 : Nat) :: pending S') := by
    show List.Perm (availPending S ++ S.fetched ++ usedPending S) _
    rw [hpop]
    exact List.perm_middle
  have hnd := List.nodup_cons.1 (hperm.nodup_iff.1 hI.nodup)
  -- the buffer whose head this is leaves the disk, and no other
  have hfl : ∀ x, InFlight S' x ↔ InFlight S x ∧ x ≠ i0 := by
    intro x
    constructor
    · rintro ⟨b', j0, j1, j2, hr, hbd, rfl⟩
      change Function.update S.bufDisk b false b' = true at hbd
      have hb' : b' ≠ b := by
        rintro rfl
        rw [Function.update_self] at hbd
        cases hbd
      rw [Function.update_of_ne hb'] at hbd
      exact ⟨⟨b', j0, j1, j2, hr, hbd, rfl⟩, fun e => hI.heads_ne hr hact hb' (Fin.ext e)⟩
    · rintro ⟨⟨b', j0, j1, j2, hr, hbd, rfl⟩, hx⟩
      have hb' : b' ≠ b := by
        rintro rfl
        rw [hact] at hr
        cases hr
        exact hx rfl
      exact ⟨b', j0, j1, j2, hr, by rw [← hbd]; exact Function.update_of_ne hb' _ _, rfl⟩
  refine hI.of_frame rfl rfl rfl rfl hnd.2 (fun x => ?_) (fun x hx hmem => ?_)
  · rw [hfl x, ← hI.onRings x, hperm.mem_iff, List.mem_cons]
    constructor
    · intro h
      exact ⟨.inr h, fun e => hnd.1 (e ▸ h)⟩
    · rintro ⟨h | h, hx⟩
      · exact absurd h hx
      · exact h
  · exact hI.status x hx (by rw [hpop]; exact List.mem_cons_of_mem _ hmem)

/-- The loop of `virtio_disk_intr` hands back every buffer on the used
ring, without a panic. -/
theorem Inv.of_intr (hI : Inv S) :
    ∃ d bd, intrLoop S.disk S.bufDisk = .ok (d, bd) ∧ Inv { S with disk := d, bufDisk := bd } := by
  -- induction on the used entries left to look at
  obtain ⟨n, hn⟩ : ∃ n, (S.disk.used_ring_idx - S.disk.used_idx).toNat = n := ⟨_, rfl⟩
  have hu := S.disk.used_idx.toNat_lt
  have hr := S.disk.used_ring_idx.toNat_lt
  induction n generalizing S with
  | zero =>
    have he : S.disk.used_idx = S.disk.used_ring_idx := by
      rw [UInt16.toNat_sub] at hn
      exact UInt16.toNat_inj.mp (by omega)
    exact ⟨S.disk, S.bufDisk, intrLoop_done he, hI⟩
  | succ n ih =>
    have hne : S.disk.used_idx ≠ S.disk.used_ring_idx := by
      intro he
      rw [UInt16.toNat_sub, he] at hn
      omega
    -- the entry at `used_idx` is the head of a request in flight
    have hpop : usedPending S = (S.disk.used_ring (slot S.disk.used_idx)).toNat ::
        Ring.between16 (UInt32.toNat ∘ S.disk.used_ring) (S.disk.used_idx + 1) S.disk.used_ring_idx :=
      Ring.between16_pop ⟨8192, rfl⟩ hne
    have hused : (S.disk.used_ring (slot S.disk.used_idx)).toNat ∈ usedPending S := by
      rw [hpop]
      exact List.mem_cons_self
    obtain ⟨b, i0, i1, i2, hact, -, hid⟩ := (hI.onRings _).1 (List.mem_append_right _ hused)
    rw [intrLoop_cons hne hid (hI.status i0 i0.isLt (hid ▸ hused)) (hI.info b i0 i1 i2 hact)]
    have hcount := toNat_sub_succ hne
    exact ih (hI.of_intr_one hne hid hact) (by simp only; omega) (UInt16.toNat_lt _) hr

/-- From the invariant no event panics, and every event keeps it. -/
theorem Inv.step_ok (hI : Inv S) {e : Ev} {r : Except String Sys} (h : step S e = some r) :
    ∃ S', r = .ok S' ∧ Inv S' := by
  cases e with
  | rw b write =>
    rw [step] at h
    split at h
    · rename_i hidle
      obtain ⟨S', hS', hI'⟩ := hI.of_attempt (by rw [hidle]; rfl) write
      exact ⟨S', (Option.some.inj h).symm.trans hS', hI'⟩
    · cases h
  | retry b =>
    rw [step] at h
    split at h
    · rename_i write hw
      obtain ⟨S', hS', hI'⟩ := hI.of_attempt (by rw [hw]; rfl) write
      exact ⟨S', (Option.some.inj h).symm.trans hS', hI'⟩
    · cases h
  | finish b =>
    rw [step] at h
    split at h
    · rename_i i0 i1 i2 hact
      split at h
      · rename_i hbd
        obtain ⟨d, hd, hI'⟩ := hI.of_finish hact hbd
        refine ⟨_, ?_, hI'⟩
        rw [← Option.some.inj h, hd]
        rfl
      · cases h
    · cases h
  | fetch =>
    rw [step] at h
    split at h
    · rename_i hs
      exact ⟨_, (Option.some.inj h).symm, hI.of_fetch hs⟩
    · cases h
  | complete c =>
    rw [step] at h
    split at h
    · rename_i hc
      exact ⟨_, (Option.some.inj h).symm, hI.of_complete hc⟩
    · cases h
  | intr =>
    rw [step] at h
    obtain ⟨d, bd, hd, hI'⟩ := hI.of_intr
    refine ⟨_, ?_, hI'⟩
    rw [← Option.some.inj h, hd]
    rfl

theorem Inv.no_panic (hI : Inv S) (e : Ev) (msg : String) : step S e ≠ some (.error msg) := fun h => by
  obtain ⟨S', hS', -⟩ := hI.step_ok h
  cases hS'

/-- Every descriptor is free or in exactly one chain of three. -/
theorem Inv.nfree_add (hI : Inv S) : nfree S.disk + 3 * nactive S = NUM := by
  -- the taken descriptors are the union of the requests' chains
  have htaken : Finset.univ.filter (fun i => ¬ S.disk.free i = true) =
      (Finset.univ.filter fun b => (S.req b).descs ≠ []).biUnion fun b => (S.req b).descs.toFinset := by
    ext i
    simp only [Finset.mem_filter, Finset.mem_univ, true_and, Finset.mem_biUnion, List.mem_toFinset,
      Bool.not_eq_true, hI.taken i]
    constructor
    · rintro ⟨b, hb⟩
      exact ⟨b, List.ne_nil_of_mem hb, hb⟩
    · rintro ⟨b, -, hb⟩
      exact ⟨b, hb⟩
  -- each chain has three distinct descriptors
  have hthree : ∀ b ∈ Finset.univ.filter (fun b => (S.req b).descs ≠ []), (S.req b).descs.toFinset.card = 3 := by
    intro b hb
    obtain ⟨i0, i1, i2, hr⟩ := Req.exists_of_descs_ne_nil (Finset.mem_filter.1 hb).2
    have hl := hI.linked b i0 i1 i2 hr
    rw [hr, Req.descs_active, List.toFinset_card_of_nodup (by simp [hl.ne01, hl.ne02, hl.ne12])]
    rfl
  have hdisj : (↑(Finset.univ.filter fun b => (S.req b).descs ≠ []) : Set (Fin NBUF)).PairwiseDisjoint
      fun b => (S.req b).descs.toFinset := fun b _ b' _ hne =>
    List.disjoint_toFinset_iff_disjoint.2 (hI.disjoint b b' hne)
  have hsplit := Finset.card_filter_add_card_filter_not (s := Finset.univ) (fun i => S.disk.free i = true)
  rw [htaken, Finset.card_biUnion hdisj, Finset.sum_const_nat hthree, Finset.card_univ, Fintype.card_fin] at hsplit
  rw [nfree, nactive]
  omega

end Inv

/-! ## Every run -/

theorem step_of_runStep {S S' : Sys} {e : Ev} {o : Unit} (h : runStep S e = some (S', o)) :
    step S e = some (.ok S') := by
  unfold runStep at h
  split at h
  · rename_i S'' hs
    cases h
    exact hs
  · cases h

theorem inv_boot : Inv Sys.boot where
  linked _ _ _ _ h := by cases h
  info _ _ _ _ h := by cases h
  disjoint _ _ _ _ h _ := by cases h
  taken i := by simp [Sys.boot]
  zero _ _ := rfl
  nodup := by simp [pending, availPending, usedPending, Sys.boot]
  onRings x := by simp [pending, availPending, usedPending, Sys.boot, InFlight]
  status _ _ h := by simp [usedPending, Sys.boot] at h

/-- The invariant holds after every run from boot. -/
theorem inv_run {hist : List (Sys × Ev × Unit)} {S : Sys} (hr : Machine.Run runStep Sys.boot hist S) : Inv S := by
  refine Machine.Run.state_invariant Inv inv_boot (fun _ _ _ _ hI hs => ?_) hr
  obtain ⟨S', hS', hI'⟩ := hI.step_ok (step_of_runStep hs)
  cases hS'
  exact hI'

/-- The descriptor accounting of `virtio_disk.c` over every interleaving of
calls, wakeups, completions by the device in any order, and interrupts:
the requests in flight own disjoint chains linked by `NEXT`, the free
descriptors number `NUM` less three per request, a failed `alloc3_desc`
leaves the disk as it was, `free_chain` frees exactly a request's three
descriptors, no event panics, and the avail ring (read modulo `NUM`), the
device and the used ring hold each head in flight exactly once. -/
theorem virtio_accounting {hist : List (Sys × Ev × Unit)} {S : Sys} (hr : Machine.Run runStep Sys.boot hist S) :
    (∀ b i0 i1 i2, S.req b = .active i0 i1 i2 → Linked S.disk i0 i1 i2) ∧
      (∀ b b', b ≠ b' → (S.req b).descs.Disjoint (S.req b').descs) ∧
      nfree S.disk + 3 * nactive S = NUM ∧
      (∀ d', alloc3_desc S.disk = .ok (d', none) → d' = S.disk) ∧
      (∀ b i0 i1 i2, S.req b = .active i0 i1 i2 →
        free_chain NUM S.disk i0 = .ok { S.disk with
          desc := Function.update (Function.update (Function.update S.disk.desc i0 Desc.zero) i1 Desc.zero) i2
            Desc.zero
          free := Function.update (Function.update (Function.update S.disk.free i0 true) i1 true) i2 true }) ∧
      (∀ e msg, step S e ≠ some (.error msg)) ∧
      (pending S).Nodup ∧ ∀ x, x ∈ pending S ↔ InFlight S x := by
  have hI := inv_run hr
  refine ⟨hI.linked, hI.disjoint, hI.nfree_add, fun d' h => alloc3_desc_fail hI.zero h, fun b i0 i1 i2 hb => ?_,
    hI.no_panic, hI.nodup, hI.onRings⟩
  exact free_chain_triple (hI.linked b i0 i1 i2 hb) (hI.taken_of_active hb (by simp))
    (hI.taken_of_active hb (by simp)) (hI.taken_of_active hb (by simp)) (by decide : 3 ≤ NUM)

/-- Two requests submitted, the first fetched, completed, acknowledged
and finished, the second still in flight. -/
theorem virtio_accounting_two_requests :
    ∃ hist S, Machine.Run runStep Sys.boot hist S ∧
      hist.map (fun x => x.2.1) = [.finish ⟨0, by decide⟩, .intr, .complete ⟨0, by decide⟩, .fetch,
        .rw ⟨1, by decide⟩ true, .rw ⟨0, by decide⟩ false] ∧
      (∀ b i0 i1 i2, S.req b = .active i0 i1 i2 → Linked S.disk i0 i1 i2) ∧
      (∀ b b', b ≠ b' → (S.req b).descs.Disjoint (S.req b').descs) ∧
      nfree S.disk + 3 * nactive S = NUM ∧
      (∀ d', alloc3_desc S.disk = .ok (d', none) → d' = S.disk) ∧
      (∀ b i0 i1 i2, S.req b = .active i0 i1 i2 →
        free_chain NUM S.disk i0 = .ok { S.disk with
          desc := Function.update (Function.update (Function.update S.disk.desc i0 Desc.zero) i1 Desc.zero) i2
            Desc.zero
          free := Function.update (Function.update (Function.update S.disk.free i0 true) i1 true) i2 true }) ∧
      (∀ e msg, step S e ≠ some (.error msg)) ∧
      (pending S).Nodup ∧ ∀ x, x ∈ pending S ↔ InFlight S x := by
  obtain ⟨hist, S, hr, hev⟩ := @Machine.exists_run_of_events _ _ _ runStep (Sys.boot)
    [.rw ⟨0, by decide⟩ false, .rw ⟨1, by decide⟩ true, .fetch, .complete ⟨0, by decide⟩, .intr, .finish ⟨0, by decide⟩]
    (by decide +kernel)
  exact ⟨hist, S, hr, hev, virtio_accounting hr⟩

end Virtio

end Xv6
