/-
# `Xv6.Kernel.KallocRun` — the page allocator and the code that holds its pages

The rest of the kernel takes pages with `kalloc`, writes in them, and gives
them back with `kfree`.  `Sys` is `kmem` with the pages handed out and not
yet freed; `step` runs one event: a call of `kalloc`, a call of `kfree` on
a held page, or a byte written by the kernel where it may write, in a page
it holds or in memory the allocator does not manage.  That is the contract
of `kalloc.c` with its callers ("which normally should have been returned
by a call to kalloc()"), and the guards of the events say it.  A panic is
an `.error`, and `runStep` goes on only through steps that do not panic.

**The abstract allocator.**  What `kmem` is for is a pool of pages
(`Xv6.Lib.Pool`): a stack of free pages, and the pages held.  `Refines`
relates the two: `kmem`'s list, read through memory, is the pool's free
stack, the held pages are the pool's, and the pool covers every page
`kinit` frees.  Every step is matched by a step of the pool with the same
result (`refines_step`), so every run is (`refines_run`), and what the pool
guarantees holds of `kmem`.

**Proved here.**

    refines_step      one step of kmem is one step of the pool
    refines_run       so is every run, from the state kinit leaves
    Refines.of_reached  every reachable state implements a pool
    kalloc_fresh      kalloc returns a page in range that nobody holds,
                      and 0 only when every page is held
    getfreemem_run    getfreemem counts PGSIZE for each page nobody holds
    kfree_held        freeing a held page never panics, and no page is
                      held twice
-/
import Xv6.Kernel.Kalloc
import Xv6.Lib.Pool
import Xv6.Lib.Run

namespace Xv6

namespace Kalloc

/-- What the rest of the kernel does with the allocator. -/
inductive Ev where
  | kalloc
  | kfree (pa : UInt64)
  /-- a byte stored at physical address `a` -/
  | write (a : Nat) (v : UInt8)

/-- `kmem` with the pages handed out and not freed, newest first. -/
structure Sys where
  kmem : Kmem
  held : List UInt64

/-- `a` lies in a page of `held`. -/
def inHeld (held : List UInt64) (a : Nat) : Bool :=
  held.any fun p => p.toNat ≤ a && a < p.toNat + 4096

/-- The kernel may write at `a`: in a page it holds, or outside the pages
`kinit` hands to the allocator. -/
def mayWrite (kend : UInt64) (held : List UInt64) (a : Nat) : Bool :=
  inHeld held a || a < (PGROUNDUP kend).toNat || PHYSTOP.toNat ≤ a

/-- One event; `.error` is a panic. -/
def step (kend : UInt64) (S : Sys) : Ev → Option (Except String (Sys × Option UInt64))
  | .kalloc =>
    let (k, r) := kalloc S.kmem
    -- a null pointer hands out nothing
    some (.ok (if r = 0 then (⟨k, S.held⟩, none) else (⟨k, r :: S.held⟩, some r)))
  | .kfree pa =>
    if pa ∈ S.held then some ((kfree kend S.kmem pa).map fun k => (⟨k, S.held.erase pa⟩, none)) else none
  | .write a v =>
    if mayWrite kend S.held a then some (.ok (⟨⟨Function.update S.kmem.mem a v, S.kmem.freelist⟩, S.held⟩, none))
    else none

/-- The steps that do not panic. -/
def runStep (kend : UInt64) (S : Sys) (e : Ev) : Option (Sys × Option UInt64) :=
  match step kend S e with
  | some (.ok r) => some r
  | _ => none

/-- The same events on the pool of pages. -/
def poolStep (P : Pool UInt64) : Ev → Option (Pool UInt64 × Option UInt64)
  | .kalloc => some P.take
  | .kfree pa => (P.give pa).map fun P' => (P', none)
  | .write _ _ => some (P, none)

attribute [grind] step runStep poolStep

/-- `kmem` implements the pool `P`. -/
structure Refines (kend : UInt64) (S : Sys) (P : Pool UInt64) : Prop where
  chain : Chain S.kmem P.free
  held : S.held = P.held
  covers : P.Covers (allPages kend)

/-! ## What a step does -/

section Steps

variable {kend : UInt64} {S S' : Sys} {o : Option UInt64}

theorem runStep_kalloc : runStep kend S .kalloc =
    some (if (kalloc S.kmem).2 = 0 then (⟨(kalloc S.kmem).1, S.held⟩, none)
      else (⟨(kalloc S.kmem).1, (kalloc S.kmem).2 :: S.held⟩, some (kalloc S.kmem).2)) := by
  simp only [runStep, step]

theorem of_runStep_kfree {pa : UInt64} (h : runStep kend S (.kfree pa) = some (S', o)) :
    pa ∈ S.held ∧ ∃ k, kfree kend S.kmem pa = .ok k ∧ S' = ⟨k, S.held.erase pa⟩ ∧ o = none := by
  simp only [runStep, step] at h
  by_cases hpa : pa ∈ S.held
  · rw [if_pos hpa] at h
    cases hk : kfree kend S.kmem pa with
    | error e => rw [hk] at h; cases h
    | ok k =>
      rw [hk] at h
      simp only [Except.map, Option.some.injEq, Prod.mk.injEq] at h
      exact ⟨hpa, k, rfl, h.1.symm, h.2.symm⟩
  · rw [if_neg hpa] at h
    cases h

theorem of_runStep_write {a : Nat} {v : UInt8} (h : runStep kend S (.write a v) = some (S', o)) :
    mayWrite kend S.held a = true ∧ S' = ⟨⟨Function.update S.kmem.mem a v, S.kmem.freelist⟩, S.held⟩ ∧ o = none := by
  simp only [runStep, step] at h
  by_cases ha : mayWrite kend S.held a = true
  · rw [if_pos ha] at h
    simp only [Option.some.injEq, Prod.mk.injEq] at h
    exact ⟨ha, h.1.symm, h.2.symm⟩
  · rw [if_neg ha] at h
    cases h

end Steps

/-! ## Writes that miss the list -/

theorem next_update {mem : Nat → UInt8} {q : UInt64} {a : Nat} (v : UInt8)
    (ha : a < q.toNat ∨ q.toNat + 8 ≤ a) : next (Function.update mem a v) q = next mem q := by
  refine ByteMem.load64_congr fun i hi => ?_
  rw [Function.update_of_ne (by omega)]

theorem mem_inHeld {held : List UInt64} {a : Nat} (h : inHeld held a = true) :
    ∃ p ∈ held, p.toNat ≤ a ∧ a < p.toNat + 4096 := by
  obtain ⟨p, hp, hin⟩ := List.any_eq_true.mp h
  rw [Bool.and_eq_true, decide_eq_true_eq, decide_eq_true_eq] at hin
  exact ⟨p, hp, hin⟩

section Refines

variable {kend : UInt64} (hend : 0 < kend) (hphys : kend ≤ PHYSTOP)
variable {S S' : Sys} {P : Pool UInt64}

include hphys in
theorem Refines.page (hR : Refines kend S P) {q : UInt64} (hq : q ∈ P.free ∨ q ∈ P.held) : Page kend q :=
  allPages_page hphys (hR.covers.mem.mp hq)

include hphys in
theorem Refines.nodup (hR : Refines kend S P) : (P.free ++ P.held).Nodup :=
  hR.covers.nodup (allPages_nodup hphys)

include hphys in
/-- A write the kernel may make misses the first word of every free page. -/
theorem Refines.write (hR : Refines kend S P) {a : Nat} (v : UInt8) (ha : mayWrite kend S.held a = true) :
    Refines kend ⟨⟨Function.update S.kmem.mem a v, S.kmem.freelist⟩, S.held⟩ P := by
  refine ⟨Threaded.congr (fun q hq => next_update v ?_) hR.chain, hR.held, hR.covers⟩
  -- the free page `q` lies between `PGROUNDUP(end)` and `PHYSTOP`
  have hq' : q ∈ allPages kend := hR.covers.mem.mp (Or.inl hq)
  obtain ⟨hge, hle, -⟩ := mem_pageRange (npages_spec hphys).1 hq'
  have hn := (npages_spec hphys).1
  unfold mayWrite at ha
  rw [Bool.or_eq_true, Bool.or_eq_true, decide_eq_true_eq, decide_eq_true_eq] at ha
  rcases ha with (ha | ha) | ha
  · -- in a held page, which is not the free page `q`
    obtain ⟨p, hp, hpa⟩ := mem_inHeld ha
    rw [hR.held] at hp
    have hne : p ≠ q := fun he => (List.nodup_append.mp (hR.nodup hphys)).2.2 q hq p hp he.symm
    have := word_disjoint (hR.page hphys (Or.inr hp)).aligned (hR.page hphys (Or.inl hq)).aligned hne
    omega
  · omega
  · omega

include hend hphys

/-- One step of `kmem` is a step of the pool with the same result, and the
states after them are related again.  No step panics. -/
theorem refines_step (hR : Refines kend S P) {e : Ev} {o : Option UInt64} (h : runStep kend S e = some (S', o)) :
    ∃ P', poolStep P e = some (P', o) ∧ Refines kend S' P' := by
  have hal : ∀ q ∈ P.free, Aligned q := fun q hq => (hR.page hphys (Or.inl hq)).aligned
  cases e with
  | kalloc =>
    rw [runStep_kalloc, Option.some.injEq] at h
    cases hf : P.free with
    | nil =>
      -- an empty list: `kalloc` returns 0 and changes nothing
      have hk := kalloc_nil (hf ▸ hR.chain)
      rw [hk, if_pos rfl, Prod.mk.injEq] at h
      obtain ⟨rfl, rfl⟩ := h
      exact ⟨P, by rw [poolStep, Pool.take_nil hf], hR⟩
    | cons q l =>
      -- the head is popped; it is not null
      have hc : Chain S.kmem (q :: l) := hf ▸ hR.chain
      obtain ⟨hq, hk⟩ := kalloc_chain (hf ▸ hal) hc
      have hq0 : q ≠ 0 := hc.1 ▸ hc.2.1
      rw [hq, if_neg hq0, Prod.mk.injEq] at h
      obtain ⟨rfl, rfl⟩ := h
      refine ⟨⟨l, q :: P.held⟩, by rw [poolStep, Pool.take_cons hf], hk, by rw [hR.held], ?_⟩
      have hcov := hR.covers.take
      rwa [Pool.take_cons hf] at hcov
  | kfree pa =>
    obtain ⟨hpa, k, hk, rfl, rfl⟩ := of_runStep_kfree h
    have hpa' : pa ∈ P.held := hR.held ▸ hpa
    -- a held page is not free, so `kfree` pushes a fresh page
    have hfresh : pa ∉ P.free := fun hf => (List.nodup_append.mp (hR.nodup hphys)).2.2 pa hf pa hpa' rfl
    obtain ⟨k', hk', hc⟩ := kfree_chain hend (hR.page hphys (Or.inr hpa')) hal hfresh hR.chain
    rw [hk, Except.ok.injEq] at hk'
    subst hk'
    refine ⟨⟨pa :: P.free, P.held.erase pa⟩, by rw [poolStep, Pool.give_some hpa', Option.map_some], hc,
      by rw [hR.held], hR.covers.give (Pool.give_some hpa')⟩
  | write a v =>
    obtain ⟨ha, rfl, rfl⟩ := of_runStep_write h
    exact ⟨P, rfl, hR.write hphys v ha⟩

/-- Every run of `kmem` with the code that holds its pages, from the state
`kinit` leaves (`kinit_chain`), is matched by a run of the pool on the
same events with the same results, and the states at the end are related. -/
theorem refines_run {k : Kmem} (hboot : Chain k (allPages kend).reverse) {hist : List (Sys × Ev × Option UInt64)}
    (hr : Machine.Run (runStep kend) ⟨k, []⟩ hist S) :
    ∃ hist' P, Machine.Run poolStep ⟨(allPages kend).reverse, []⟩ hist' P ∧
      hist'.map (fun x => x.2) = hist.map (fun x => x.2) ∧ Refines kend S P := by
  have h₀ : Refines kend ⟨k, []⟩ ⟨(allPages kend).reverse, []⟩ := by
    refine ⟨hboot, rfl, ?_⟩
    rw [Pool.Covers, List.append_nil]
    exact List.reverse_perm _
  refine Machine.Run.simulate (Refines kend) h₀ ?_ hr
  intro _ _ _ _ _ hR hs
  exact refines_step hend hphys hR hs

end Refines

/-- Two pages below `PHYSTOP`, freed in the order `kinit` frees them. -/
def twoPages : Kmem := ((⟨fun _ => 0, 0⟩ : Kmem).push (PHYSTOP - 8192)).push (PHYSTOP - 4096)

/-- A page taken, written and freed while the other is taken: the pool
runs the same events. -/
theorem refines_run_two_pages : 0 < PHYSTOP - 8192 ∧ PHYSTOP - 8192 ≤ PHYSTOP ∧
    Chain twoPages (allPages (PHYSTOP - 8192)).reverse ∧
    ∃ hist S, Machine.Run (runStep (PHYSTOP - 8192)) ⟨twoPages, []⟩ hist S ∧
      hist.map (fun x => x.2.1) = [.kfree (PHYSTOP - 4096), .kalloc, .write ((PHYSTOP - 4096).toNat + 8) 7, .kalloc] ∧
      ∃ hist' P, Machine.Run poolStep ⟨(allPages (PHYSTOP - 8192)).reverse, []⟩ hist' P ∧
        hist'.map (fun x => x.2) = hist.map (fun x => x.2) ∧ Refines (PHYSTOP - 8192) S P := by
  have hboot : Chain twoPages (allPages (PHYSTOP - 8192)).reverse := by decide
  obtain ⟨hist, S, hr, hev⟩ := @Machine.exists_run_of_events _ _ _ (runStep (PHYSTOP - 8192))
    ⟨twoPages, []⟩ [.kalloc, .write ((PHYSTOP - 4096).toNat + 8) 7, .kalloc, .kfree (PHYSTOP - 4096)]
    (by decide +kernel)
  exact ⟨by decide, by decide, hboot, hist, S, hr, hev, refines_run (by decide) (by decide) hboot hr⟩

/-- `S` is reached by a run from a state whose list holds every page, as
`kinit` leaves it (`kinit_chain`). -/
def Reached (kend : UInt64) (S : Sys) : Prop :=
  ∃ k hist, Chain k (allPages kend).reverse ∧ Machine.Run (runStep kend) ⟨k, []⟩ hist S

/-- Every state a run reaches implements a pool of the pages. -/
theorem Refines.of_reached {kend : UInt64} (hend : 0 < kend) (hphys : kend ≤ PHYSTOP) {S : Sys}
    (hS : Reached kend S) : ∃ P, Refines kend S P := by
  obtain ⟨k, hist, hboot, hr⟩ := hS
  have h₀ : Refines kend ⟨k, []⟩ ⟨(allPages kend).reverse, []⟩ := by
    refine ⟨hboot, rfl, ?_⟩
    rw [Pool.Covers, List.append_nil]
    exact List.reverse_perm _
  have hsim : ∀ s t e s' o, Refines kend s t → runStep kend s e = some (s', o) →
      ∃ t', poolStep t e = some (t', o) ∧ Refines kend s' t' :=
    fun _ _ _ _ _ hR hs => refines_step hend hphys hR hs
  obtain ⟨-, P, -, -, hR⟩ := Machine.Run.simulate (Refines kend) h₀ hsim hr
  exact ⟨P, hR⟩

/-- The state after a list of events `exec` runs to the end is reached. -/
theorem reached_of_events {kend : UInt64} {k : Kmem} (hboot : Chain k (allPages kend).reverse) (es : List Ev)
    (h : (Machine.exec (runStep kend) ⟨k, []⟩ [] es).isSome) :
    ∃ hist S, Machine.exec (runStep kend) ⟨k, []⟩ [] es = some (hist, S) ∧ Reached kend S := by
  obtain ⟨⟨hist, S⟩, hx⟩ := Option.isSome_iff_exists.mp h
  exact ⟨hist, S, hx, k, hist, hboot, Machine.Run.of_exec Machine.Run.nil hx⟩

/-- One page of `twoPages` taken and written. -/
theorem reached_one_taken : ∃ hist S, Machine.exec (runStep (PHYSTOP - 8192)) ⟨twoPages, []⟩ []
    [.kalloc, .write ((PHYSTOP - 4096).toNat + 8) 7] = some (hist, S) ∧ Reached (PHYSTOP - 8192) S :=
  reached_of_events (by decide) _ (by decide +kernel)

/-- Both pages of `twoPages` taken. -/
theorem reached_both_taken : ∃ hist S, Machine.exec (runStep (PHYSTOP - 8192)) ⟨twoPages, []⟩ []
    [.kalloc, .kalloc] = some (hist, S) ∧ Reached (PHYSTOP - 8192) S :=
  reached_of_events (by decide) _ (by decide +kernel)

section Reachable

variable {kend : UInt64} {S : Sys}

/-- `kalloc` returns a page `kfree` would take back and that nobody holds;
it returns 0 only when every page is held. -/
theorem kalloc_fresh (hend : 0 < kend) (hphys : kend ≤ PHYSTOP) (hS : Reached kend S) :
    ((kalloc S.kmem).2 ≠ 0 → (kalloc S.kmem).2 ∉ S.held ∧ Page kend (kalloc S.kmem).2) ∧
      ((kalloc S.kmem).2 = 0 → S.held.Perm (allPages kend)) := by
  obtain ⟨P, hR⟩ := Refines.of_reached hend hphys hS
  cases hf : P.free with
  | nil =>
    rw [kalloc_nil (hf ▸ hR.chain)]
    refine ⟨fun h => absurd rfl h, fun _ => ?_⟩
    have hc := hR.covers
    rw [Pool.Covers, hf, List.nil_append, ← hR.held] at hc
    exact hc
  | cons q l =>
    have hc : Chain S.kmem (q :: l) := hf ▸ hR.chain
    obtain ⟨hq, -⟩ := kalloc_chain (fun r hr => (hR.page hphys (Or.inl (hf ▸ hr))).aligned) hc
    have hq0 : q ≠ 0 := hc.1 ▸ hc.2.1
    rw [hq]
    refine ⟨fun _ => ⟨fun hmem => ?_, hR.page hphys (Or.inl (hf ▸ List.mem_cons_self))⟩, fun h => absurd h hq0⟩
    -- the pool holds each page once, free or held
    have hnd := hR.nodup hphys
    rw [hf, ← hR.held] at hnd
    exact (List.nodup_append.mp hnd).2.2 q List.mem_cons_self q hmem rfl

/-- With one page taken `kalloc` hands out the other; with both taken it
returns 0. -/
theorem kalloc_fresh_two_pages : 0 < PHYSTOP - 8192 ∧ PHYSTOP - 8192 ≤ PHYSTOP ∧
    (∃ hist S, Machine.exec (runStep (PHYSTOP - 8192)) ⟨twoPages, []⟩ []
        [.kalloc, .write ((PHYSTOP - 4096).toNat + 8) 7] = some (hist, S) ∧ Reached (PHYSTOP - 8192) S ∧
      ((kalloc S.kmem).2 ≠ 0 → (kalloc S.kmem).2 ∉ S.held ∧ Page (PHYSTOP - 8192) (kalloc S.kmem).2) ∧
      ((kalloc S.kmem).2 = 0 → S.held.Perm (allPages (PHYSTOP - 8192)))) ∧
    ∃ hist S, Machine.exec (runStep (PHYSTOP - 8192)) ⟨twoPages, []⟩ [] [.kalloc, .kalloc] = some (hist, S) ∧
      Reached (PHYSTOP - 8192) S ∧
      ((kalloc S.kmem).2 ≠ 0 → (kalloc S.kmem).2 ∉ S.held ∧ Page (PHYSTOP - 8192) (kalloc S.kmem).2) ∧
      ((kalloc S.kmem).2 = 0 → S.held.Perm (allPages (PHYSTOP - 8192))) := by
  obtain ⟨hist₁, S₁, hx₁, hS₁⟩ := reached_one_taken
  obtain ⟨hist₂, S₂, hx₂, hS₂⟩ := reached_both_taken
  exact ⟨by decide, by decide, ⟨hist₁, S₁, hx₁, hS₁, kalloc_fresh (by decide) (by decide) hS₁⟩,
    hist₂, S₂, hx₂, hS₂, kalloc_fresh (by decide) (by decide) hS₂⟩

/-- `getfreemem` counts `PGSIZE` bytes for each page nobody holds. -/
theorem getfreemem_run (hend : 0 < kend) (hphys : kend ≤ PHYSTOP) (hS : Reached kend S) {fuel : Nat}
    (hfuel : npages kend < fuel) :
    getfreemem fuel S.kmem = some (PGSIZE * UInt64.ofNat (npages kend - S.held.length)) := by
  obtain ⟨P, hR⟩ := Refines.of_reached hend hphys hS
  have hlen := hR.covers.length
  rw [allPages, length_pageRange, ← hR.held] at hlen
  rw [getfreemem_chain hR.chain (by omega)]
  congr 3
  omega

theorem getfreemem_run_two_pages : 0 < PHYSTOP - 8192 ∧ PHYSTOP - 8192 ≤ PHYSTOP ∧ npages (PHYSTOP - 8192) < 3 ∧
    ∃ hist S, Machine.exec (runStep (PHYSTOP - 8192)) ⟨twoPages, []⟩ []
        [.kalloc, .write ((PHYSTOP - 4096).toNat + 8) 7] = some (hist, S) ∧ Reached (PHYSTOP - 8192) S ∧
      getfreemem 3 S.kmem = some (PGSIZE * UInt64.ofNat (npages (PHYSTOP - 8192) - S.held.length)) := by
  obtain ⟨hist, S, hx, hS⟩ := reached_one_taken
  exact ⟨by decide, by decide, by decide, hist, S, hx, hS, getfreemem_run (by decide) (by decide) hS (by decide)⟩

/-- No page is held twice, every held page is one `kfree` takes back, and
freeing it never panics. -/
theorem kfree_held (hend : 0 < kend) (hphys : kend ≤ PHYSTOP) (hS : Reached kend S) :
    S.held.Nodup ∧ ∀ pa ∈ S.held, Page kend pa ∧ kfree kend S.kmem pa = .ok (S.kmem.push pa) := by
  obtain ⟨P, hR⟩ := Refines.of_reached hend hphys hS
  have hnd := hR.nodup hphys
  rw [← hR.held] at hnd
  refine ⟨(List.nodup_append.mp hnd).2.1, fun pa hpa => ?_⟩
  have hpage := hR.page hphys (Or.inr (hR.held ▸ hpa))
  exact ⟨hpage, kfree_of_page _ hpage⟩

theorem kfree_held_two_pages : 0 < PHYSTOP - 8192 ∧ PHYSTOP - 8192 ≤ PHYSTOP ∧
    ∃ hist S, Machine.exec (runStep (PHYSTOP - 8192)) ⟨twoPages, []⟩ []
        [.kalloc, .write ((PHYSTOP - 4096).toNat + 8) 7] = some (hist, S) ∧ Reached (PHYSTOP - 8192) S ∧
      S.held.Nodup ∧ ∀ pa ∈ S.held, Page (PHYSTOP - 8192) pa ∧ kfree (PHYSTOP - 8192) S.kmem pa = .ok (S.kmem.push pa) := by
  obtain ⟨hist, S, hx, hS⟩ := reached_one_taken
  exact ⟨by decide, by decide, hist, S, hx, hS, kfree_held (by decide) (by decide) hS⟩

end Reachable

end Kalloc

end Xv6
