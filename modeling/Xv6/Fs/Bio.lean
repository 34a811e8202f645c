/-
# `Xv6.Fs.Bio` — the buffer cache

`kernel/bio.c`: `NBUF` buffers on a circular doubly linked list through
`bcache.head`, most recently used first.  `bget` looks a block up from the
front, and else recycles the least recently used buffer nobody holds,
searching from the back; `brelse` moves a buffer to the front when its
last holder lets it go; `bpin` and `bunpin` add and drop a reference that
`log_write` uses to keep a block of a transaction in the cache.

**Model.**  A node is a `BufPtr`, `none` standing for `&bcache.head`; the
`prev` and `next` fields of every node, the head's included, are the two
link functions of one `DList.Links BufPtr`.  The sleep lock, `disk` and
`data` take no part in what `bio.c` decides and are left out; `bread`
only sets `valid` where it reads the block.  The two loops of `bget` run
until they are back at the head; `DList.scan` bounds them by `NBUF + 1`
nodes, which on the ring `binit` builds is never what stops them
(`bget_eq`).

**The machine.**  `bioStep` runs one call of a sequence of `bread`,
`brelse`, `bpin` and `bunpin`, where a `brelse` releases a buffer an
earlier `bread` returned and a `bunpin` drops an earlier `bpin`.  Beside
the cache it keeps what the cache is meant to be: the buffers in order of
use, the `bread`s and pins outstanding on each buffer, and whether `bget`
ever handed a buffer out or gave it a block.

**Results.**

    bget_eq            on a ring, bget is a lookup in the list of buffers
                       front to back, then a search for a free buffer back
                       to front
    BioSys.Inv         the links are one ring through every buffer, the
                       count is the references outstanding modulo 2^32,
                       a block bget assigned is cached nowhere else, and a
                       buffer handed out with its first, zero, block is the
                       first such buffer in the list
    bioStep_inv        every call keeps it; bioSys_run_inv, every run does
    bcache_invariant   hence over every sequence of calls: one ring through
                       the head and each buffer once; no two buffers handed
                       out with the same block; the count exact below 2^32
                       references; bget finds a cached block, and recycles
                       only a buffer with a count of 0, which below 2^32
                       references has no holder and no pin
    bcache_pin_wraps   and the bound is needed: 2^32 - 1 pins on a held
                       buffer bring its count to 0, and bget recycles it
-/
import Mathlib.Data.Fintype.Card
import Xv6.Kernel.Param
import Xv6.Lib.DList
import Xv6.Lib.Run

namespace Xv6

/-! ## `struct buf` and `bcache` -/

instance : NeZero NBUF := ⟨by decide⟩

/-- A node of the list: a buffer, or `none` for `&bcache.head`. -/
abbrev BufPtr := Option (Fin NBUF)

/-- The fields of `struct buf` that `bio.c` reads and writes. -/
structure Buf where
  valid : Bool
  dev : UInt32
  blockno : UInt32
  refcnt : UInt32
  deriving DecidableEq

/-- `b->dev == dev && b->blockno == blockno`, the test of `bget`'s first loop. -/
def Buf.caches (x : Buf) (dev blockno : UInt32) : Bool := x.dev == dev && x.blockno == blockno

attribute [grind] Buf.caches

structure Bcache where
  buf : Fin NBUF → Buf
  link : DList.Links BufPtr

namespace Bcache

def setBuf (c : Bcache) (b : Fin NBUF) (x : Buf) : Bcache := { c with buf := Function.update c.buf b x }

/-- A test on buffers read at a node; the head passes no test. -/
def test (c : Bcache) (p : Buf → Bool) : BufPtr → Bool
  | none => false
  | some b => p (c.buf b)

/-- The static `bcache`: every buffer zero.  Its links are set by `binit`
before anything reads them. -/
def zero : Bcache := ⟨fun _ => ⟨false, 0, 0, 0⟩, ⟨fun _ => none, fun _ => none⟩⟩

attribute [grind] setBuf

end Bcache

/-! ## `bio.c` -/

/-- Create linked list of buffers: the head alone, then each buffer in turn
put right after it. -/
def binit (c : Bcache) : Bcache :=
  let L : DList.Links BufPtr :=
    ⟨Function.update c.link.next none none, Function.update c.link.prev none none⟩
  { c with link := (List.finRange NBUF).foldl (fun L b => L.pushFront none (some b)) L }

/-- Look through the cache for block `blockno` of `dev`; if it is not there,
recycle the least recently used buffer with no references.  `none` is
`panic("bget: no buffers")`. -/
def bget (dev blockno : UInt32) (c : Bcache) : Option (Fin NBUF × Bcache) :=
  -- Is the block already cached?
  match DList.scan c.link.next none (c.test fun x => x.caches dev blockno) (NBUF + 1) (c.link.next none) with
  | some (some b) => some (b, c.setBuf b { c.buf b with refcnt := (c.buf b).refcnt + 1 })
  | _ =>
    -- Not cached.  Recycle the least recently used (LRU) unused buffer.
    match DList.scan c.link.prev none (c.test fun x => x.refcnt == 0) (NBUF + 1) (c.link.prev none) with
    | some (some b) =>
        some (b, c.setBuf b { c.buf b with dev := dev, blockno := blockno, valid := false, refcnt := 1 })
    | _ => none

/-- Return the buffer of the block, read from the disk if it is not valid. -/
def bread (dev blockno : UInt32) (c : Bcache) : Option (Fin NBUF × Bcache) :=
  (bget dev blockno c).map fun (b, c) =>
    if (c.buf b).valid then (b, c) else (b, c.setBuf b { c.buf b with valid := true })

/-- Release a buffer; with no references left, move it to the front of the
list. -/
def brelse (b : Fin NBUF) (c : Bcache) : Bcache :=
  let c := c.setBuf b { c.buf b with refcnt := (c.buf b).refcnt - 1 }
  if (c.buf b).refcnt = 0 then
    -- no one is waiting for it
    { c with link := (c.link.unlink (some b)).pushFront none (some b) }
  else c

def bpin (b : Fin NBUF) (c : Bcache) : Bcache :=
  c.setBuf b { c.buf b with refcnt := (c.buf b).refcnt + 1 }

def bunpin (b : Fin NBUF) (c : Bcache) : Bcache :=
  c.setBuf b { c.buf b with refcnt := (c.buf b).refcnt - 1 }

attribute [grind] binit brelse bpin bunpin

/-! ## The cache functions on the ring -/

namespace Bcache

variable {c : Bcache} {b b' : Fin NBUF} {x : Buf}

@[simp] theorem setBuf_link : (c.setBuf b x).link = c.link := rfl

@[simp] theorem setBuf_buf_self : (c.setBuf b x).buf b = x := by simp [setBuf]

@[simp] theorem setBuf_buf_of_ne (h : b' ≠ b) : (c.setBuf b x).buf b' = c.buf b' := by
  simp [setBuf, h]

@[simp] theorem setBuf_setBuf {y : Buf} : (c.setBuf b x).setBuf b y = c.setBuf b y := by
  simp [setBuf]

theorem setBuf_self : c.setBuf b (c.buf b) = c := by simp [setBuf]

theorem test_comp_some (p : Buf → Bool) : c.test p ∘ some = fun b => p (c.buf b) := rfl

end Bcache

theorem Buf.caches_iff {x : Buf} {dev blockno : UInt32} :
    x.caches dev blockno = true ↔ x.dev = dev ∧ x.blockno = blockno := by
  simp [Buf.caches]

section Ring

variable {c : Bcache} {order : List (Fin NBUF)} {dev blockno : UInt32}

/-- On a ring through the buffers of `order`, `bget` looks the block up in
`order` from the front, and else takes the last buffer of `order` with no
references. -/
theorem bget_eq (hR : DList.Ring c.link none (order.map some)) (hlen : order.length ≤ NBUF) :
    bget dev blockno c =
      match order.find? (fun b => (c.buf b).caches dev blockno) with
      | some b => some (b, c.setBuf b { c.buf b with refcnt := (c.buf b).refcnt + 1 })
      | none =>
        match order.reverse.find? (fun b => (c.buf b).refcnt == 0) with
        | some b =>
            some (b, c.setBuf b { c.buf b with dev := dev, blockno := blockno, valid := false, refcnt := 1 })
        | none => none := by
  have hf : (order.map some).length < NBUF + 1 := by simpa using Nat.lt_succ_of_le hlen
  unfold bget
  -- a test read at `some b` is the test of buffer `b`
  rw [hR.scan_next hf, hR.scan_prev hf, ← List.map_reverse, List.find?_map, List.find?_map,
    Bcache.test_comp_some, Bcache.test_comp_some]
  cases order.find? (fun b => (c.buf b).caches dev blockno) with
  | some b => rfl
  | none =>
      cases order.reverse.find? (fun b => (c.buf b).refcnt == 0) with
      | some b => rfl
      | none => rfl

/-- `bread` is `bget`, with the buffer marked valid. -/
theorem bread_eq : bread dev blockno c =
    (bget dev blockno c).map fun (b, c) => (b, c.setBuf b { c.buf b with valid := true }) := by
  unfold bread
  cases bget dev blockno c with
  | none => rfl
  | some r =>
      obtain ⟨b, c'⟩ := r
      simp only [Option.map_some]
      split
      · rename_i hv
        -- already valid: marking it again changes nothing
        have hx : { c'.buf b with valid := true } = c'.buf b := by
          cases hb : c'.buf b
          simp_all
        rw [hx, Bcache.setBuf_self]
      · rfl

/-- What a `bget` can do on a ring: return the first buffer of `order`
that caches the block, with one more reference; or, when none does, give
the last buffer of `order` with no references the block, with one
reference. -/
theorem bget_spec (hR : DList.Ring c.link none (order.map some)) (hlen : order.length ≤ NBUF)
    {b : Fin NBUF} {c' : Bcache} (h : bget dev blockno c = some (b, c')) :
    (order.find? (fun b => (c.buf b).caches dev blockno) = some b ∧
      c' = c.setBuf b { c.buf b with refcnt := (c.buf b).refcnt + 1 }) ∨
    (order.find? (fun b => (c.buf b).caches dev blockno) = none ∧
      order.reverse.find? (fun b => (c.buf b).refcnt == 0) = some b ∧
      c' = c.setBuf b { c.buf b with dev := dev, blockno := blockno, valid := false, refcnt := 1 }) := by
  rw [bget_eq hR hlen] at h
  split at h
  · rename_i b₀ hfind
    obtain ⟨rfl, rfl⟩ := Prod.mk.inj (Option.some.inj h)
    exact .inl ⟨hfind, rfl⟩
  · rename_i hfind
    split at h
    · rename_i b₀ hfree
      obtain ⟨rfl, rfl⟩ := Prod.mk.inj (Option.some.inj h)
      exact .inr ⟨hfind, hfree, rfl⟩
    · cases h

/-- The same for `bread`, which marks the buffer valid. -/
theorem bread_spec (hR : DList.Ring c.link none (order.map some)) (hlen : order.length ≤ NBUF)
    {b : Fin NBUF} {c' : Bcache} (h : bread dev blockno c = some (b, c')) :
    (order.find? (fun b => (c.buf b).caches dev blockno) = some b ∧
      c' = c.setBuf b { c.buf b with refcnt := (c.buf b).refcnt + 1, valid := true }) ∨
    (order.find? (fun b => (c.buf b).caches dev blockno) = none ∧
      order.reverse.find? (fun b => (c.buf b).refcnt == 0) = some b ∧
      c' = c.setBuf b { c.buf b with dev := dev, blockno := blockno, valid := true, refcnt := 1 }) := by
  rw [bread_eq] at h
  obtain ⟨⟨b₀, c₀⟩, hg, he⟩ := Option.map_eq_some_iff.mp h
  obtain ⟨rfl, rfl⟩ := Prod.mk.inj he
  rcases bget_spec hR hlen hg with ⟨hfind, rfl⟩ | ⟨hnone, hfree, rfl⟩
  · exact .inl ⟨hfind, by simp⟩
  · exact .inr ⟨hnone, hfree, by simp⟩

end Ring

/-- `binit` links the buffers in after the head one by one, so the list
runs from the last buffer to the first. -/
theorem binit_ring (c : Bcache) :
    DList.Ring (binit c).link none ((List.finRange NBUF).reverse.map some) := by
  have h₀ : DList.Ring (⟨Function.update c.link.next none none,
      Function.update c.link.prev none none⟩ : DList.Links BufPtr) none [] :=
    DList.Ring.self (by simp) (by simp)
  have hnd : ((List.finRange NBUF).map some).Nodup :=
    (List.nodup_finRange NBUF).map (Option.some_injective _)
  have h := h₀.foldl_pushFront hnd fun x hx => by
    obtain ⟨b, -, rfl⟩ := List.mem_map.mp hx
    simp
  simpa [binit, List.foldl_map, List.map_reverse] using h

/-! ## Sequences of calls -/

/-- The calls of a sequence. -/
inductive BioCall
  | bread (dev blockno : UInt32)
  | brelse (b : Fin NBUF)
  | bpin (b : Fin NBUF)
  | bunpin (b : Fin NBUF)

/-- The cache, and what it is meant to be. -/
structure BioSys where
  cache : Bcache
  /-- the buffers, most recently used first -/
  order : List (Fin NBUF)
  /-- `bread`s not yet released -/
  holders : Fin NBUF → Nat
  /-- `bpin`s not yet dropped -/
  pins : Fin NBUF → Nat
  /-- `bget` has returned the buffer -/
  handed : Fin NBUF → Bool
  /-- `bget` has given the buffer a block, in its recycling loop -/
  assigned : Fin NBUF → Bool

/-- One call.  A `brelse` of a buffer with no `bread` outstanding and a
`bunpin` of one with no pin are not calls of a sequence; `bget`'s panic
stops the machine. -/
def bioStep (S : BioSys) : BioCall → Option (BioSys × Option (Fin NBUF))
  | .bread dev blockno =>
      (bread dev blockno S.cache).map fun (b, c) =>
        ({ S with
            cache := c
            holders := Function.update S.holders b (S.holders b + 1)
            handed := Function.update S.handed b true
            assigned := if (S.cache.buf b).caches dev blockno then S.assigned
              else Function.update S.assigned b true }, some b)
  | .brelse b =>
      if 0 < S.holders b then
        some ({ S with
            cache := brelse b S.cache
            order := if (S.cache.buf b).refcnt - 1 = 0 then b :: S.order.erase b else S.order
            holders := Function.update S.holders b (S.holders b - 1) }, none)
      else none
  | .bpin b =>
      some ({ S with cache := bpin b S.cache, pins := Function.update S.pins b (S.pins b + 1) }, none)
  | .bunpin b =>
      if 0 < S.pins b then
        some ({ S with cache := bunpin b S.cache, pins := Function.update S.pins b (S.pins b - 1) }, none)
      else none

/-- After `binit`: the list from the last buffer to the first, nothing
outstanding, nothing handed out. -/
def BioSys.boot : BioSys :=
  ⟨binit Bcache.zero, (List.finRange NBUF).reverse, fun _ => 0, fun _ => 0, fun _ => false,
    fun _ => false⟩

attribute [grind] bioStep BioSys.boot

/-- The invariant of the cache. -/
structure BioSys.Inv (S : BioSys) : Prop where
  /-- one ring through the head and the buffers in `order` -/
  ring : DList.Ring S.cache.link none (S.order.map some)
  complete : ∀ b, b ∈ S.order
  /-- the count is the references outstanding, modulo `2^32` -/
  refcnt : ∀ b, (S.cache.buf b).refcnt = UInt32.ofNat (S.holders b + S.pins b)
  /-- a block `bget` gave a buffer is cached in no other buffer -/
  assigned_unique : ∀ b b', S.assigned b = true → b' ≠ b →
    (S.cache.buf b').caches (S.cache.buf b).dev (S.cache.buf b).blockno = false
  /-- a buffer never given a block still has the zero block of the static -/
  pristine : ∀ b, S.assigned b = false → (S.cache.buf b).dev = 0 ∧ (S.cache.buf b).blockno = 0
  held : ∀ b, 0 < S.holders b → S.handed b = true
  /-- a buffer handed out with the zero block is the first such in the list -/
  first : ∀ b, S.handed b = true → S.assigned b = false →
    S.order.find? (fun x => !S.assigned x) = some b

theorem BioSys.Inv.length_le {S : BioSys} (hI : S.Inv) : S.order.length ≤ NBUF := by
  have hnd : S.order.Nodup := (List.nodup_cons.mp hI.ring.nodup).2.of_map some
  simpa using hnd.length_le_card

theorem bioSys_boot_inv : BioSys.boot.Inv where
  ring := binit_ring Bcache.zero
  complete b := by simp [BioSys.boot]
  refcnt b := rfl
  assigned_unique b _ h := by simp [BioSys.boot] at h
  pristine b _ := ⟨rfl, rfl⟩
  held b h := by simp [BioSys.boot] at h
  first b h := by simp [BioSys.boot] at h

/-! ## Every call keeps the invariant -/

theorem uint32_ofNat_succ (n : Nat) : UInt32.ofNat (n + 1) = UInt32.ofNat n + 1 := by
  rw [UInt32.ofNat_add, UInt32.ofNat_one]

theorem uint32_ofNat_pred {n : Nat} (h : 0 < n) : UInt32.ofNat (n - 1) = UInt32.ofNat n - 1 := by
  obtain ⟨m, rfl⟩ : ∃ m, n = m + 1 := ⟨n - 1, by omega⟩
  rw [Nat.add_sub_cancel, uint32_ofNat_succ, UInt32.add_sub_cancel]

/-- Every buffer keeps its block. -/
def Bcache.KeepsKeys (c c' : Bcache) : Prop :=
  ∀ b, (c'.buf b).dev = (c.buf b).dev ∧ (c'.buf b).blockno = (c.buf b).blockno

theorem Bcache.keepsKeys_setBuf {c : Bcache} {b : Fin NBUF} {x : Buf} (hd : x.dev = (c.buf b).dev)
    (hb : x.blockno = (c.buf b).blockno) : c.KeepsKeys (c.setBuf b x) := fun b' => by
  by_cases h : b' = b
  · subst h
    simp [hd, hb]
  · simp [h]

theorem brelse_buf (b : Fin NBUF) (c : Bcache) :
    (brelse b c).buf = (c.setBuf b { c.buf b with refcnt := (c.buf b).refcnt - 1 }).buf := by
  simp only [brelse, Bcache.setBuf_buf_self]
  split <;> rfl

theorem brelse_link (b : Fin NBUF) (c : Bcache) :
    (brelse b c).link = if (c.buf b).refcnt - 1 = 0 then (c.link.unlink (some b)).pushFront none (some b)
      else c.link := by
  simp only [brelse, Bcache.setBuf_buf_self]
  split <;> rfl

namespace BioSys.Inv

variable {S : BioSys} {dev blockno : UInt32} {b : Fin NBUF}

/-- The facts about blocks hold as long as no buffer changes its block and
no buffer is newly given one. -/
theorem keys {c' : Bcache} (hI : S.Inv) (hk : S.cache.KeepsKeys c') :
    (∀ x y, S.assigned x = true → y ≠ x → (c'.buf y).caches (c'.buf x).dev (c'.buf x).blockno = false) ∧
    (∀ x, S.assigned x = false → (c'.buf x).dev = 0 ∧ (c'.buf x).blockno = 0) := by
  refine ⟨fun x y hx hyx => ?_, fun x hx => ?_⟩
  · rw [(hk x).1, (hk x).2, Buf.caches, (hk y).1, (hk y).2]
    exact hI.assigned_unique x y hx hyx
  · rw [(hk x).1, (hk x).2]
    exact hI.pristine x hx

/-- While a buffer never given a block caches the block looked up, that
block is the zero block: the buffers that cache it are exactly those never
given a block, so the lookup finds the first of them. -/
theorem find?_caches_of_pristine (hI : S.Inv) (ha : S.assigned b = false)
    (hc : (S.cache.buf b).caches dev blockno = true) :
    S.order.find? (fun x => (S.cache.buf x).caches dev blockno) = S.order.find? (fun x => !S.assigned x) := by
  have hkey := Buf.caches_iff.mp hc
  have hzero := hI.pristine b ha
  refine DList.find?_congr_mem fun y _ => ?_
  cases hy : S.assigned y with
  | false =>
      have := hI.pristine y hy
      simp [Buf.caches, this, ← hkey.1, ← hkey.2, hzero]
  | true =>
      -- a buffer given a block holds a block no other buffer holds
      have hyb : b ≠ y := fun e => by rw [e, hy] at ha; cases ha
      have hu := hI.assigned_unique y b hy hyb
      cases hcy : (S.cache.buf y).caches dev blockno with
      | false => rfl
      | true =>
          rw [Buf.caches_iff] at hcy
          simp [Buf.caches, ← hcy.1, ← hcy.2, hkey.1, hkey.2] at hu

/-- A `bread` that finds its block keeps the invariant. -/
theorem bread_cached (hI : S.Inv)
    (hfind : S.order.find? (fun b => (S.cache.buf b).caches dev blockno) = some b) :
    BioSys.Inv { S with
      cache := S.cache.setBuf b { S.cache.buf b with refcnt := (S.cache.buf b).refcnt + 1, valid := true }
      holders := Function.update S.holders b (S.holders b + 1)
      handed := Function.update S.handed b true } := by
  have hk := hI.keys (show S.cache.KeepsKeys (S.cache.setBuf b
    { S.cache.buf b with refcnt := (S.cache.buf b).refcnt + 1, valid := true }) from
    Bcache.keepsKeys_setBuf rfl rfl)
  refine ⟨by simpa using hI.ring, hI.complete, fun x => ?_, hk.1, hk.2, fun x hx => ?_, fun x hx ha => ?_⟩
  · by_cases h : x = b
    · subst h
      simp [hI.refcnt x, Nat.add_right_comm _ 1, uint32_ofNat_succ]
    · simp [h, hI.refcnt x]
  · by_cases h : x = b
    · simp [h]
    · simp only [Function.update_of_ne h] at hx ⊢
      exact hI.held x hx
  · by_cases h : x = b
    · -- a buffer with the zero block was handed out: the first of them
      subst h
      have hc := List.find?_some hfind
      rw [← hfind, hI.find?_caches_of_pristine ha hc]
    · simp only [Function.update_of_ne h] at hx
      exact hI.first x hx ha

/-- A `bread` that recycles a buffer keeps the invariant. -/
theorem bread_recycled (hI : S.Inv)
    (hnone : S.order.find? (fun b => (S.cache.buf b).caches dev blockno) = none)
    (hfree : S.order.reverse.find? (fun b => (S.cache.buf b).refcnt == 0) = some b) :
    BioSys.Inv { S with
      cache := S.cache.setBuf b
        { S.cache.buf b with dev := dev, blockno := blockno, valid := true, refcnt := 1 }
      holders := Function.update S.holders b (S.holders b + 1)
      handed := Function.update S.handed b true
      assigned := Function.update S.assigned b true } := by
  -- no buffer caches the block
  have hno : ∀ y, (S.cache.buf y).caches dev blockno = false := fun y => by
    simpa using List.find?_eq_none.mp hnone y (hI.complete y)
  have hzero : (S.cache.buf b).refcnt = 0 := by simpa using List.find?_some hfree
  refine ⟨by simpa using hI.ring, hI.complete, fun x => ?_, fun x y hx hyx => ?_, fun x hx => ?_,
    fun x hx => ?_, fun x hx ha => ?_⟩
  · by_cases h : x = b
    · subst h
      have h0 : UInt32.ofNat (S.holders x + S.pins x) = 0 := by rw [← hI.refcnt x, hzero]
      simp [Nat.add_right_comm _ 1, uint32_ofNat_succ, h0]
    · simp [h, hI.refcnt x]
  · by_cases h : x = b
    · -- the new block is in no other buffer
      subst h
      simpa [hyx] using hno y
    · simp only [Function.update_of_ne h] at hx
      by_cases hy : y = b
      · -- nor is any block given earlier in the recycled buffer
        subst hy
        refine Bool.eq_false_iff.mpr fun hc => ?_
        simp only [Bcache.setBuf_buf_self, Bcache.setBuf_buf_of_ne h, Buf.caches_iff] at hc
        have hx' := hno x
        rw [Buf.caches_iff.mpr ⟨hc.1.symm, hc.2.symm⟩] at hx'
        cases hx'
      · simpa [h, hy] using hI.assigned_unique x y hx hyx
  · have h : x ≠ b := fun e => by simp [e] at hx
    simp only [Function.update_of_ne h] at hx
    simpa [h] using hI.pristine x hx
  · by_cases h : x = b
    · simp [h]
    · simp only [Function.update_of_ne h] at hx ⊢
      exact hI.held x hx
  · have h : x ≠ b := fun e => by simp [e] at ha
    simp only [Function.update_of_ne h] at hx ha
    -- the buffer given a block drops out of the test, which only moves the
    -- first match if it was that buffer
    refine DList.find?_of_imp (hI.first x hx ha) (fun y hy => ?_) (by simp [h, ha])
    by_cases hyb : y = b
    · simp [hyb] at hy
    · simpa [hyb] using hy

/-- A `brelse` of a buffer held by an earlier `bread` keeps the invariant. -/
theorem brelse (hI : S.Inv) (hh : 0 < S.holders b) :
    BioSys.Inv { S with
      cache := Xv6.brelse b S.cache
      order := if (S.cache.buf b).refcnt - 1 = 0 then b :: S.order.erase b else S.order
      holders := Function.update S.holders b (S.holders b - 1) } := by
  have hbuf := brelse_buf b S.cache
  have hk := hI.keys (show S.cache.KeepsKeys (Xv6.brelse b S.cache) from fun x => by
    rw [hbuf]
    exact (show S.cache.KeepsKeys (S.cache.setBuf b
      { S.cache.buf b with refcnt := (S.cache.buf b).refcnt - 1 }) from
      Bcache.keepsKeys_setBuf rfl rfl) x)
  -- `b` splits the list, and taking it out leaves the two sides
  obtain ⟨o₁, o₂, ho⟩ := List.append_of_mem (hI.complete b)
  have hb₁ : b ∉ o₁ := by
    have hnd := (List.nodup_cons.mp hI.ring.nodup).2.of_map some
    rw [ho] at hnd
    exact fun hm => List.disjoint_of_nodup_append hnd hm List.mem_cons_self
  have herase : S.order.erase b = o₁ ++ o₂ := by
    rw [ho, List.erase_append_right _ hb₁, List.erase_cons_head]
  refine ⟨?_, fun x => ?_, fun x => ?_, hk.1, hk.2, fun x hx => ?_, fun x hx ha => ?_⟩
  · rw [brelse_link]
    split
    · -- moved to the front
      have hR := hI.ring
      rw [ho, List.map_append, List.map_cons] at hR
      rw [herase, List.map_cons, List.map_append]
      exact hR.moveToFront
    · exact hI.ring
  · split
    · by_cases h : x = b
      · simp [h]
      · exact List.mem_cons_of_mem b ((List.mem_erase_of_ne h).mpr (hI.complete x))
    · exact hI.complete x
  · rw [hbuf]
    by_cases h : x = b
    · subst h
      simp only [Bcache.setBuf_buf_self, Function.update_self]
      rw [hI.refcnt x, show S.holders x - 1 + S.pins x = S.holders x + S.pins x - 1 by omega,
        uint32_ofNat_pred (by omega)]
    · simp [h, hI.refcnt x]
  · by_cases h : x = b
    · subst h
      exact hI.held x hh
    · simp only [Function.update_of_ne h] at hx
      exact hI.held x hx
  · have hfirst := hI.first x hx ha
    dsimp only
    split
    · -- `b` now leads; it is the first unassigned buffer if it is unassigned
      cases hb : S.assigned b with
      | false =>
          have hbx : b = x := Option.some.inj ((hI.first b (hI.held b hh) hb).symm.trans hfirst)
          subst hbx
          exact List.find?_cons_of_pos (by simp [hb])
      | true =>
          rw [List.find?_cons_of_neg (by simp [hb]), DList.find?_erase_of_false (by simp [hb]), hfirst]
    · exact hfirst

theorem bpin (hI : S.Inv) :
    BioSys.Inv { S with cache := Xv6.bpin b S.cache, pins := Function.update S.pins b (S.pins b + 1) } := by
  have hk := hI.keys (show S.cache.KeepsKeys (Xv6.bpin b S.cache) from Bcache.keepsKeys_setBuf rfl rfl)
  refine ⟨by simpa [Xv6.bpin] using hI.ring, hI.complete, fun x => ?_, hk.1, hk.2, hI.held, hI.first⟩
  by_cases h : x = b
  · subst h
    simp only [Xv6.bpin, Bcache.setBuf_buf_self, Function.update_self]
    rw [hI.refcnt x, ← Nat.add_assoc, uint32_ofNat_succ]
  · simp [Xv6.bpin, h, hI.refcnt x]

theorem bunpin (hI : S.Inv) (hp : 0 < S.pins b) :
    BioSys.Inv { S with cache := Xv6.bunpin b S.cache, pins := Function.update S.pins b (S.pins b - 1) } := by
  have hk := hI.keys (show S.cache.KeepsKeys (Xv6.bunpin b S.cache) from Bcache.keepsKeys_setBuf rfl rfl)
  refine ⟨by simpa [Xv6.bunpin] using hI.ring, hI.complete, fun x => ?_, hk.1, hk.2, hI.held, hI.first⟩
  by_cases h : x = b
  · subst h
    simp only [Xv6.bunpin, Bcache.setBuf_buf_self, Function.update_self]
    rw [hI.refcnt x, ← Nat.add_sub_assoc hp, uint32_ofNat_pred (by omega)]
  · simp [Xv6.bunpin, h, hI.refcnt x]

end BioSys.Inv

theorem bioStep_inv {S S' : BioSys} {e : BioCall} {o : Option (Fin NBUF)} (hI : S.Inv)
    (h : bioStep S e = some (S', o)) : S'.Inv := by
  cases e with
  | bread dev blockno =>
      obtain ⟨⟨b, c⟩, hr, hS⟩ := Option.map_eq_some_iff.mp h
      obtain ⟨rfl, -⟩ := Prod.mk.inj hS
      rcases bread_spec hI.ring hI.length_le hr with ⟨hfind, rfl⟩ | ⟨hnone, hfree, rfl⟩
      · -- the buffer already cached the block: nothing is assigned
        have hc := List.find?_some hfind
        simp only [hc, if_true]
        exact hI.bread_cached hfind
      · have hc : (S.cache.buf b).caches dev blockno = false := by
          simpa using List.find?_eq_none.mp hnone b (hI.complete b)
        simp only [hc, Bool.false_eq_true, if_false]
        exact hI.bread_recycled hnone hfree
  | brelse b =>
      simp only [bioStep] at h
      split at h
      · obtain ⟨rfl, -⟩ := Prod.mk.inj (Option.some.inj h)
        exact hI.brelse ‹_›
      · cases h
  | bpin b =>
      obtain ⟨rfl, -⟩ := Prod.mk.inj (Option.some.inj h)
      exact hI.bpin
  | bunpin b =>
      simp only [bioStep] at h
      split at h
      · obtain ⟨rfl, -⟩ := Prod.mk.inj (Option.some.inj h)
        exact hI.bunpin ‹_›
      · cases h

/-- The step of a `bread`, from what `bread` returns. -/
theorem bioStep_bread {S : BioSys} {dev blockno : UInt32} {b : Fin NBUF} {c : Bcache}
    (h : bread dev blockno S.cache = some (b, c)) :
    bioStep S (.bread dev blockno) = some ({ S with
      cache := c
      holders := Function.update S.holders b (S.holders b + 1)
      handed := Function.update S.handed b true
      assigned := if (S.cache.buf b).caches dev blockno then S.assigned
        else Function.update S.assigned b true }, some b) := by
  simp only [bioStep, h, Option.map_some]

/-- Every state a sequence of calls reaches from `binit` keeps the invariant. -/
theorem bioSys_run_inv {hist : List (BioSys × BioCall × Option (Fin NBUF))} {S : BioSys}
    (hr : Machine.Run bioStep BioSys.boot hist S) : S.Inv :=
  Machine.Run.state_invariant BioSys.Inv bioSys_boot_inv (fun _ _ _ _ hI h => bioStep_inv hI h) hr

/-! ## What the invariant gives -/

namespace BioSys.Inv

variable {S : BioSys} {dev blockno : UInt32} {b b' : Fin NBUF}

/-- No two buffers `bget` ever returned cache the same block. -/
theorem handed_keys_ne (hI : S.Inv) (hne : b ≠ b') (hb : S.handed b = true) (hb' : S.handed b' = true) :
    ((S.cache.buf b).dev, (S.cache.buf b).blockno) ≠ ((S.cache.buf b').dev, (S.cache.buf b').blockno) := by
  intro heq
  obtain ⟨hd, hn⟩ := Prod.mk.inj heq
  -- a buffer given a block is alone with it; two never given one are both first
  cases ha : S.assigned b with
  | true =>
      have hu := hI.assigned_unique b b' ha (Ne.symm hne)
      simp [Buf.caches, hd, hn] at hu
  | false =>
      cases ha' : S.assigned b' with
      | true =>
          have hu := hI.assigned_unique b' b ha' hne
          simp [Buf.caches, hd, hn] at hu
      | false => exact hne (Option.some.inj ((hI.first b hb ha).symm.trans (hI.first b' hb' ha')))

/-- A block some buffer caches is found by `bget`, which only counts one
more reference; when `bget` handed that buffer out, it is the one found. -/
theorem bget_cached (hI : S.Inv) (hc : (S.cache.buf b).caches dev blockno = true) :
    ∃ b', (S.cache.buf b').caches dev blockno = true ∧ (S.handed b = true → b' = b) ∧
      bget dev blockno S.cache =
        some (b', S.cache.setBuf b' { S.cache.buf b' with refcnt := (S.cache.buf b').refcnt + 1 }) := by
  cases hfind : S.order.find? (fun x => (S.cache.buf x).caches dev blockno) with
  | none => simpa [hc] using List.find?_eq_none.mp hfind b (hI.complete b)
  | some b' =>
      have hc' := List.find?_some hfind
      refine ⟨b', hc', fun hh => ?_, by rw [bget_eq hI.ring hI.length_le, hfind]⟩
      cases ha : S.assigned b with
      | true =>
          -- the block is `b`'s alone
          by_contra hne
          have hu := hI.assigned_unique b b' ha hne
          have hkey := Buf.caches_iff.mp hc
          rw [← hkey.1, ← hkey.2] at hc'
          rw [hu] at hc'
          cases hc'
      | false =>
          -- the zero block: the first buffer never given one, which is `b`
          rw [hI.find?_caches_of_pristine ha hc, hI.first b hh ha] at hfind
          exact (Option.some.inj hfind).symm

/-- A buffer `bget` recycles had no references, modulo `2^32`. -/
theorem bget_recycles {c' : Bcache} (hI : S.Inv) (h : bget dev blockno S.cache = some (b, c'))
    (hc : (S.cache.buf b).caches dev blockno = false) : (S.cache.buf b).refcnt = 0 := by
  rcases bget_spec hI.ring hI.length_le h with ⟨hfind, -⟩ | ⟨-, hfree, -⟩
  · have := List.find?_some hfind
    simp only [hc] at this
    cases this
  · simpa using List.find?_some hfree

/-- Below `2^32` references the count is exact. -/
theorem refcnt_toNat (hI : S.Inv) (hlt : S.holders b + S.pins b < 2 ^ 32) :
    (S.cache.buf b).refcnt.toNat = S.holders b + S.pins b := by
  rw [hI.refcnt b, UInt32.toNat_ofNat']
  exact Nat.mod_eq_of_lt hlt

end BioSys.Inv

/-! ## The buffer cache over every sequence of calls -/

theorem bcache_invariant {hist : List (BioSys × BioCall × Option (Fin NBUF))} {S : BioSys}
    (hr : Machine.Run bioStep BioSys.boot hist S) :
    (∃ l : List (Fin NBUF), DList.Ring S.cache.link none (l.map some) ∧ ∀ b, b ∈ l) ∧
    (∀ b b', b ≠ b' → S.handed b = true → S.handed b' = true →
      ((S.cache.buf b).dev, (S.cache.buf b).blockno) ≠ ((S.cache.buf b').dev, (S.cache.buf b').blockno)) ∧
    (∀ b, (S.cache.buf b).refcnt = UInt32.ofNat (S.holders b + S.pins b)) ∧
    (∀ b, S.holders b + S.pins b < 2 ^ 32 → (S.cache.buf b).refcnt.toNat = S.holders b + S.pins b) ∧
    (∀ dev blockno b, (S.cache.buf b).dev = dev → (S.cache.buf b).blockno = blockno →
      ∃ b', (S.cache.buf b').dev = dev ∧ (S.cache.buf b').blockno = blockno ∧
        (S.handed b = true → b' = b) ∧
        bget dev blockno S.cache =
          some (b', S.cache.setBuf b' { S.cache.buf b' with refcnt := (S.cache.buf b').refcnt + 1 })) ∧
    (∀ dev blockno b c', bget dev blockno S.cache = some (b, c') →
      ((S.cache.buf b).dev ≠ dev ∨ (S.cache.buf b).blockno ≠ blockno) →
      (S.cache.buf b).refcnt = 0 ∧
        (S.holders b + S.pins b < 2 ^ 32 → S.holders b = 0 ∧ S.pins b = 0)) := by
  have hI := bioSys_run_inv hr
  refine ⟨⟨S.order, hI.ring, hI.complete⟩, fun b b' hne hb hb' => hI.handed_keys_ne hne hb hb', hI.refcnt,
    fun b hlt => hI.refcnt_toNat hlt, fun dev blockno b hd hn => ?_, fun dev blockno b c' h hne => ?_⟩
  · obtain ⟨b', hc', hh, hget⟩ := hI.bget_cached (Buf.caches_iff.mpr ⟨hd, hn⟩)
    exact ⟨b', (Buf.caches_iff.mp hc').1, (Buf.caches_iff.mp hc').2, hh, hget⟩
  · have hc : (S.cache.buf b).caches dev blockno = false := by
      rcases hne with hne | hne <;> simp [Buf.caches, hne]
    have h0 := hI.bget_recycles h hc
    refine ⟨h0, fun hlt => ?_⟩
    -- a count of `0` below `2^32` is no reference at all
    have hn := hI.refcnt_toNat hlt
    rw [h0, UInt32.toNat_zero] at hn
    omega

/-- Two blocks read, one pinned and released, read again and the other
released: a hit, a pin outliving its holder, and a buffer back at the
head. -/
theorem bcache_invariant_reads :
    ∃ hist S, Machine.Run bioStep BioSys.boot hist S ∧
      hist.map (fun x => x.2.1) = [.brelse ⟨1, by decide⟩, .bread 1 1, .brelse ⟨0, by decide⟩,
        .bpin ⟨0, by decide⟩, .bread 1 2, .bread 1 1] ∧
      (∃ l : List (Fin NBUF), DList.Ring S.cache.link none (l.map some) ∧ ∀ b, b ∈ l) ∧
      (∀ b b', b ≠ b' → S.handed b = true → S.handed b' = true →
        ((S.cache.buf b).dev, (S.cache.buf b).blockno) ≠ ((S.cache.buf b').dev, (S.cache.buf b').blockno)) ∧
      (∀ b, (S.cache.buf b).refcnt = UInt32.ofNat (S.holders b + S.pins b)) ∧
      (∀ b, S.holders b + S.pins b < 2 ^ 32 → (S.cache.buf b).refcnt.toNat = S.holders b + S.pins b) ∧
      (∀ dev blockno b, (S.cache.buf b).dev = dev → (S.cache.buf b).blockno = blockno →
        ∃ b', (S.cache.buf b').dev = dev ∧ (S.cache.buf b').blockno = blockno ∧
          (S.handed b = true → b' = b) ∧
          bget dev blockno S.cache =
            some (b', S.cache.setBuf b' { S.cache.buf b' with refcnt := (S.cache.buf b').refcnt + 1 })) ∧
      (∀ dev blockno b c', bget dev blockno S.cache = some (b, c') →
        ((S.cache.buf b).dev ≠ dev ∨ (S.cache.buf b).blockno ≠ blockno) →
        (S.cache.buf b).refcnt = 0 ∧
          (S.holders b + S.pins b < 2 ^ 32 → S.holders b = 0 ∧ S.pins b = 0)) := by
  obtain ⟨hist, S, hr, hev⟩ := @Machine.exists_run_of_events _ _ _ bioStep BioSys.boot
    [.bread 1 1, .bread 1 2, .bpin ⟨0, by decide⟩, .brelse ⟨0, by decide⟩, .bread 1 1, .brelse ⟨1, by decide⟩]
    (by decide +kernel)
  exact ⟨hist, S, hr, hev, bcache_invariant hr⟩

/-- `n` calls of `bpin b` in a row add `n` to the count and to the pins. -/
theorem bpin_run (S : BioSys) (b : Fin NBUF) : ∀ n : Nat, Machine.Reachable bioStep S
    { S with
      cache := S.cache.setBuf b { S.cache.buf b with refcnt := (S.cache.buf b).refcnt + UInt32.ofNat n }
      pins := Function.update S.pins b (S.pins b + n) }
  | 0 => by
      have hx : { S.cache.buf b with refcnt := (S.cache.buf b).refcnt + UInt32.ofNat 0 } = S.cache.buf b := by
        generalize S.cache.buf b = x
        cases x
        simp
      refine ⟨[], ?_⟩
      rw [hx, Bcache.setBuf_self, Nat.add_zero, Function.update_eq_self]
      exact Machine.Run.nil
  | n + 1 => by
      obtain ⟨h, hr⟩ := bpin_run S b n
      refine ⟨_, Machine.Run.cons (e := .bpin b) (o := none) hr ?_⟩
      simp [bioStep, Xv6.bpin, uint32_ofNat_succ, UInt32.add_assoc, Nat.add_assoc]

/-- The count wraps: after `bread(1, 1)` and `2^32 - 1` calls of `bpin` on
its buffer, the buffer still caches block `1`, held once and pinned
`2^32 - 1` times, with a count of `0`, and `bread(1, 2)` recycles it. -/
theorem bcache_pin_wraps :
    ∃ hist S, Machine.Run bioStep BioSys.boot hist S ∧
      (S.cache.buf 0).dev = 1 ∧ (S.cache.buf 0).blockno = 1 ∧
      S.holders 0 = 1 ∧ S.pins 0 = 2 ^ 32 - 1 ∧ (S.cache.buf 0).refcnt = 0 ∧
      ∃ c', bget 1 2 S.cache = some (0, c') ∧ (c'.buf 0).blockno = 2 := by
  have hI₀ := bioSys_boot_inv
  -- `bread(1, 1)`: no buffer caches the block, and the last one, buffer 0, is free
  obtain ⟨c₁, hc₁⟩ : ∃ c₁, bread 1 1 BioSys.boot.cache = some (0, c₁) :=
    ⟨_, by rw [bread_eq, bget_eq hI₀.ring hI₀.length_le]; rfl⟩
  have hbuf₁ := (bread_spec hI₀.ring hI₀.length_le hc₁).resolve_left fun h => by
    have := List.find?_some h.1
    revert this
    decide
  obtain ⟨-, -, rfl⟩ := hbuf₁
  have hstep := bioStep_bread hc₁
  obtain ⟨hist, hpins⟩ := bpin_run _ 0 (2 ^ 32 - 1)
  have hrun := Machine.Run.append (Machine.Run.cons Machine.Run.nil hstep) hpins
  have hI := bioSys_run_inv hrun
  refine ⟨_, _, hrun, rfl, rfl, rfl, rfl, by decide, ?_⟩
  -- `bread(1, 2)`: no buffer caches it either, and buffer 0 has a count of `0`
  rw [bget_eq hI.ring hI.length_le]
  exact ⟨_, rfl, rfl⟩

end Xv6
