/-
# `Xv6.Fs.LogCrash` — a commit is all or nothing

The disk may stop after any `bwrite` of `commit`; the next boot runs
`recover_from_log`, which may be stopped in turn, and so on until one
recovery runs to its end.  Whatever the crash points, the home blocks of
the transaction end up all old (the crash came before the header write
reached the disk) or all new (any later crash), nothing outside the log
region and the transaction has changed, and the header is clear.

The argument follows the disk through three stages.

    Untouched   before the commit point: only log blocks after the header
                have changed, and the header is the clear one it was
    Committed   past it: the header names the transaction, the log holds
                its blocks, and each home block is old or new
    installed   the disk a whole commit leaves

Recovery rewrites an `Untouched` disk as it is (`recoverCut_of_clear`),
keeps a `Committed` one `Committed` or finishes it (`recoverCut_committed`),
and rewrites `installed` as it is: `install_trans` can be repeated because
it copies from log blocks that no install overwrites.
-/
import Xv6.Fs.Log

namespace Xv6

open Store

/-! ## Recovery, crashed and rerun -/

/-- `recover_from_log` on disk `d`, stopped by a crash after `k` writes. -/
def recoverCut (start : Nat) (d : Disk) (k : Nat) : Disk :=
  run d ((recover_from_log start d).take k)

/-- Boot after boot: recovery stopped after `ks[0]`, then `ks[1]`, …
writes, and then run to its end. -/
def recoverAfterCrashes (start : Nat) : Disk → List Nat → Disk
  | d, [] => run d (recover_from_log start d)
  | d, k :: ks => recoverAfterCrashes start (recoverCut start d k) ks

/-- `commit` of `l` stopped after `k` writes, then recovered through the
crashes `ks`. -/
def commitCrash (l : Log) (cache : Nat → Block) (d₀ : Disk) (k : Nat) (ks : List Nat) : Disk :=
  recoverAfterCrashes l.start (run d₀ ((commit l cache).take k)) ks

attribute [grind] recoverCut recoverAfterCrashes commitCrash

/-- Clearing a clear header changes nothing. -/
theorem write_head_empty_of_clear {start : Nat} {d : Disk} (h : (d start).getInt 0 = 0) :
    write d (write_head start LogHeader.empty) = d := by
  funext a
  rw [write_apply, write_head_cell]
  split
  · rename_i ha
    subst ha
    exact LogHeader.encode_empty_of_getInt _ h
  · rfl

theorem recover_from_log_of_clear {start : Nat} {d : Disk} (h : (d start).getInt 0 = 0) :
    recover_from_log start d = [write_head start LogHeader.empty] := by
  rw [recover_from_log, LogHeader.decode_of_getInt _ h]
  rfl

/-- With a clear header, recovery rewrites the disk as it is, however far
it runs. -/
theorem recoverCut_of_clear {start : Nat} {d : Disk} (h : (d start).getInt 0 = 0) (k : Nat) :
    recoverCut start d k = d := by
  rw [recoverCut, recover_from_log_of_clear h]
  cases k with
  | zero => rfl
  | succ k =>
      rw [List.take_succ_cons, List.take_nil, run_cons, write_head_empty_of_clear h, run_nil]

theorem recoverAfterCrashes_of_clear {start : Nat} {d : Disk} (h : (d start).getInt 0 = 0) :
    ∀ ks, recoverAfterCrashes start d ks = d
  | [] => by
      rw [recoverAfterCrashes, recover_from_log_of_clear h, run_cons,
        write_head_empty_of_clear h, run_nil]
  | k :: ks => by
      rw [recoverAfterCrashes, recoverCut_of_clear h]
      exact recoverAfterCrashes_of_clear h ks

/-! ## Positions in the log -/

/-- The blocks a transaction logs are home blocks: `uint` block numbers
outside the log region (the file system logs inode, bitmap and data
blocks only). -/
def Log.HomeBlocks (l : Log) : Prop :=
  ∀ b ∈ l.lh.block, b < 2 ^ 32 ∧ (b < l.start ∨ l.start + l.size ≤ b)

theorem zipIdx_eq_of_snd_eq {α : Type} {xs : List α} {x y : α × Nat} (hx : x ∈ xs.zipIdx)
    (hy : y ∈ xs.zipIdx) (h : x.2 = y.2) : x = y := by
  obtain ⟨a, i⟩ := x
  obtain ⟨b, j⟩ := y
  have hij : i = j := h
  subst hij
  obtain ⟨-, ha⟩ := List.mem_zipIdx' hx
  obtain ⟨-, hb⟩ := List.mem_zipIdx' hy
  rw [ha, hb]

theorem zipIdx_eq_of_fst_eq {α : Type} {xs : List α} (hnd : xs.Nodup) {x y : α × Nat}
    (hx : x ∈ xs.zipIdx) (hy : y ∈ xs.zipIdx) (h : x.1 = y.1) : x = y := by
  obtain ⟨a, i⟩ := x
  obtain ⟨b, j⟩ := y
  obtain ⟨-, ha⟩ := List.mem_zipIdx' hx
  obtain ⟨-, hb⟩ := List.mem_zipIdx' hy
  have hij : i = j := (hnd.getElem_inj_iff).mp (ha.symm.trans (h.trans hb))
  subst hij
  exact Prod.ext h rfl

theorem mem_zipIdx_of_lt {α : Type} {xs : List α} {t : Nat} (ht : t < xs.length) :
    (xs[t], t) ∈ xs.zipIdx :=
  List.mem_zipIdx_iff_getElem?.mpr (by simp [ht])

section Positions

variable {l : Log}

theorem Log.HomeBlocks.start_not_mem (hfits : l.Fits) (hhome : l.HomeBlocks) :
    l.start ∉ l.lh.block := by
  intro hs
  have h := (hhome _ hs).2
  have hsize := hfits.lt_size
  omega

theorem Log.HomeBlocks.log_not_mem (hfits : l.Fits) (hhome : l.HomeBlocks) {t : Nat}
    (ht : t < l.lh.n) : l.start + t + 1 ∉ l.lh.block := by
  intro hs
  have h := (hhome _ hs).2
  have hsize := hfits.lt_size
  omega

end Positions

theorem mem_write_log {start : Nat} {cache : Nat → Block} {lh : LogHeader} {w : Write Nat Block}
    (hw : w ∈ write_log start cache lh) : ∃ t < lh.n, w.cell = start + t + 1 := by
  obtain ⟨⟨b, t⟩, he, rfl⟩ := List.mem_map.mp hw
  exact ⟨t, (List.mem_zipIdx' he).1, rfl⟩

theorem install_trans_cell_mem {start : Nat} {lh : LogHeader} {w : Write Nat Block}
    (hw : w ∈ install_trans start lh) : w.cell ∈ lh.block := by
  obtain ⟨⟨b, t⟩, he, rfl⟩ := List.mem_map.mp hw
  obtain ⟨ht, hb⟩ := List.mem_zipIdx' he
  exact hb ▸ List.getElem_mem ht

theorem run_install_take_of_not_mem {start : Nat} {lh : LogHeader} (d : Disk) (j : Nat) {a : Nat}
    (ha : a ∉ lh.block) : run d ((install_trans start lh).take j) a = d a := by
  apply run_apply_of_forall
  intro w hw h
  rw [← h] at ha
  exact ha (install_trans_cell_mem (List.mem_of_mem_take hw))

theorem run_install_of_not_mem {start : Nat} {lh : LogHeader} (d : Disk) {a : Nat}
    (ha : a ∉ lh.block) : run d (install_trans start lh) a = d a := by
  apply run_apply_of_forall
  intro w hw h
  rw [← h] at ha
  exact ha (install_trans_cell_mem hw)

/-! ## Installing the log -/

section Install

variable {l : Log} (hfits : l.Fits) (hhome : l.HomeBlocks)
include hfits hhome

/-- No install reads a home block: it copies from the log. -/
theorem install_trans_readsFresh : ReadsFresh (install_trans l.start l.lh) := by
  apply ReadsFresh.of_ignores
  intro w hw w' hw'
  obtain ⟨⟨b', t'⟩, he', rfl⟩ := List.mem_map.mp hw'
  have ht' := (List.mem_zipIdx' he').1
  intro d v
  show Function.update d w.cell v (l.start + t' + 1) = d (l.start + t' + 1)
  rw [Function.update_of_ne]
  intro heq
  exact hhome.log_not_mem hfits ht' (heq ▸ install_trans_cell_mem hw)

/-- A prefix of the installs writes the log blocks as they stood when it
began. -/
theorem run_install_take (d : Disk) (j : Nat) :
    run d ((install_trans l.start l.lh).take j) =
      run d ((l.lh.block.zipIdx.take j).map fun e => Write.const e.1 (d (l.start + e.2 + 1))) := by
  rw [run_eq_of_readsFresh _ _ ((install_trans_readsFresh hfits hhome).take j), install_trans,
    ← List.map_take, List.map_map]
  rfl

end Install

/-! ## The stages of a commit -/

section Commit

variable (l : Log) (cache : Nat → Block) (d₀ : Disk)

/-- The header block from the commit point on. -/
def committedHead : Block :=
  l.lh.encode (d₀ l.start)

/-- The disk at the commit point: the log written, then the header. -/
def commitPoint : Disk :=
  run d₀ (write_log l.start cache l.lh ++ [write_head l.start l.lh])

/-- The disk a whole commit leaves: the home blocks installed, the header
cleared. -/
def installed : Disk :=
  Function.update (fun a => if a ∈ l.lh.block then cache a else commitPoint l cache d₀ a) l.start
    (LogHeader.empty.encode (committedHead l d₀))

/-- Before the commit point: only log blocks after the header differ. -/
def Untouched (d : Disk) : Prop :=
  ∀ a, (a ≤ l.start ∨ l.start + l.size ≤ a) → d a = d₀ a

attribute [grind] committedHead commitPoint installed

/-- Past the commit point. -/
structure Committed (d : Disk) : Prop where
  head : d l.start = committedHead l d₀
  rest : ∀ a, a ≠ l.start → a ∉ l.lh.block → d a = commitPoint l cache d₀ a
  home : ∀ b ∈ l.lh.block, d b = d₀ b ∨ d b = cache b

variable {l cache d₀}

theorem commitPoint_eq_write_log {a : Nat} (ha : a ≠ l.start) :
    commitPoint l cache d₀ a = run d₀ (write_log l.start cache l.lh) a := by
  rw [commitPoint, run_append, run_cons, run_nil, write_apply, write_head_cell, if_neg ha]

theorem commitPoint_start : commitPoint l cache d₀ l.start = committedHead l d₀ := by
  rw [commitPoint, run_append, run_cons, run_nil, write_apply, write_head_cell, if_pos rfl,
    write_head_value, run_apply_of_forall]
  · rfl
  · intro w hw
    obtain ⟨t, -, hc⟩ := mem_write_log hw
    rw [hc]
    omega

/-- Log block `t` holds the cached contents of the `t`-th logged block. -/
theorem commitPoint_log {t : Nat} (ht : t < l.lh.n) :
    commitPoint l cache d₀ (l.start + t + 1) = cache l.lh.block[t] := by
  rw [commitPoint_eq_write_log (by omega)]
  exact run_const_apply d₀ l.lh.block.zipIdx (fun e => l.start + e.2 + 1) (fun e => cache e.1)
    (fun x hx y hy hxy => zipIdx_eq_of_snd_eq hx hy (by simpa using hxy)) _ (mem_zipIdx_of_lt ht)

theorem commitPoint_other {a : Nat} (hs : a ≠ l.start) (hlog : ∀ t < l.lh.n, a ≠ l.start + t + 1) :
    commitPoint l cache d₀ a = d₀ a := by
  rw [commitPoint_eq_write_log hs]
  apply run_apply_of_forall
  intro w hw
  obtain ⟨t, ht, hc⟩ := mem_write_log hw
  rw [hc]
  exact (hlog t ht).symm

section Valid

variable (hfits : l.Fits) (hhome : l.HomeBlocks)
include hfits hhome

theorem commitPoint_home {b : Nat} (hb : b ∈ l.lh.block) : commitPoint l cache d₀ b = d₀ b :=
  commitPoint_other (fun h => hhome.start_not_mem hfits (h ▸ hb))
    (fun _ ht h => hhome.log_not_mem hfits ht (h ▸ hb))

theorem committed_commitPoint : Committed l cache d₀ (commitPoint l cache d₀) :=
  ⟨commitPoint_start, fun _ _ _ => rfl, fun _ hb => .inl (commitPoint_home hfits hhome hb)⟩

variable {d : Disk}

theorem Committed.log (hd : Committed l cache d₀ d) {t : Nat} (ht : t < l.lh.n) :
    d (l.start + t + 1) = cache l.lh.block[t] := by
  rw [hd.rest _ (by omega) (hhome.log_not_mem hfits ht), commitPoint_log ht]

/-- After any prefix of the installs a home block is old or new. -/
theorem Committed.install_take_home (hd : Committed l cache d₀ d) (j : Nat) {b : Nat}
    (hb : b ∈ l.lh.block) :
    run d ((install_trans l.start l.lh).take j) b = d b ∨
      run d ((install_trans l.start l.lh).take j) b = cache b := by
  rw [run_install_take hfits hhome]
  rcases run_const_apply_cases d _ Prod.fst (fun e => d (l.start + e.2 + 1)) b with h | ⟨e, he, hcb, h⟩
  · exact .inl h
  · -- the install of `e = (block[t], t)` copied log block `t`, which holds `cache block[t]`
    right
    obtain ⟨b', t⟩ := e
    obtain ⟨ht, hb'⟩ := List.mem_zipIdx' (List.mem_of_mem_take he)
    subst hcb
    rw [h, hb']
    exact hd.log hfits hhome ht

/-- The whole installs leave every home block new. -/
theorem Committed.install_home (hd : Committed l cache d₀ d) {b : Nat} (hb : b ∈ l.lh.block) :
    run d (install_trans l.start l.lh) b = cache b := by
  have hall := run_install_take hfits hhome d l.lh.n
  rw [List.take_of_length_le (by simp [install_trans, LogHeader.n]),
    List.take_of_length_le (by simp [LogHeader.n])] at hall
  obtain ⟨t, ht, rfl⟩ := List.mem_iff_getElem.mp hb
  rw [hall]
  refine (run_const_apply d _ Prod.fst (fun e => d (l.start + e.2 + 1))
    (fun x hx y hy => zipIdx_eq_of_fst_eq hfits.nodup hx hy) (l.lh.block[t], t)
    (mem_zipIdx_of_lt ht)).trans ?_
  exact hd.log hfits hhome ht

theorem Committed.install_take (hd : Committed l cache d₀ d) (j : Nat) :
    Committed l cache d₀ (run d ((install_trans l.start l.lh).take j)) := by
  -- the installs write home blocks only
  refine ⟨?_, fun a ha hb => ?_, fun b hb => ?_⟩
  · rw [run_install_take_of_not_mem _ _ (hhome.start_not_mem hfits)]
    exact hd.head
  · rw [run_install_take_of_not_mem _ _ hb]
    exact hd.rest a ha hb
  · rcases hd.install_take_home hfits hhome j hb with h | h
    · rw [h]
      exact hd.home b hb
    · exact .inr h

/-- Installing the whole log and clearing the header finishes the commit. -/
theorem Committed.finish (hd : Committed l cache d₀ d) :
    run d (install_trans l.start l.lh ++ [write_head l.start LogHeader.empty]) =
      installed l cache d₀ := by
  funext a
  rw [run_append, run_cons, run_nil, write_apply, write_head_cell, installed]
  by_cases ha : a = l.start
  · subst ha
    rw [if_pos rfl, Function.update_self, write_head_value,
      run_install_of_not_mem _ (hhome.start_not_mem hfits), hd.head]
  · rw [if_neg ha, Function.update_of_ne ha]
    by_cases hb : a ∈ l.lh.block
    · rw [if_pos hb]
      exact hd.install_home hfits hhome hb
    · rw [if_neg hb, run_install_of_not_mem _ hb]
      exact hd.rest a ha hb

/-- Past the commit point, any prefix of "install, then clear the header"
leaves the disk committed or finishes it. -/
theorem Committed.finish_take (hd : Committed l cache d₀ d) (j : Nat) :
    Committed l cache d₀
        (run d ((install_trans l.start l.lh ++ [write_head l.start LogHeader.empty]).take j)) ∨
      run d ((install_trans l.start l.lh ++ [write_head l.start LogHeader.empty]).take j) =
        installed l cache d₀ := by
  rw [run_take_append]
  split
  · exact .inl (hd.install_take hfits hhome j)
  · rename_i hj
    right
    rw [List.take_of_length_le (by simp only [List.length_singleton]; omega), ← run_append]
    exact hd.finish hfits hhome

/-- `read_head` past the commit point finds the transaction. -/
theorem Committed.recover_eq (hd : Committed l cache d₀ d) :
    recover_from_log l.start d = install_trans l.start l.lh ++ [write_head l.start LogHeader.empty] := by
  rw [recover_from_log, hd.head, committedHead,
    LogHeader.decode_encode _ _ hfits.le_logsize fun x hx => (hhome x hx).1]

theorem installed_home {b : Nat} (hb : b ∈ l.lh.block) : installed l cache d₀ b = cache b := by
  have hs : b ≠ l.start := fun h => hhome.start_not_mem hfits (h ▸ hb)
  rw [installed, Function.update_of_ne hs, if_pos hb]

end Valid

theorem installed_outside (hfits : l.Fits) {a : Nat} (ha : a < l.start ∨ l.start + l.size ≤ a)
    (hb : a ∉ l.lh.block) : installed l cache d₀ a = d₀ a := by
  have hsize := hfits.lt_size
  have hs : a ≠ l.start := by omega
  rw [installed, Function.update_of_ne hs, if_neg hb]
  exact commitPoint_other hs fun t ht => by omega

theorem installed_clear : (installed l cache d₀ l.start).getInt 0 = 0 := by
  rw [installed, Function.update_self]
  exact LogHeader.getInt_encode_empty _

/-! ## Crashes past the commit point -/

theorem commit_eq (hn : 0 < l.lh.n) :
    commit l cache = (write_log l.start cache l.lh ++ [write_head l.start l.lh]) ++
      (install_trans l.start l.lh ++ [write_head l.start LogHeader.empty]) := by
  rw [commit, if_pos hn]
  simp only [List.append_assoc]

section Valid

variable (hfits : l.Fits) (hhome : l.HomeBlocks)
include hfits hhome

/-- A crashed recovery past the commit point leaves the disk past it, or
finishes the commit. -/
theorem recoverCut_committed {d : Disk}
    (hd : Committed l cache d₀ d ∨ d = installed l cache d₀) (k : Nat) :
    Committed l cache d₀ (recoverCut l.start d k) ∨
      recoverCut l.start d k = installed l cache d₀ := by
  rcases hd with hd | rfl
  · rw [recoverCut, hd.recover_eq hfits hhome]
    exact hd.finish_take hfits hhome k
  · exact .inr (recoverCut_of_clear installed_clear k)

theorem recoverAfterCrashes_committed :
    ∀ {d : Disk}, (Committed l cache d₀ d ∨ d = installed l cache d₀) →
      ∀ ks, recoverAfterCrashes l.start d ks = installed l cache d₀
  | _, .inl hd, [] => by
      rw [recoverAfterCrashes, hd.recover_eq hfits hhome]
      exact hd.finish hfits hhome
  | _, .inr rfl, [] => recoverAfterCrashes_of_clear installed_clear []
  | _, hd, k :: ks =>
      recoverAfterCrashes_committed (recoverCut_committed hfits hhome hd k) ks

theorem run_commit (hn : 0 < l.lh.n) : run d₀ (commit l cache) = installed l cache d₀ := by
  rw [commit_eq hn, run_append]
  exact (committed_commitPoint hfits hhome).finish hfits hhome

/-- Where a crash of `commit` leaves the disk: untouched up to the header
write, committed or finished from it on. -/
theorem commit_cut (hn : 0 < l.lh.n) (k : Nat) :
    (k ≤ l.lh.n ∧ Untouched l d₀ (run d₀ ((commit l cache).take k))) ∨
      (l.lh.n < k ∧ (Committed l cache d₀ (run d₀ ((commit l cache).take k)) ∨
        run d₀ ((commit l cache).take k) = installed l cache d₀)) := by
  have hlog : (write_log l.start cache l.lh).length = l.lh.n := by
    simp [write_log, LogHeader.n]
  rw [commit_eq hn, run_take_append]
  split
  · rename_i hk
    rw [run_take_append]
    split
    · -- inside `write_log`: only log blocks after the header are written
      rename_i hk'
      left
      refine ⟨hlog ▸ hk', fun a ha => run_apply_of_forall _ _ _ fun w hw => ?_⟩
      obtain ⟨t, ht, hc⟩ := mem_write_log (List.mem_of_mem_take hw)
      have hsize := hfits.lt_size
      rw [hc]
      omega
    · -- the header write has reached the disk
      rename_i hk'
      right
      have hone : k - (write_log l.start cache l.lh).length = 1 := by
        simp only [List.length_append, List.length_singleton] at hk
        omega
      refine ⟨by omega, .inl ?_⟩
      rw [hone, List.take_one, List.head?_cons, Option.toList_some, ← run_append]
      exact committed_commitPoint hfits hhome
  · rename_i hk
    simp only [List.length_append, List.length_singleton] at hk
    exact .inr ⟨by omega, (committed_commitPoint hfits hhome).finish_take hfits hhome _⟩

end Valid

end Commit

/-- A commit is all or nothing.  A transaction of distinct home blocks `B =
l.lh.block` with cached contents `cache`, committed on a disk whose header
is clear: stop `commit` after any `k` writes and recovery after any `ks`.
If the crash came before the header write (`k ≤ n`) every block of `B` is
old; after it, every block of `B` is new and the disk is the one an
uninterrupted `commit` leaves.  Either way nothing outside the log region
and `B` has changed, and the header is clear. -/
theorem commit_crash_atomic (l : Log) (cache : Nat → Block) (d₀ : Disk) (hfits : l.Fits)
    (hhome : l.HomeBlocks) (hclear : (d₀ l.start).getInt 0 = 0) (k : Nat) (ks : List Nat) :
    (k ≤ l.lh.n → ∀ b ∈ l.lh.block, commitCrash l cache d₀ k ks b = d₀ b) ∧
    (l.lh.n < k → ∀ b ∈ l.lh.block, commitCrash l cache d₀ k ks b = cache b) ∧
    (∀ a, (a < l.start ∨ l.start + l.size ≤ a) → a ∉ l.lh.block →
      commitCrash l cache d₀ k ks a = d₀ a) ∧
    (commitCrash l cache d₀ k ks l.start).getInt 0 = 0 ∧
    (l.lh.n < k → commitCrash l cache d₀ k ks = run d₀ (commit l cache)) := by
  rcases Nat.eq_zero_or_pos l.lh.n with hn | hn
  · -- nothing to commit: `commit` writes nothing and recovery rewrites the clear header
    have hnil : commit l cache = [] := by
      rw [commit, if_neg (by omega)]
    have hd : commitCrash l cache d₀ k ks = d₀ := by
      rw [commitCrash, hnil, List.take_nil, run_nil]
      exact recoverAfterCrashes_of_clear hclear ks
    have hB : l.lh.block = [] := List.eq_nil_of_length_eq_zero hn
    rw [hd, hnil, hB]
    simp [hclear]
  · rcases commit_cut hfits hhome hn k with ⟨hk, hu⟩ | ⟨hk, hc⟩
    · -- before the commit point nothing recovery reads has changed
      have hstart := hu l.start (.inl (Nat.le_refl _))
      have hd : commitCrash l cache d₀ k ks = run d₀ ((commit l cache).take k) :=
        recoverAfterCrashes_of_clear (hstart ▸ hclear) ks
      have hsize := hfits.lt_size
      refine ⟨fun _ b hb => ?_, fun h => absurd h (by omega), fun a ha _ => ?_, ?_,
        fun h => absurd h (by omega)⟩
      · have hb' := (hhome b hb).2
        rw [hd]
        exact hu b (by omega)
      · rw [hd]
        exact hu a (by omega)
      · rw [hd, hstart]
        exact hclear
    · have hd : commitCrash l cache d₀ k ks = installed l cache d₀ :=
        recoverAfterCrashes_committed hfits hhome hc ks
      refine ⟨fun h => absurd h (by omega), fun _ b hb => ?_, fun a ha hab => ?_, ?_, fun _ => ?_⟩
      · rw [hd]
        exact installed_home hfits hhome hb
      · rw [hd]
        exact installed_outside hfits ha hab
      · rw [hd]
        exact installed_clear
      · rw [hd, run_commit hfits hhome hn]

/-- Two home blocks logged in the 30-block region at block 2 of a zeroed
disk, `commit` stopped just after its header write, recovery stopped twice:
both blocks hold their new contents. -/
theorem commit_crash_atomic_two_blocks :
    (⟨2, 30, 0, false, ⟨[40, 41]⟩⟩ : Log).Fits ∧ (⟨2, 30, 0, false, ⟨[40, 41]⟩⟩ : Log).HomeBlocks ∧
    Block.getInt ((fun _ _ => 0 : Disk) 2) 0 = 0 ∧
    ∀ b ∈ [40, 41], commitCrash ⟨2, 30, 0, false, ⟨[40, 41]⟩⟩ (fun _ _ => 1) (fun _ _ => 0) 3 [1, 2] b =
      fun _ => 1 := by
  have hF : (⟨2, 30, 0, false, ⟨[40, 41]⟩⟩ : Log).Fits := ⟨by decide, by decide, by decide⟩
  have hH : (⟨2, 30, 0, false, ⟨[40, 41]⟩⟩ : Log).HomeBlocks := by
    unfold Log.HomeBlocks
    decide
  have hC : Block.getInt ((fun _ _ => 0 : Disk) 2) 0 = 0 := by decide
  exact ⟨hF, hH, hC, (commit_crash_atomic _ _ _ hF hH hC 3 [1, 2]).2.1 (by decide)⟩

end Xv6
