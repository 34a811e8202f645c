/-
# `Xv6.Kernel.ConsoleLine` — the line discipline, and the ring that keeps it

What the console's input is for, on lists (`Line`): every byte committed
to readers so far, in order, with `^D` among them marking an end of file;
the line being edited; and how many committed bytes reads have taken.
`Line.intr` is the editing of `consoleintr` on that view (`^U` empties the
line, `^H` and DEL drop its last byte, a byte that arrives while
`INPUT_BUF_SIZE` bytes are held is lost, a newline, a `^D` or a full buffer
commits the line), and `Line.read` is `consoleread`'s loop on it.

**The refinement.**  `Refines cons L` says that the ring holds `L`: the
cells from `r` up to `e` are the unread bytes then the line being edited,
and `w - r` counts the unread ones.  Every step keeps it, however the three
`uint` counters wrap (`consoleintr_refines`, `readLoop_refines`), so the
console on its ring and on lists take the same steps with the same outputs
(`Console.simulates`).

**The line discipline over every run** (`line_run`, `console_line`): the
counters keep `r ≤ w ≤ e ≤ r + INPUT_BUF_SIZE` as differences; no read
copies out a `^D` or a byte past its first newline; each read took from the
committed bytes exactly what it copied out, or the `^D` alone when it
returned 0 having copied nothing, so the bytes of all reads, in order, are
a prefix of the committed text; and a read that finds a `^D` first returns
0.  A read killed while it waits returns `-1`, and what it copied out in
that call is lost to its caller: only when no read is killed after copying
bytes are the bytes the reads returned a prefix of the committed text
(`console_killed_read_loses`).
-/
import Xv6.Kernel.Console

namespace Xv6

/-- The console's input as the line discipline sees it. -/
structure Line where
  committed : List UInt8
  pending : List UInt8
  consumed : Nat

namespace Line

/-- The committed bytes no read has taken. -/
def unread (L : Line) : List UInt8 := L.committed.drop L.consumed

/-- The bytes held for reading and editing, which `e - r` counts. -/
def held (L : Line) : Nat := L.unread.length + L.pending.length

/-- The editing of `consoleintr(c)`. -/
def intr (c : UInt8) (L : Line) : Line :=
  if c = C 'P' then L
  else if c = C 'U' then { L with pending := [] }
  else if c = C 'H' ∨ c = DEL then { L with pending := L.pending.dropLast }
  else if c ≠ 0 ∧ L.held < INPUT_BUF_SIZE then
    let c := if c = CR then LF else c
    if c = LF ∨ c = C 'D' ∨ L.held + 1 = INPUT_BUF_SIZE then
      { L with committed := L.committed ++ (L.pending ++ [c]), pending := [] }
    else { L with pending := L.pending ++ [c] }
  else L

/-- One more committed byte taken. -/
def take1 (L : Line) : Line := { L with consumed := L.consumed + 1 }

/-- `consoleread`'s loop on the committed bytes. -/
def read (target : Nat) (killed : Bool) : (n : Nat) → List UInt8 → Line → Line × List UInt8 × ReadStatus
  | 0, out, L => (L, out, .done target)
  | n + 1, out, L =>
    match L.unread with
    | [] => if killed then (L, out, .killed) else (L, out, .asleep (n + 1))
    | c :: _ =>
      if c = C 'D' then
        if n + 1 < target then (L, out, .done (target - (n + 1)))
        else (L.take1, out, .done (target - (n + 1)))
      else if c = LF then (L.take1, out ++ [c], .done (target - n))
      else read target killed n (out ++ [c]) L.take1

attribute [grind] unread held take1 read

theorem unread_take1 {L : Line} {c : UInt8} {rest : List UInt8} (h : L.unread = c :: rest) :
    L.take1.unread = rest := by
  unfold unread at h
  show L.committed.drop (L.consumed + 1) = rest
  rw [← List.drop_drop, h]
  rfl

end Line

/-- The console's input on lists, with no byte yet. -/
def Line.init : ConsSys Line :=
  ⟨⟨[], [], 0⟩, none⟩

/-- A step of the console on lists. -/
def lineStep : ConsSys Line → ConsEvent → Option (ConsSys Line × Option (Int × List UInt8)) :=
  ConsSys.step Line.intr Line.read

attribute [grind] lineStep

/-! ## The ring holds the line -/

theorem size_dvd : INPUT_BUF_SIZE ∣ 2 ^ 32 := ⟨2 ^ 25, by decide⟩

theorem size_lt : INPUT_BUF_SIZE < 2 ^ 32 := by decide

theorem Cons.idx_eq (x : UInt32) : Cons.idx x = Fin.ofNat INPUT_BUF_SIZE x.toNat := by
  have hsize : (UInt32.ofNat INPUT_BUF_SIZE).toNat = INPUT_BUF_SIZE := rfl
  ext
  simp only [Cons.idx, UInt32.toNat_mod, hsize, Fin.val_ofNat, Nat.mod_mod]

/-- The ring holds `L`: the cells from `r` up to `e` are the unread bytes
then the line being edited, `w - r` counts the unread ones; with what the
line discipline keeps of `L` itself. -/
structure Refines (cons : Cons) (L : Line) : Prop where
  unread : (cons.w - cons.r).toNat = L.unread.length
  held : Ring.between cons.buf cons.r cons.e = L.unread ++ L.pending
  cap : L.held ≤ INPUT_BUF_SIZE
  consumed : L.consumed ≤ L.committed.length
  nl : LF ∉ L.pending

namespace Refines

variable {cons : Cons} {L : Line}

theorem e_sub_r (h : Refines cons L) : (cons.e - cons.r).toNat = L.held := by
  have hl := congrArg List.length h.held
  rwa [Ring.length_between, List.length_append] at hl

theorem r_eq_w_iff (h : Refines cons L) : cons.r = cons.w ↔ L.unread = [] := by
  rw [← List.length_eq_zero_iff, ← h.unread, ← UInt32.toNat_inj, UInt32.toNat_sub]
  have := cons.r.toNat_lt
  have := cons.w.toNat_lt
  omega

theorem e_eq_w_iff (h : Refines cons L) : cons.e = cons.w ↔ L.pending = [] := by
  have hu := h.unread
  have he := h.e_sub_r
  have := cons.r.toNat_lt
  have := cons.w.toNat_lt
  have := cons.e.toNat_lt
  have hcap := h.cap
  rw [← List.length_eq_zero_iff, ← UInt32.toNat_inj]
  rw [UInt32.toNat_sub] at hu he
  unfold Line.held at he hcap
  omega

end Refines

/-! ### Editing -/

/-- Erasing the last byte of the line being edited. -/
theorem Refines.unpush {cons : Cons} {L : Line} (h : Refines cons L) (hp : L.pending ≠ []) :
    Refines { cons with e := cons.e - 1 } { L with pending := L.pending.dropLast } ∧
      cons.buf (Cons.idx (cons.e - 1)) = L.pending.getLast hp := by
  have hne : cons.r ≠ cons.e := fun hre => by
    have he := h.e_sub_r
    rw [hre, UInt32.sub_self, UInt32.toNat_zero] at he
    have := List.length_pos_iff.mpr hp
    unfold Line.held at he
    omega
  have hsplit : Ring.between cons.buf cons.r cons.e = _ := Ring.between_unpush size_dvd hne
  rw [h.held, ← List.dropLast_append_getLast hp, ← List.append_assoc] at hsplit
  obtain ⟨hheld, hlast⟩ := List.append_inj' hsplit rfl
  refine ⟨⟨h.unread, hheld.symm, ?_, h.consumed, fun hm => h.nl (List.mem_of_mem_dropLast hm)⟩, ?_⟩
  · have := h.cap
    unfold Line.held at this
    change L.unread.length + L.pending.dropLast.length ≤ INPUT_BUF_SIZE
    rw [List.length_dropLast]
    omega
  · rw [Cons.idx_eq]
    exact (List.singleton_inj.mp hlast).symm

/-- `^U` erases the whole line being edited: it holds no newline. -/
theorem killLoop_refines : ∀ (k : Nat) (cons : Cons) (L : Line), L.pending.length = k →
    Refines cons L → Refines (killLoop k cons) { L with pending := [] }
  | 0, cons, L, hk, h => by
    obtain ⟨committed, pending, consumed⟩ := L
    obtain rfl : pending = [] := List.length_eq_zero_iff.mp hk
    exact h
  | k + 1, cons, L, hk, h => by
    have hne : L.pending ≠ [] := List.ne_nil_of_length_eq_add_one hk
    obtain ⟨h', hlast⟩ := h.unpush hne
    -- the byte before `e` is the line's last, not a newline, so the loop goes on
    have hcond : cons.e ≠ cons.w ∧ cons.buf (Cons.idx (cons.e - 1)) ≠ LF := by
      refine ⟨fun hew => hne (h.e_eq_w_iff.mp hew), ?_⟩
      rw [hlast]
      exact fun hl => h.nl (hl ▸ List.getLast_mem hne)
    rw [killLoop, if_pos hcond]
    exact killLoop_refines k _ { L with pending := L.pending.dropLast } (by simp [hk]) h'

/-- Storing a byte at `e` while there is room appends it to what the ring
holds. -/
theorem Refines.push {cons : Cons} {L : Line} {b : UInt8} (h : Refines cons L) (hroom : L.held < INPUT_BUF_SIZE) :
    Ring.between (Function.update cons.buf (Cons.idx cons.e) b) cons.r (cons.e + 1) = L.unread ++ L.pending ++ [b] ∧
      (cons.e + 1 - cons.r).toNat = L.held + 1 := by
  have he := h.e_sub_r
  refine ⟨?_, ?_⟩
  · rw [Cons.idx_eq, Ring.between_push size_dvd size_lt (by rw [he]; exact hroom), h.held]
  · have := cons.r.toNat_lt
    have := cons.e.toNat_lt
    have : L.held + 1 < 2 ^ 32 := by have := size_lt; omega
    rw [UInt32.toNat_sub, UInt32.toNat_add, UInt32.toNat_one]
    rw [UInt32.toNat_sub] at he
    omega

theorem Refines.e_sub_w {cons : Cons} {L : Line} (h : Refines cons L) : (cons.e - cons.w).toNat = L.pending.length := by
  have hu := h.unread
  have he := h.e_sub_r
  have := cons.r.toNat_lt
  have := cons.w.toNat_lt
  have := cons.e.toNat_lt
  have hcap := h.cap
  rw [UInt32.toNat_sub] at hu he ⊢
  unfold Line.held at he hcap
  omega

/-- A byte stored into the line: committed with the line, or kept in it. -/
theorem Refines.store {cons : Cons} {L : Line} {b : UInt8} (h : Refines cons L) (hroom : L.held < INPUT_BUF_SIZE) :
    let cons' := { cons with buf := Function.update cons.buf (Cons.idx cons.e) b, e := cons.e + 1 }
    (cons'.e - cons'.r = UInt32.ofNat INPUT_BUF_SIZE ↔ L.held + 1 = INPUT_BUF_SIZE) ∧
      Refines { cons' with w := cons'.e } { L with committed := L.committed ++ (L.pending ++ [b]), pending := [] } ∧
      (b ≠ LF → Refines cons' { L with pending := L.pending ++ [b] }) := by
  obtain ⟨hheld, hcount⟩ := h.push (b := b) hroom
  have hsize : (UInt32.ofNat INPUT_BUF_SIZE).toNat = INPUT_BUF_SIZE := rfl
  have hunread : (L.committed ++ (L.pending ++ [b])).drop L.consumed = L.unread ++ (L.pending ++ [b]) :=
    List.drop_append_of_le_length h.consumed
  refine ⟨?_, ⟨?_, ?_, ?_, ?_, List.not_mem_nil⟩, fun hb => ⟨h.unread, ?_, ?_, h.consumed, ?_⟩⟩
  · rw [← UInt32.toNat_inj, hcount, hsize]
  · show (cons.e + 1 - cons.r).toNat = ((L.committed ++ (L.pending ++ [b])).drop L.consumed).length
    rw [hcount, hunread, Line.held]
    simp only [List.length_append, List.length_singleton]
    omega
  · show Ring.between _ cons.r (cons.e + 1) = (L.committed ++ (L.pending ++ [b])).drop L.consumed ++ []
    rw [hheld, hunread, List.append_nil, List.append_assoc]
  · have := h.cap
    have := h.push (b := b) hroom
    show ((L.committed ++ (L.pending ++ [b])).drop L.consumed).length + 0 ≤ INPUT_BUF_SIZE
    rw [hunread]
    simp only [List.length_append, List.length_singleton]
    unfold Line.held at hroom
    omega
  · show L.consumed ≤ (L.committed ++ (L.pending ++ [b])).length
    simp only [List.length_append]
    have := h.consumed
    omega
  · show Ring.between _ cons.r (cons.e + 1) = L.unread ++ (L.pending ++ [b])
    rw [hheld, List.append_assoc]
  · show L.unread.length + (L.pending ++ [b]).length ≤ INPUT_BUF_SIZE
    simp only [List.length_append, List.length_singleton]
    unfold Line.held at hroom
    omega
  · intro hm
    rcases List.mem_append.mp hm with hm | hm
    · exact h.nl hm
    · exact hb (List.mem_singleton.mp hm).symm

/-- `consoleintr` edits the ring as `Line.intr` edits the line. -/
theorem consoleintr_refines {c : UInt8} {cons : Cons} {L : Line} (h : Refines cons L) :
    Refines (consoleintr c cons) (L.intr c) := by
  unfold consoleintr Line.intr
  by_cases hP : c = C 'P'
  · rw [if_pos hP, if_pos hP]
    exact h
  rw [if_neg hP, if_neg hP]
  by_cases hU : c = C 'U'
  · rw [if_pos hU, if_pos hU, h.e_sub_w]
    exact killLoop_refines _ _ _ rfl h
  rw [if_neg hU, if_neg hU]
  by_cases hH : c = C 'H' ∨ c = DEL
  · rw [if_pos hH, if_pos hH]
    by_cases hp : L.pending = []
    · -- nothing to erase
      rw [if_neg (not_not.mpr (h.e_eq_w_iff.mpr hp)), hp, List.dropLast_nil, ← hp]
      exact h
    · rw [if_pos (fun he => hp (h.e_eq_w_iff.mp he))]
      exact (h.unpush hp).1
  rw [if_neg hH, if_neg hH]
  -- the test for room is the same on both sides
  have hroom : cons.e - cons.r < UInt32.ofNat INPUT_BUF_SIZE ↔ L.held < INPUT_BUF_SIZE := by
    rw [UInt32.lt_iff_toNat_lt, h.e_sub_r]
    rfl
  by_cases hs : c ≠ 0 ∧ L.held < INPUT_BUF_SIZE
  · rw [if_pos ⟨hs.1, hroom.mpr hs.2⟩, if_pos hs]
    obtain ⟨hfull, hcommit, hkeep⟩ := h.store (b := if c = CR then LF else c) hs.2
    dsimp only at hfull hcommit hkeep ⊢
    by_cases hcm : (if c = CR then LF else c) = LF ∨ (if c = CR then LF else c) = C 'D' ∨ L.held + 1 = INPUT_BUF_SIZE
    · rw [if_pos hcm, if_pos (by rwa [hfull])]
      exact hcommit
    · rw [if_neg hcm, if_neg (by rwa [hfull])]
      exact hkeep fun hb => hcm (.inl hb)
  · rw [if_neg fun hs' => hs ⟨hs'.1, hroom.mp hs'.2⟩, if_neg hs]
    exact h

/-! ### Reading -/

/-- Taking the byte at `r` takes the first unread byte. -/
theorem Refines.pop {cons : Cons} {L : Line} {c : UInt8} {rest : List UInt8} (h : Refines cons L)
    (hu : L.unread = c :: rest) :
    cons.buf (Cons.idx cons.r) = c ∧ Refines { cons with r := cons.r + 1 } L.take1 := by
  have hne : cons.r ≠ cons.e := fun hre => by
    have he := h.e_sub_r
    rw [hre, UInt32.sub_self, UInt32.toNat_zero] at he
    unfold Line.held at he
    rw [hu, List.length_cons] at he
    omega
  have hsplit : Ring.between cons.buf cons.r cons.e = _ := Ring.between_pop size_dvd hne
  rw [h.held, hu, List.cons_append] at hsplit
  obtain ⟨hc, hrest⟩ := List.cons.inj hsplit
  have ht := Line.unread_take1 hu
  refine ⟨by rw [Cons.idx_eq]; exact hc.symm, ⟨?_, ?_, ?_, ?_, h.nl⟩⟩
  · have hw := h.unread
    have := cons.r.toNat_lt
    have := cons.w.toNat_lt
    rw [hu, List.length_cons] at hw
    show (cons.w - (cons.r + 1)).toNat = L.take1.unread.length
    rw [ht, UInt32.toNat_sub, UInt32.toNat_add, UInt32.toNat_one]
    rw [UInt32.toNat_sub] at hw
    omega
  · show Ring.between cons.buf (cons.r + 1) cons.e = L.take1.unread ++ L.take1.pending
    rw [ht, ← hrest]
    rfl
  · have := h.cap
    unfold Line.held at this ⊢
    rw [ht]
    rw [hu, List.length_cons] at this
    exact Nat.le_of_succ_le (by simpa [Line.take1, Nat.add_right_comm] using this)
  · -- a byte is left to take, so fewer have been taken than committed
    have hlt : L.consumed < L.committed.length := by
      by_contra hge
      have : L.unread = [] := List.drop_eq_nil_of_le (by omega)
      rw [this] at hu
      cases hu
    exact hlt

/-- `consoleread`'s loop on the ring copies out what `Line.read` copies out
of the line, and lands where it lands. -/
theorem readLoop_refines (target : Nat) (killed : Bool) :
    ∀ (n : Nat) (out : List UInt8) (cons : Cons) (L : Line), Refines cons L →
      Refines (readLoop target killed n out cons).1 (L.read target killed n out).1 ∧
        (readLoop target killed n out cons).2 = (L.read target killed n out).2
  | 0, out, cons, L, h => ⟨h, rfl⟩
  | n + 1, out, cons, L, h => by
    unfold readLoop Line.read
    cases hu : L.unread with
    | nil =>
      -- no input: `-1` to a killed reader, sleep otherwise
      rw [if_pos (h.r_eq_w_iff.mpr hu)]
      cases killed <;> exact ⟨h, rfl⟩
    | cons c rest =>
      rw [if_neg fun hrw => by rw [h.r_eq_w_iff.mp hrw] at hu; cases hu]
      obtain ⟨hc, h'⟩ := h.pop hu
      dsimp only
      rw [hc]
      by_cases hD : c = C 'D'
      · rw [if_pos hD, if_pos hD]
        by_cases hlt : n + 1 < target
        · -- the `^D` is put back
          rw [if_pos hlt, if_pos hlt]
          refine ⟨?_, rfl⟩
          simpa only [UInt32.add_sub_cancel] using h
        · rw [if_neg hlt, if_neg hlt]
          exact ⟨h', rfl⟩
      · rw [if_neg hD, if_neg hD]
        by_cases hL : c = LF
        · rw [if_pos hL, if_pos hL]
          exact ⟨h', rfl⟩
        · rw [if_neg hL, if_neg hL]
          exact readLoop_refines target killed n _ _ _ h'

/-- One step of the console, on its ring and on lists. -/
theorem consoleStep_sim {s s' : ConsSys Cons} {t : ConsSys Line} {e : ConsEvent} {o : Option (Int × List UInt8)}
    (hR : Refines s.buf t.buf) (hrd : s.reader = t.reader) (hs : consoleStep s e = some (s', o)) :
    ∃ t', lineStep t e = some (t', o) ∧ Refines s'.buf t'.buf ∧ s'.reader = t'.reader :=
  @ConsSys.step_sim Cons Line consoleintr readLoop Line.intr Line.read Refines (fun _ _ _ h => consoleintr_refines h)
    (fun target killed n out _ _ h => readLoop_refines target killed n out _ _ h) s s' t e o hR hrd hs

/-- The console on its ring and on lists take the same steps, with the same
outputs, from their starts. -/
theorem Console.simulates {hist : List (ConsSys Cons × ConsEvent × Option (Int × List UInt8))} {s : ConsSys Cons}
    (hrun : Machine.Run consoleStep Console.init hist s) :
    ∃ hist' t, Machine.Run lineStep Line.init hist' t ∧ hist'.map (fun x => x.2) = hist.map (fun x => x.2) ∧
      Refines s.buf t.buf ∧ s.reader = t.reader := by
  let R : ConsSys Cons → ConsSys Line → Prop := fun s t => Refines s.buf t.buf ∧ s.reader = t.reader
  have h₀ : R Console.init Line.init := ⟨⟨rfl, rfl, by decide, le_rfl, List.not_mem_nil⟩, rfl⟩
  have hstep : ∀ s t e s' o, R s t → consoleStep s e = some (s', o) → ∃ t', lineStep t e = some (t', o) ∧ R s' t' :=
    fun _ _ _ _ _ hR hs => consoleStep_sim hR.1 hR.2 hs
  obtain ⟨hist', t, hr, hmap, hR, hrd⟩ := Machine.Run.simulate R h₀ hstep hrun
  exact ⟨hist', t, hr, hmap, hR, hrd⟩

/-! ## The line discipline on lists -/

/-- What holds of a read in `consoleread`'s loop: it asked for something,
`n` counts the bytes it still wants, and it has copied no newline and no
`^D`. -/
structure Reading.Ok (rd : Reading) : Prop where
  pos : 0 < rd.target
  count : rd.n + rd.out.length = rd.target
  no_nl : LF ∉ rd.out
  no_eof : C 'D' ∉ rd.out

/-- What a read may return with the bytes `out` it copied out: as many as
it says, or `-1` to a killed reader that had copied no newline; none of
them a `^D`, and none after a newline. -/
structure Returned (ret : Int) (out : List UInt8) : Prop where
  len : ret = out.length ∨ ret = -1 ∧ LF ∉ out
  no_eof : C 'D' ∉ out
  nl_last : LF ∉ out.dropLast

/-- The committed bytes a read that returned `ret` with `out` copied out
took: `out`, or the `^D` alone when it returned 0 having copied nothing. -/
def taken (ret : Int) (out : List UInt8) : List UInt8 := if ret = 0 ∧ out = [] then [C 'D'] else out

/-- Where a stretch of the read loop that took `seg` from the committed
bytes ends: asleep with `out ++ seg` copied out, or returning what it
took. -/
def ReadEnd (target : Nat) (out seg out' : List UInt8) : ReadStatus → Prop
  | .asleep m => out' = out ++ seg ∧ Reading.Ok ⟨target, m, out'⟩
  | .done ret => Returned ret out' ∧ taken ret out' = out ++ seg
  | .killed => Returned (-1) out' ∧ taken (-1) out' = out ++ seg

theorem taken_of_ne_nil {ret : Int} {out : List UInt8} (h : out ≠ []) : taken ret out = out :=
  if_neg fun h' => h h'.2

theorem taken_neg_one (out : List UInt8) : taken (-1) out = out :=
  if_neg fun h => by cases h.1

theorem Returned.of_clean {ret : Nat} {out : List UInt8} (hret : ret = out.length) (hnl : LF ∉ out)
    (heof : C 'D' ∉ out) : Returned ret out :=
  ⟨.inl (by rw [hret]), heof, fun h => hnl (List.dropLast_subset _ h)⟩

/-- A read killed while it waits returns `-1` with what it has copied. -/
theorem Reading.Ok.killed {rd : Reading} (hok : rd.Ok) : Returned (-1) rd.out :=
  ⟨.inr ⟨rfl, hok.no_nl⟩, hok.no_eof, fun h => hok.no_nl (List.dropLast_subset _ h)⟩

/-- A byte copied out and then the rest of a stretch is the stretch that
took the byte first. -/
theorem ReadEnd.cons {target : Nat} {out seg out' : List UInt8} {c : UInt8} {st : ReadStatus}
    (h : ReadEnd target (out ++ [c]) seg out' st) : ReadEnd target out (c :: seg) out' st := by
  cases st with
  | asleep m => exact ⟨by rw [h.1, List.append_assoc, List.singleton_append], h.2⟩
  | done ret => exact ⟨h.1, by rw [h.2, List.append_assoc, List.singleton_append]⟩
  | killed => exact ⟨h.1, by rw [h.2, List.append_assoc, List.singleton_append]⟩

/-- A byte other than `a` copied after bytes with no `a` among them. -/
theorem not_mem_append_single {a c : UInt8} {out : List UInt8} (h : a ∉ out) (hc : ¬c = a) :
    a ∉ out ++ [c] := by
  rw [List.mem_append, List.mem_singleton, not_or]
  exact ⟨h, fun h' => hc h'.symm⟩

/-- `consoleread`'s loop on the committed bytes takes a prefix of the
unread ones and stops asleep, at a `^D` (taken alone or left for the next
read), at a newline, or with all it wanted; by induction on the bytes still
wanted. -/
theorem Line.read_spec (target : Nat) (killed : Bool) :
    ∀ (n : Nat) (out : List UInt8) (L : Line), Reading.Ok ⟨target, n, out⟩ →
    ∃ seg, seg <+: L.unread ∧ (L.read target killed n out).1 = { L with consumed := L.consumed + seg.length } ∧
      ReadEnd target out seg (L.read target killed n out).2.1 (L.read target killed n out).2.2
  | 0, out, L, hok => by
    have hlen : out.length = target := by simpa using hok.count
    have hne : out ≠ [] := fun h => by
      have := hok.pos
      simp [← hlen, h] at this
    refine ⟨[], List.nil_prefix, rfl, Returned.of_clean hlen.symm hok.no_nl hok.no_eof, ?_⟩
    show taken (target : Int) out = out ++ []
    rw [taken_of_ne_nil hne, List.append_nil]
  | n + 1, out, L, hok => by
    have hcount : n + 1 + out.length = target := hok.count
    unfold Line.read
    cases hu : L.unread with
    | nil =>
      -- no input: killed, or asleep
      cases killed
      · exact ⟨[], List.nil_prefix, rfl, (List.append_nil out).symm, hok⟩
      · refine ⟨[], List.nil_prefix, rfl, hok.killed, ?_⟩
        show taken (-1) out = out ++ []
        rw [taken_neg_one, List.append_nil]
    | cons c rest =>
      dsimp only
      by_cases hD : c = C 'D'
      · rw [if_pos hD]
        by_cases hlt : n + 1 < target
        · -- the `^D` stays for the next read
          rw [if_pos hlt]
          dsimp only
          have hne : out ≠ [] := fun h => by simp [h] at hcount; omega
          exact ⟨[], List.nil_prefix, rfl, Returned.of_clean (by omega) hok.no_nl hok.no_eof,
            by rw [taken_of_ne_nil hne, List.append_nil]⟩
        · -- nothing copied yet: the read takes the `^D` and returns 0
          rw [if_neg hlt]
          dsimp only
          have hnil : out = [] := List.eq_nil_of_length_eq_zero (by omega)
          subst hnil
          have hzero : target - (n + 1) = 0 := by omega
          refine ⟨[c], (List.prefix_cons_inj c).mpr List.nil_prefix, rfl,
            Returned.of_clean (by omega) List.not_mem_nil List.not_mem_nil, ?_⟩
          show taken ((target - (n + 1) : Nat) : Int) [] = [] ++ [c]
          rw [hzero, hD]
          rfl
      · rw [if_neg hD]
        by_cases hL : c = LF
        · rw [if_pos hL]
          dsimp only
          refine ⟨[c], (List.prefix_cons_inj c).mpr List.nil_prefix, rfl, ⟨?_, ?_, ?_⟩, ?_⟩
          · left
            simp only [List.length_append, List.length_singleton]
            omega
          · exact not_mem_append_single hok.no_eof hD
          · rw [List.dropLast_concat]
            exact hok.no_nl
          · rw [taken_of_ne_nil (List.append_ne_nil_of_right_ne_nil out (List.cons_ne_nil _ _)), hL]
        · rw [if_neg hL]
          have hok' : Reading.Ok ⟨target, n, out ++ [c]⟩ := by
            refine ⟨hok.pos, ?_, ?_, ?_⟩
            · show n + (out ++ [c]).length = target
              simp only [List.length_append, List.length_singleton]
              omega
            · exact not_mem_append_single hok.no_nl hL
            · exact not_mem_append_single hok.no_eof hD
          obtain ⟨seg, hpre, hL', hend⟩ := read_spec target killed n (out ++ [c]) L.take1 hok'
          refine ⟨c :: seg, (List.prefix_cons_inj c).mpr (Line.unread_take1 hu ▸ hpre), ?_, ?_⟩
          · rw [hL']
            simp only [Line.take1, List.length_cons]
            congr 1
            omega
          · exact hend.cons

/-- The editing changes no committed byte and no count of taken ones: it
can only commit more. -/
theorem Line.intr_grows (c : UInt8) (L : Line) :
    (L.intr c).consumed = L.consumed ∧ ∃ x, (L.intr c).committed = L.committed ++ x := by
  unfold Line.intr
  dsimp only
  -- in each branch the committed bytes are kept or extended
  split_ifs <;> simp

/-! ## Over every run -/

/-- The values reads returned over a run, oldest first. -/
def returns {σ : Type} (hist : List (σ × ConsEvent × Option (Int × List UInt8))) : List (Int × List UInt8) :=
  (hist.map fun x => x.2).reverse.filterMap fun x => x.2

attribute [grind] returns

theorem returns_cons {σ : Type} {s : σ} {e : ConsEvent} {o : Option (Int × List UInt8)}
    {hist : List (σ × ConsEvent × Option (Int × List UInt8))} :
    returns ((s, e, o) :: hist) = returns hist ++ o.toList := by
  cases o <;> simp [returns]

/-- Two runs with the same events and outputs returned the same values. -/
theorem returns_congr {σ τ : Type} {hist : List (σ × ConsEvent × Option (Int × List UInt8))}
    {hist' : List (τ × ConsEvent × Option (Int × List UInt8))}
    (h : hist'.map (fun x => x.2) = hist.map (fun x => x.2)) : returns hist' = returns hist := by
  rw [returns, returns, h]

/-- The line discipline over a run on lists: no read has taken more than
was committed, the read asleep and every value returned are as they may
be, and the reads took, in order, the first `consumed` committed bytes. -/
structure LineInv (hist : List (ConsSys Line × ConsEvent × Option (Int × List UInt8))) (t : ConsSys Line) :
    Prop where
  le : t.buf.consumed ≤ t.buf.committed.length
  reading : ∀ rd, t.reader = some rd → rd.Ok
  returns_ok : ∀ p ∈ returns hist, Returned p.1 p.2
  took : ((returns hist).map fun p => taken p.1 p.2).flatten ++ (t.reader.map Reading.out).getD [] =
    t.buf.committed.take t.buf.consumed

theorem lineInv_init : LineInv [] Line.init where
  le := le_rfl
  reading _ h := by cases h
  returns_ok _ h := by cases h
  took := rfl

theorem take_add_of_prefix {α : Type} {l seg : List α} {k : Nat} (h : seg <+: l.drop k) :
    l.take (k + seg.length) = l.take k ++ seg := by
  rw [List.take_add, ← List.prefix_iff_eq_take.mp h]

/-- A stretch that returns `ret` with `out'` copied out, having taken `seg`
after the bytes taken before it, keeps the invariant. -/
theorem lineInv_return {hist : List (ConsSys Line × ConsEvent × Option (Int × List UInt8))} {L : Line}
    {seg out out' : List UInt8} {ret : Int} (s : ConsSys Line) (e : ConsEvent)
    (hle : L.consumed + seg.length ≤ L.committed.length) (hret : ∀ p ∈ returns hist, Returned p.1 p.2)
    (htook : ((returns hist).map fun p => taken p.1 p.2).flatten ++ out = L.committed.take L.consumed)
    (htake : L.committed.take (L.consumed + seg.length) = L.committed.take L.consumed ++ seg)
    (hret' : Returned ret out') (htk : taken ret out' = out ++ seg) :
    LineInv ((s, e, some (ret, out')) :: hist) ⟨{ L with consumed := L.consumed + seg.length }, none⟩ := by
  refine ⟨hle, (fun _ h => by cases h), ?_, ?_⟩
  · intro p hp
    rw [returns_cons, Option.toList_some, List.mem_append, List.mem_singleton] at hp
    rcases hp with hp | rfl
    · exact hret p hp
    · exact hret'
  · show _ ++ [] = L.committed.take (L.consumed + seg.length)
    rw [returns_cons, Option.toList_some, List.map_append, List.flatten_append, List.append_nil, htake, ← htook]
    simp only [List.map_cons, List.map_nil, List.flatten_cons, List.flatten_nil, List.append_nil, htk,
      List.append_assoc]

/-- A stretch of the read loop keeps the invariant, for the read that
starts (`out = []`) as for the one that wakes: the bytes it took follow
those taken before it. -/
theorem lineInv_settle {hist : List (ConsSys Line × ConsEvent × Option (Int × List UInt8))} {L : Line}
    {rd : Reading} {killed : Bool} {t' : ConsSys Line} {o : Option (Int × List UInt8)} (s : ConsSys Line)
    (e : ConsEvent) (hle : L.consumed ≤ L.committed.length) (hret : ∀ p ∈ returns hist, Returned p.1 p.2)
    (hok : rd.Ok) (htook : ((returns hist).map fun p => taken p.1 p.2).flatten ++ rd.out = L.committed.take L.consumed)
    (hs : ConsSys.settle rd.target (L.read rd.target killed rd.n rd.out) = (t', o)) :
    LineInv ((s, e, o) :: hist) t' := by
  obtain ⟨seg, hpre, hL', hend⟩ := Line.read_spec rd.target killed rd.n rd.out L hok
  have hle' : L.consumed + seg.length ≤ L.committed.length := by
    have := hpre.length_le
    simp only [Line.unread, List.length_drop] at this
    omega
  have htake := take_add_of_prefix hpre
  generalize L.read rd.target killed rd.n rd.out = res at hL' hend hs
  obtain ⟨L', out', st⟩ := res
  dsimp only at hL' hend
  subst hL'
  cases st with
  | asleep m =>
    obtain ⟨rfl, hok'⟩ := hend
    obtain ⟨rfl, rfl⟩ := Prod.mk.inj hs
    refine ⟨hle', fun _ h => Option.some.inj h ▸ hok', ?_, ?_⟩
    · rwa [returns_cons, Option.toList_none, List.append_nil]
    · show _ ++ (rd.out ++ seg) = L.committed.take (L.consumed + seg.length)
      rw [returns_cons, Option.toList_none, List.append_nil, htake, ← htook, List.append_assoc]
  | done ret =>
    obtain ⟨rfl, rfl⟩ := Prod.mk.inj hs
    exact lineInv_return s e hle' hret htook htake hend.1 hend.2
  | killed =>
    obtain ⟨rfl, rfl⟩ := Prod.mk.inj hs
    exact lineInv_return s e hle' hret htook htake hend.1 hend.2

/-- The step lemma: every step of the console on lists keeps the line
discipline. -/
theorem LineInv.step {hist : List (ConsSys Line × ConsEvent × Option (Int × List UInt8))} {t t' : ConsSys Line}
    {e : ConsEvent} {o : Option (Int × List UInt8)} (hI : LineInv hist t) (hs : lineStep t e = some (t', o)) :
    LineInv ((t, e, o) :: hist) t' := by
  cases e with
  | intr c =>
    -- the editing only appends to the committed bytes, behind those taken
    obtain ⟨rfl, rfl⟩ := Prod.mk.inj (Option.some.inj hs)
    obtain ⟨hcons, x, hcom⟩ := Line.intr_grows c t.buf
    have hle := hI.le
    refine ⟨?_, hI.reading, ?_, ?_⟩
    · show (t.buf.intr c).consumed ≤ (t.buf.intr c).committed.length
      rw [hcons, hcom, List.length_append]
      omega
    · rw [returns_cons, Option.toList_none, List.append_nil]
      exact hI.returns_ok
    · show _ ++ (t.reader.map Reading.out).getD [] = (t.buf.intr c).committed.take (t.buf.intr c).consumed
      rw [returns_cons, Option.toList_none, List.append_nil, hI.took, hcons, hcom,
        List.take_append_of_le_length hle]
  | read n killed =>
    simp only [lineStep, ConsSys.step] at hs
    split at hs
    · rename_i hc
      have htook := hI.took
      rw [hc.1, Option.map_none, Option.getD_none] at htook
      have hok : Reading.Ok ⟨n, n, []⟩ := ⟨hc.2, Nat.add_zero n, List.not_mem_nil, List.not_mem_nil⟩
      exact lineInv_settle t _ hI.le hI.returns_ok hok htook (Option.some.inj hs)
    · cases hs
  | wake killed =>
    simp only [lineStep, ConsSys.step] at hs
    cases hr : t.reader with
    | none =>
      rw [hr] at hs
      cases hs
    | some rd =>
      rw [hr, Option.map_some] at hs
      have htook := hI.took
      rw [hr, Option.map_some, Option.getD_some] at htook
      exact lineInv_settle t _ hI.le hI.returns_ok (hI.reading rd hr) htook (Option.some.inj hs)

/-- The run lemma. -/
theorem line_run {hist : List (ConsSys Line × ConsEvent × Option (Int × List UInt8))} {t : ConsSys Line}
    (hr : Machine.Run lineStep Line.init hist t) : LineInv hist t :=
  Machine.Run.invariant LineInv lineInv_init (fun _ _ _ _ _ _ hI hs => hI.step hs) hr

theorem filter_taken {ret : Int} {out : List UInt8} (h : C 'D' ∉ out) :
    (taken ret out).filter (· ≠ C 'D') = out := by
  unfold taken
  split
  · rename_i hnil
    rw [hnil.2]
    decide
  · exact List.filter_eq_self.mpr fun a ha => decide_eq_true fun hD => h (hD ▸ ha)

/-- Without the `^D`s, what the reads took is what they returned. -/
theorem filter_flatten_taken {rs : List (Int × List UInt8)} (h : ∀ p ∈ rs, Returned p.1 p.2) :
    ((rs.map fun p => taken p.1 p.2).flatten).filter (· ≠ C 'D') = (rs.map fun p => p.2).flatten := by
  induction rs with
  | nil => rfl
  | cons p rs ih =>
    simp only [List.map_cons, List.flatten_cons, List.filter_append]
    rw [filter_taken (h p List.mem_cons_self).no_eof, ih fun q hq => h q (List.mem_cons_of_mem p hq)]

/-- A read that finds a `^D` first returns 0 and copies nothing. -/
theorem Line.read_eof {L : Line} {rest : List UInt8} (hu : L.unread = C 'D' :: rest) (killed : Bool) (n : Nat) :
    (L.read (n + 1) killed (n + 1) []).2 = ([], .done 0) := by
  unfold Line.read
  rw [hu]
  simp

/-- Reads killed with nothing copied out add no bytes: leaving them out
leaves the bytes of the reads as they were. -/
theorem flatten_filter_killed {rs : List (Int × List UInt8)} (h : ∀ p ∈ rs, p.1 = -1 → p.2 = []) :
    ((rs.filter fun p => p.1 ≠ -1).map fun p => p.2).flatten = (rs.map fun p => p.2).flatten := by
  induction rs with
  | nil => rfl
  | cons p rs ih =>
    have ih' := ih fun q hq => h q (List.mem_cons_of_mem p hq)
    by_cases hp : p.1 = -1
    · rw [List.filter_cons_of_neg (by simp [hp]), ih', List.map_cons, List.flatten_cons,
        h p List.mem_cons_self hp, List.nil_append]
    · rw [List.filter_cons_of_pos (by simp [hp]), List.map_cons, List.flatten_cons, ih', List.map_cons,
        List.flatten_cons]

/-- A read on the ring that finds a `^D` first, killed or not, returns 0
with nothing copied out. -/
theorem consoleStep_read_eof {s : ConsSys Cons} {L : Line} {rest : List UInt8} (hR : Refines s.buf L)
    (hnone : s.reader = none) (hu : L.unread = C 'D' :: rest) {n : Nat} (killed : Bool) (hn : 0 < n) :
    ∃ s', consoleStep s (.read n killed) = some (s', some (0, [])) := by
  obtain ⟨m, rfl⟩ : ∃ m, n = m + 1 := ⟨n - 1, by omega⟩
  have hloop := (readLoop_refines (m + 1) killed (m + 1) [] s.buf L hR).2
  rw [Line.read_eof hu killed m] at hloop
  refine ⟨(ConsSys.settle (m + 1) (readLoop (m + 1) killed (m + 1) [] s.buf)).1, ?_⟩
  show ConsSys.step consoleintr readLoop s (.read (m + 1) killed) = _
  rw [ConsSys.step, if_pos ⟨hnone, hn⟩]
  generalize readLoop (m + 1) killed (m + 1) [] s.buf = res at hloop
  obtain ⟨cons', out, st⟩ := res
  obtain ⟨rfl, rfl⟩ := Prod.mk.inj hloop
  rfl

/-- The console line discipline, over every run of the console on its
ring from `consoleinit`: the counters keep `r ≤ w ≤ e ≤ r + INPUT_BUF_SIZE`
as differences; every value returned is the count of the bytes copied out,
or `-1` to a killed reader, none of them a `^D` and none after a newline;
and a run on lists with the same events and outputs, whose committed bytes
are the input as edited, has the reads take, in order, the committed bytes
up to `consumed` (each what it copied out, or a `^D` alone when it returned
0), so that the bytes copied out are a prefix of the committed text without
its `^D`s, and so are those returned when no read was killed after copying
bytes; and a read that finds a `^D` first returns 0. -/
theorem console_line {hist : List (ConsSys Cons × ConsEvent × Option (Int × List UInt8))} {s : ConsSys Cons}
    (hrun : Machine.Run consoleStep Console.init hist s) :
    s.buf.w - s.buf.r ≤ s.buf.e - s.buf.r ∧ s.buf.e - s.buf.r ≤ UInt32.ofNat INPUT_BUF_SIZE ∧
      (∀ p ∈ returns hist, Returned p.1 p.2) ∧
      ∃ hist' t, Machine.Run lineStep Line.init hist' t ∧ hist'.map (fun x => x.2) = hist.map (fun x => x.2) ∧
        ((returns hist).map fun p => taken p.1 p.2).flatten ++ (t.reader.map Reading.out).getD [] =
          t.buf.committed.take t.buf.consumed ∧
        ((returns hist).map fun p => p.2).flatten <+: t.buf.committed.filter (· ≠ C 'D') ∧
        ((∀ p ∈ returns hist, p.1 = -1 → p.2 = []) →
          (((returns hist).filter fun p => p.1 ≠ -1).map fun p => p.2).flatten <+:
            t.buf.committed.filter (· ≠ C 'D')) ∧
        (t.reader = none → t.buf.unread.head? = some (C 'D') →
          ∀ n killed, 0 < n → ∃ s', consoleStep s (.read n killed) = some (s', some (0, []))) := by
  obtain ⟨hist', t, hr, hmap, hR, hrd⟩ := Console.simulates hrun
  have hI := line_run hr
  have hret : returns hist' = returns hist := returns_congr hmap
  have hok : ∀ p ∈ returns hist, Returned p.1 p.2 := hret ▸ hI.returns_ok
  have htook := hI.took
  rw [hret] at htook
  -- what the reads took is a prefix of the committed bytes
  have hcopied : ((returns hist).map fun p => p.2).flatten <+: t.buf.committed.filter (· ≠ C 'D') := by
    have hpre : ((returns hist).map fun p => taken p.1 p.2).flatten <+: t.buf.committed.take t.buf.consumed := by
      rw [← htook]
      exact List.prefix_append _ _
    rw [← filter_flatten_taken hok]
    exact (hpre.filter _).trans ((List.take_prefix _ _).filter _)
  refine ⟨?_, ?_, hok, hist', t, hr, hmap, htook, hcopied, fun hkilled => ?_, fun hnone hhead n killed hn => ?_⟩
  · -- `w - r` counts the unread bytes, `e - r` those and the line
    rw [UInt32.le_iff_toNat_le, hR.unread, hR.e_sub_r, Line.held]
    omega
  · rw [UInt32.le_iff_toNat_le, hR.e_sub_r]
    exact hR.cap
  · rw [flatten_filter_killed hkilled]
    exact hcopied
  · obtain ⟨rest, hu⟩ : ∃ rest, t.buf.unread = C 'D' :: rest := by
      cases h : t.buf.unread with
      | nil => rw [h] at hhead; cases hhead
      | cons c rest =>
        rw [h, List.head?_cons, Option.some.injEq] at hhead
        exact ⟨rest, hhead ▸ rfl⟩
    exact consoleStep_read_eof hR (hrd.trans hnone) hu killed hn

/-- `a` and a newline, read; then a `^D`, read. -/
def lineRun : List ConsEvent :=
  [.intr 97, .intr 10, .read 5 false, .intr 4, .read 3 false]

theorem console_line_eof :
    ∃ (hist : List (ConsSys Cons × ConsEvent × Option (Int × List UInt8))) (s : ConsSys Cons),
      Machine.Run consoleStep Console.init hist s ∧ hist.map (fun x => x.2.1) = lineRun.reverse ∧
      returns hist = [(2, [97, 10]), (0, [])] ∧
      (s.buf.w - s.buf.r ≤ s.buf.e - s.buf.r ∧ s.buf.e - s.buf.r ≤ UInt32.ofNat INPUT_BUF_SIZE ∧
      (∀ p ∈ returns hist, Returned p.1 p.2) ∧
      ∃ hist' t, Machine.Run lineStep Line.init hist' t ∧ hist'.map (fun x => x.2) = hist.map (fun x => x.2) ∧
        ((returns hist).map fun p => taken p.1 p.2).flatten ++ (t.reader.map Reading.out).getD [] =
          t.buf.committed.take t.buf.consumed ∧
        ((returns hist).map fun p => p.2).flatten <+: t.buf.committed.filter (· ≠ C 'D') ∧
        ((∀ p ∈ returns hist, p.1 = -1 → p.2 = []) →
          (((returns hist).filter fun p => p.1 ≠ -1).map fun p => p.2).flatten <+:
            t.buf.committed.filter (· ≠ C 'D')) ∧
        (t.reader = none → t.buf.unread.head? = some (C 'D') →
          ∀ n killed, 0 < n → ∃ s', consoleStep s (.read n killed) = some (s', some (0, [])))) := by
  obtain ⟨r, hx⟩ := Option.isSome_iff_exists.mp
    (by decide +kernel : (Machine.exec consoleStep Console.init [] lineRun).isSome)
  obtain ⟨hr, hev⟩ := Machine.run_of_exec hx
  have hret : returns r.1 = [(2, [97, 10]), (0, [])] :=
    Machine.exec_map_eq hx (fun r => returns r.1) (by decide +kernel)
  exact ⟨r.1, r.2, hr, hev, hret, console_line hr⟩

/-- A line of 128 `x`s fills the buffer and is committed with no newline;
a read of 200 bytes copies all 128 and sleeps for more; its process, killed,
wakes to no input and gets `-1`; then `y` and a newline come, and the next
read returns them. -/
def killedRun : List ConsEvent :=
  List.replicate 128 (.intr 120) ++ [.read 200 false, .wake true, .intr 121, .intr 10, .read 10 false]

/-- The 128 `x`s are lost: the bytes the reads returned, `y` and a newline,
are not a prefix of the input as edited, the `x`s then `y` and a newline. -/
theorem console_killed_read_loses :
    ∃ (hist : List (ConsSys Cons × ConsEvent × Option (Int × List UInt8))) (s : ConsSys Cons),
      Machine.Run consoleStep Console.init hist s ∧ hist.map (fun x => x.2.1) = killedRun.reverse ∧
      returns hist = [(-1, List.replicate 128 120), (2, [121, 10])] ∧
      ¬ (((returns hist).filter fun p => p.1 ≠ -1).map fun p => p.2).flatten <+:
        List.replicate 128 120 ++ [121, 10] := by
  obtain ⟨r, hx⟩ := Option.isSome_iff_exists.mp
    (by decide +kernel : (Machine.exec consoleStep Console.init [] killedRun).isSome)
  obtain ⟨hr, hev⟩ := Machine.run_of_exec hx
  have hret : returns r.1 = [(-1, List.replicate 128 120), (2, [121, 10])] :=
    Machine.exec_map_eq hx (fun r => returns r.1) (by decide +kernel)
  refine ⟨r.1, r.2, hr, hev, hret, ?_⟩
  rw [hret]
  decide

end Xv6
