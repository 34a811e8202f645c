/-
# `Xv6.User.Grep` — the matcher of `user/grep.c`

`grep` keeps the matcher of Kernighan and Pike: `match` anchors the
pattern at `^` or tries it at every position of the line, `matchhere`
reads the pattern left to right, and `matchstar` tries every number of
repetitions of a starred character, fewest first.  A C string is the
list of its bytes before the NUL; `re[1] == '*'` reads the byte after the
first, which is the NUL (`NUL ≠ STAR`) when there is none.

The three functions terminate: each call of `matchhere` reads a shorter
pattern, or the same pattern on a shorter text after a starred
character, which `termination_by` measures.

**The result.**  `match' re text` holds exactly when the pattern, read as
a list of items of `Xv6.Lib.Pattern` (`body`: a character or `.`,
starred when a `*` follows; a last, unstarred `$` the end of the text),
matches a prefix of the text when `re` starts with `^`, and a prefix of
some suffix of it otherwise (`match_iff`).
-/
import Xv6.Lib.Pattern
import Xv6.Fs.Dir
import Xv6.User.Ulib

namespace Xv6

namespace Grep

open Pattern

/-- `'*'`. -/
def STAR : UInt8 := 42
/-- `'.'`, which reads any character. -/
def PERIOD : UInt8 := 46
/-- `'$'`. -/
def DOLLAR : UInt8 := 36
/-- `'^'`. -/
def CARET : UInt8 := 94

mutual

/-- `matchhere(re, text)`: search for `re` at the beginning of `text`. -/
def matchhere : List UInt8 → List UInt8 → Bool
  | [], _ => true
  | c :: re, text =>
    if re.headD NUL = STAR then matchstar c (re.drop 1) text
    else if c = DOLLAR ∧ re = [] then text = []
    else match text with
      | t :: text => (c = PERIOD ∨ c = t) && matchhere re text
      | [] => false
termination_by re text => (re.length, text.length)
decreasing_by
  · -- the `*` after `c` is there, so `re.drop 1` is shorter than `c :: re`
    rename_i h
    cases re with
    | nil => exact absurd h (by decide)
    | cons d re => exact Prod.Lex.left _ _ (by simp)
  · exact Prod.Lex.left _ _ (by simp)

/-- `matchstar(c, re, text)`: search for `c*re` at the beginning of
`text`, with no `c` first, then one more each round. -/
def matchstar (c : UInt8) (re : List UInt8) : List UInt8 → Bool
  | [] => matchhere re []
  | t :: text => matchhere re (t :: text) || ((t = c ∨ c = PERIOD) && matchstar c re text)
termination_by text => (re.length + 1, text.length)
decreasing_by
  · exact Prod.Lex.left _ _ (by omega)
  · exact Prod.Lex.left _ _ (by omega)
  · exact Prod.Lex.right _ (by simp)

end

attribute [grind] matchhere matchstar

/-- The loop of `match`: `matchhere` at `text`, then at each later
position, the empty suffix included. -/
def matchLoop (re : List UInt8) : List UInt8 → Bool
  | [] => matchhere re []
  | t :: text => matchhere re (t :: text) || matchLoop re text

/-- `match(re, text)`: search for `re` anywhere in `text`. -/
def match' (re text : List UInt8) : Bool :=
  if re.headD NUL = CARET then matchhere (re.drop 1) text
  else matchLoop re text

attribute [grind] matchLoop

/-! ## The pattern the matcher reads -/

/-- A character of the pattern as an atom: `.` reads any character. -/
def atomOf (c : UInt8) : Atom UInt8 :=
  if c = PERIOD then .any else .sym c

/-- The body of a pattern as items, left to right: a character starred
by a `*` after it, a last unstarred `$` as the end of the text, and every
other character read once as itself. -/
def body : List UInt8 → List (Item UInt8)
  | [] => []
  | c :: re =>
    if re.headD NUL = STAR then .star (atomOf c) :: body (re.drop 1)
    else if c = DOLLAR ∧ re = [] then [.eol]
    else .one (atomOf c) :: body re
termination_by re => re.length

/-- What `grep` means by a match: after a leading `^` the rest of the
pattern matches a prefix of the text; otherwise the pattern matches at
some position of it. -/
def Accepts (re text : List UInt8) : Prop :=
  if re.headD NUL = CARET then AtStart (body (re.drop 1)) text
  else Somewhere (body re) text

attribute [grind] body

theorem atomOf_reads (c t : UInt8) : (atomOf c).reads t = decide (c = PERIOD ∨ c = t) := by
  unfold atomOf
  split <;> simp_all [Atom.reads]

/-! ## Correctness -/

/-- `matchstar` is right about `c*re` whenever `matchhere` is right about
`re`: by induction on the text, one repetition a round. -/
theorem matchstar_iff {c : UInt8} {re : List UInt8}
    (hre : ∀ text, matchhere re text = true ↔ AtStart (body re) text) :
    ∀ text, matchstar c re text = true ↔ AtStart (.star (atomOf c) :: body re) text
  | [] => by
    rw [matchstar, hre]
    constructor
    · rintro ⟨r, hr⟩
      exact ⟨r, .skip hr⟩
    · rintro ⟨r, hr⟩
      rcases spans_star_iff.mp hr with hr | ⟨x, t', hnil, -⟩
      · exact ⟨r, hr⟩
      · cases hnil
  | t :: text => by
    -- `matchstar` tests the character the other way round
    have hread : decide (t = c ∨ c = PERIOD) = (atomOf c).reads t := by
      rw [atomOf_reads]
      simp only [eq_comm, or_comm]
    rw [matchstar, Bool.or_eq_true, hre, Bool.and_eq_true, matchstar_iff hre text, hread]
    constructor
    · rintro (⟨r, hr⟩ | ⟨ht, r, hr⟩)
      · exact ⟨r, .skip hr⟩
      · exact ⟨r, .more ht hr⟩
    · rintro ⟨r, hr⟩
      rcases spans_star_iff.mp hr with hr | ⟨x, t', heq, hx, hr⟩
      · exact .inl ⟨r, hr⟩
      · obtain ⟨rfl, rfl⟩ := List.cons.inj heq
        exact .inr ⟨hx, r, hr⟩

/-- `matchhere` decides whether the body matches a prefix of the text; by
induction along the recursion of `matchhere`. -/
theorem matchhere_iff : ∀ re text, matchhere re text = true ↔ AtStart (body re) text
  | [], text => by
    simp [matchhere, body, AtStart, spans_nil_iff]
  | c :: re, text => by
    unfold matchhere
    rw [body]
    split
    · -- a starred character
      exact matchstar_iff (matchhere_iff (re.drop 1)) text
    split
    · -- the end anchor
      simp [AtStart, spans_eol_iff, spans_nil_iff]
    · -- one character read as itself
      cases text with
      | nil => simp [AtStart, spans_one_iff]
      | cons t text =>
        rw [Bool.and_eq_true, matchhere_iff re text]
        simp only [AtStart, spans_one_iff, atomOf_reads, List.cons.injEq]
        constructor
        · rintro ⟨ht, r, hr⟩
          exact ⟨r, t, text, ⟨rfl, rfl⟩, ht, hr⟩
        · rintro ⟨r, x, t', ⟨rfl, rfl⟩, hx, hr⟩
          exact ⟨hx, r, hr⟩
termination_by re => re.length

theorem matchLoop_iff (re : List UInt8) : ∀ text, matchLoop re text = true ↔ Somewhere (body re) text
  | [] => by rw [matchLoop, matchhere_iff, somewhere_nil]
  | t :: text => by rw [matchLoop, Bool.or_eq_true, matchhere_iff, matchLoop_iff re text, somewhere_cons]

/-- `match` returns 1 exactly when the pattern matches the text, for
every pattern and every text. -/
theorem match_iff (re text : List UInt8) : match' re text = true ↔ Accepts re text := by
  unfold match' Accepts
  split
  · exact matchhere_iff _ text
  · exact matchLoop_iff re text

/-! ## The loop of `grep`

`grep(pattern, fd)` reads into `char buf[1024]` after the `m` bytes kept
from the last round, at most `sizeof(buf)-m-1` of them so that `buf[m]`
can hold the NUL.  The inner loop writes every complete line that
matches; what is left after the last newline is moved to the front of
`buf` (by `memmove`, whose effect is `Ulib.memmove_apply`) and kept.
Here `buf[0..m)` is a list, and the `i`-th `read` returns at most
`chunk i` bytes of what the stream has left: any way of cutting the
stream is one such `chunk`. -/

/-- `'\n'`. -/
def NEWLINE : UInt8 := 10

/-- `sizeof(buf)`. -/
def BUFSIZE : Nat := 1024

/-- The inner loop from `p`: while `strchr` finds a newline, the line
before it is cut off with a NUL and matched, and written with its newline
when it matches.  The bytes written, and what is left from `p` on. -/
def lines (pattern p : List UInt8) : List UInt8 × List UInt8 :=
  match _hq : Ulib.strchr p NEWLINE with
  | none => ([], p)
  | some q =>
    let r := lines pattern (p.drop (q + 1))
    ((if match' pattern (p.take q) then p.take (q + 1) else []) ++ r.1, r.2)
termination_by p.length
decreasing_by
  have hp := congrArg List.length (Ulib.strchr_some _hq).1
  simp only [List.length_append, List.length_cons] at hp
  simp only [List.length_drop]
  omega

/-- The outer loop from the `i`-th `read`, with `buf` the bytes kept and
`rest` what the stream has left.  It stops when `read` returns `0`: at
the end of the stream, or when `buf` is full. -/
def grepLoop (pattern : List UInt8) (chunk : Nat → Nat) (i : Nat) (buf rest : List UInt8) :
    List UInt8 :=
  let n := min (BUFSIZE - buf.length - 1) (min rest.length (chunk i))
  if _hn : 0 < n then
    let r := lines pattern (buf ++ rest.take n)
    r.1 ++ grepLoop pattern chunk (i + 1) r.2 (rest.drop n)
  else []
termination_by rest.length
decreasing_by simp only [List.length_drop]; omega

/-- `grep(pattern, fd)` on the stream `stream`, read in chunks of at most
`chunk i` bytes. -/
def grep (pattern : List UInt8) (chunk : Nat → Nat) (stream : List UInt8) : List UInt8 :=
  grepLoop pattern chunk 0 [] stream

attribute [grind] lines grepLoop

/-! ## One pass over the whole stream -/

/-- The lines of a stream that end with a newline, without it; `carry` is
what came of the first one before the stream. -/
def linesOf (carry : List UInt8) : List UInt8 → List (List UInt8)
  | [] => []
  | c :: s => if c = NEWLINE then carry :: linesOf [] s else linesOf (carry ++ [c]) s

/-- What a line splitter writes in one pass: each complete line that
matches, with its newline. -/
def grepOutput (pattern stream : List UInt8) : List UInt8 :=
  ((linesOf [] stream).filter (match' pattern)).flatMap (· ++ [NEWLINE])

attribute [grind] linesOf grepOutput

theorem linesOf_append_of_not_mem {l : List UInt8} (hl : NEWLINE ∉ l) (carry s : List UInt8) :
    linesOf carry (l ++ s) = linesOf (carry ++ l) s := by
  induction l generalizing carry with
  | nil => rw [List.nil_append, List.append_nil]
  | cons c l ih =>
    rw [List.mem_cons, not_or] at hl
    rw [List.cons_append, linesOf, if_neg (Ne.symm hl.1), ih hl.2, List.append_assoc,
      List.singleton_append]

theorem linesOf_of_not_mem {s : List UInt8} (hs : NEWLINE ∉ s) (carry : List UInt8) :
    linesOf carry s = [] := by
  have h := linesOf_append_of_not_mem hs carry []
  rwa [List.append_nil, linesOf] at h

/-- A line with its newline is the first line of the stream it begins. -/
theorem linesOf_line {l : List UInt8} (hl : NEWLINE ∉ l) (s : List UInt8) :
    linesOf [] (l ++ NEWLINE :: s) = l :: linesOf [] s := by
  rw [linesOf_append_of_not_mem hl, List.nil_append, linesOf, if_pos rfl]

/-- A stream whose first `k` bytes hold no newline, and which has one
after them, has a line of at least `k` bytes. -/
theorem exists_long_line {rest : List UInt8} (hrest : NEWLINE ∈ rest) :
    ∀ {buf : List UInt8}, NEWLINE ∉ buf → ∃ l ∈ linesOf [] (buf ++ rest), buf.length ≤ l.length := by
  induction rest with
  | nil => cases hrest
  | cons c rest ih =>
    intro buf hbuf
    by_cases hc : c = NEWLINE
    · -- the line ends at `c`
      subst hc
      exact ⟨buf, by rw [linesOf_line hbuf]; exact List.mem_cons_self, le_rfl⟩
    · -- `c` joins the line
      have hrest' : NEWLINE ∈ rest := (List.mem_cons.mp hrest).resolve_left (Ne.symm hc)
      have hbuf' : NEWLINE ∉ buf ++ [c] := by simp [hbuf, Ne.symm hc]
      obtain ⟨l, hl, hlen⟩ := ih hrest' hbuf'
      rw [List.append_assoc, List.singleton_append] at hl
      exact ⟨l, hl, by simp at hlen; omega⟩

/-! ## The loop reads the stream as one pass does -/

theorem lines_of_none {pattern p : List UInt8} (h : Ulib.strchr p NEWLINE = none) :
    lines pattern p = ([], p) := by
  rw [lines]
  split <;> simp_all

theorem lines_of_some {pattern p : List UInt8} {q : Nat} (h : Ulib.strchr p NEWLINE = some q) :
    lines pattern p =
      ((if match' pattern (p.take q) then p.take (q + 1) else []) ++
        (lines pattern (p.drop (q + 1))).1, (lines pattern (p.drop (q + 1))).2) := by
  rw [lines]
  split <;> simp_all

/-- The inner loop writes the matching complete lines of `p` and leaves
its last, unfinished line: `p` is the lines `ls` and what is left. -/
theorem lines_spec (pattern : List UInt8) (p : List UInt8) (hp : NUL ∉ p) :
    NEWLINE ∉ (lines pattern p).2 ∧ (lines pattern p).2 <:+ p ∧
      ∃ ls, (∀ R, linesOf [] (p ++ R) = ls ++ linesOf [] ((lines pattern p).2 ++ R)) ∧
        (lines pattern p).1 = (ls.filter (match' pattern)).flatMap (· ++ [NEWLINE]) := by
  cases h : Ulib.strchr p NEWLINE with
  | none =>
    rw [lines_of_none h]
    exact ⟨Ulib.strchr_none hp h, List.suffix_refl p, [], fun R => rfl, rfl⟩
  | some q =>
    obtain ⟨hsplit, hline⟩ := Ulib.strchr_some h
    have hlen := congrArg List.length hsplit
    simp only [List.length_append, List.length_cons, List.length_take, List.length_drop] at hlen
    have htake : p.take (q + 1) = p.take q ++ [NEWLINE] := by
      conv_lhs => rw [hsplit]
      rw [List.take_append, List.take_of_length_le (by simp), List.length_take,
        show q + 1 - min q p.length = 1 by omega, List.take_succ_cons, List.take_zero]
    obtain ⟨hnl, hsuf, ls, hls, hout⟩ :=
      lines_spec pattern (p.drop (q + 1)) fun h0 => hp (List.mem_of_mem_drop h0)
    rw [lines_of_some h]
    refine ⟨hnl, hsuf.trans (List.drop_suffix _ _), p.take q :: ls, fun R => ?_, ?_⟩
    · conv_lhs => rw [hsplit]
      rw [List.append_assoc, List.cons_append, linesOf_line hline, hls, List.cons_append]
    · rw [hout, List.filter_cons, htake]
      split <;> simp
termination_by p.length
decreasing_by
  have hlen := congrArg List.length (Ulib.strchr_some h).1
  simp only [List.length_append, List.length_cons, List.length_take, List.length_drop] at hlen ⊢
  omega

theorem grepLoop_stop {pattern : List UInt8} {chunk : Nat → Nat} {i : Nat} {buf rest : List UInt8}
    (h : ¬0 < min (BUFSIZE - buf.length - 1) (min rest.length (chunk i))) :
    grepLoop pattern chunk i buf rest = [] := by
  rw [grepLoop, dif_neg h]

theorem grepLoop_step {pattern : List UInt8} {chunk : Nat → Nat} {i : Nat} {buf rest : List UInt8}
    {n : Nat} (hn : n = min (BUFSIZE - buf.length - 1) (min rest.length (chunk i))) (h : 0 < n) :
    grepLoop pattern chunk i buf rest =
      (lines pattern (buf ++ rest.take n)).1 ++
        grepLoop pattern chunk (i + 1) (lines pattern (buf ++ rest.take n)).2 (rest.drop n) := by
  subst hn
  rw [grepLoop, dif_pos h]

section Loop

variable (pattern : List UInt8) (chunk : Nat → Nat) (hchunk : ∀ i, 0 < chunk i)

include hchunk in
/-- The invariant of the outer loop: the kept bytes hold no newline, and
what is still to be written is what one pass writes over the kept bytes
and the rest of the stream.  By induction on what the stream has left. -/
theorem grepLoop_eq (i : Nat) (buf rest : List UInt8) (hbuf : NEWLINE ∉ buf) (hnul : NUL ∉ buf ++ rest)
    (hfit : ∀ l ∈ linesOf [] (buf ++ rest), l.length + 1 ≤ BUFSIZE - 1) :
    grepLoop pattern chunk i buf rest = grepOutput pattern (buf ++ rest) := by
  by_cases hn : 0 < min (BUFSIZE - buf.length - 1) (min rest.length (chunk i))
  · -- a round: the lines of `buf ++ rest.take n`, then the loop on what is left
    obtain ⟨n, hn_def⟩ : ∃ n, n = min (BUFSIZE - buf.length - 1) (min rest.length (chunk i)) :=
      ⟨_, rfl⟩
    rw [← hn_def] at hn
    have hsplit : buf ++ rest = (buf ++ rest.take n) ++ rest.drop n := by
      rw [List.append_assoc, List.take_append_drop]
    obtain ⟨hnl, hsuf, ls, hls, hout⟩ :=
      lines_spec pattern (buf ++ rest.take n) fun h0 => hnul (hsplit ▸ List.mem_append_left _ h0)
    have hlines := hls (rest.drop n)
    rw [← hsplit] at hlines
    have hsub : (lines pattern (buf ++ rest.take n)).2 ++ rest.drop n ⊆ buf ++ rest := by
      intro x hx
      rw [hsplit]
      rcases List.mem_append.mp hx with hx | hx
      · exact List.mem_append_left _ (hsuf.subset hx)
      · exact List.mem_append_right _ hx
    rw [grepLoop_step hn_def hn,
      grepLoop_eq (i + 1) _ (rest.drop n) hnl (fun h0 => hnul (hsub h0))
        (fun l hl => hfit l (hlines ▸ List.mem_append_right _ hl)),
      hout, grepOutput, grepOutput, hlines, List.filter_append, List.flatMap_append]
  · -- `read` returned `0`: the stream is over, or `buf` is full
    rw [grepLoop_stop hn]
    have hNL : NEWLINE ∉ buf ++ rest := by
      intro hmem
      have hrest : NEWLINE ∈ rest := (List.mem_append.mp hmem).resolve_left hbuf
      have hlen : 0 < rest.length := List.length_pos_of_mem hrest
      have hfull : BUFSIZE - 1 ≤ buf.length := by
        have := hchunk i
        omega
      obtain ⟨l, hl, hle⟩ := exists_long_line hrest hbuf
      have := hfit l hl
      omega
    rw [grepOutput, linesOf_of_not_mem hNL]
    rfl
termination_by rest.length
decreasing_by simp only [List.length_drop]; omega

end Loop

/-- However `read` cuts a stream with no NUL and no line of more than
`sizeof(buf) - 1` bytes, newline included, `grep` writes what one pass
over the whole stream writes: the complete lines that match, in order,
each with its newline. -/
theorem grep_chunks (pattern stream : List UInt8) (chunk : Nat → Nat) (hchunk : ∀ i, 0 < chunk i)
    (hnul : NUL ∉ stream) (hfit : ∀ l ∈ linesOf [] stream, l.length + 1 ≤ BUFSIZE - 1) :
    grep pattern chunk stream = grepOutput pattern stream :=
  grepLoop_eq pattern chunk hchunk 0 [] stream List.not_mem_nil hnul hfit

/-- Two lines read a byte, then two, then three at a time. -/
theorem grep_chunks_growing :
    grep [98] (fun i => i + 1) [97, 98, 10, 99, 10] = grepOutput [98] [97, 98, 10, 99, 10] :=
  grep_chunks _ _ _ (fun i => Nat.succ_pos i) (by decide) (by decide)

end Grep

end Xv6
