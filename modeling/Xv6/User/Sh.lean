/-
# `Xv6.User.Sh` — the command parser of `user/sh.c`

The shell reads a line into `buf` and `parsecmd` turns it into a tree of
`struct cmd` nodes.  The parser is recursive descent over the characters,
through two scanners: `peek` skips whitespace and tests the next
character against a set, and `gettoken` skips whitespace and takes one
token (a symbol of `<|>&;()`, `>>` read as `+`, or a run of other
non-whitespace characters, a word, read as `a`), leaving `*ps` past the
whitespace after it.  A word stays in the line where it is: a node holds
its start `q` and end `eq`, and `nulterminate` writes a NUL at every
`eq` once the whole line is parsed.

**The model.**  A C string is the list of its bytes before the NUL; `*s`
at the end reads the NUL.  A pointer into the line is its index, so
`gettoken` returns the token's code, `q`, `eq` and the new `*ps`.  A
`panic` is `none`.

The parsing functions return `Parsed s`: the tree and where parsing
stopped, with the proof that it never stopped before `s`.  The functions
are total: a parser calls itself only past a token it took (`parseline`
after `;`, `parsepipe` after `|`, `parseblock` after `(`), and calls a
parser of lower rank at the same place.

`parseexec` builds its `execcmd` first, wraps it in each redirection as
it reads one, and keeps writing the words of the line into that same
`execcmd` through its pointer `cmd`: `Cmd.setArgv` sets the argument
vector of the `execcmd` that a chain of redirections wraps.
-/
import Mathlib.Data.List.GetD
import Mathlib.Tactic.SplitIfs

namespace Xv6

namespace Sh

/-- `MAXARGS`. -/
def MAXARGS : Nat := 10

/-- `whitespace[]`: ` `, `\t`, `\r`, `\n`, `\v`. -/
def whitespace : List UInt8 := [32, 9, 13, 10, 11]

/-- `symbols[]`: `<|>&;()`. -/
def symbols : List UInt8 := [60, 124, 62, 38, 59, 40, 41]

/-- `'<'`. -/
def LT : UInt8 := 60
/-- `'>'`. -/
def GT : UInt8 := 62
/-- `'|'`. -/
def BAR : UInt8 := 124
/-- `'&'`. -/
def AMP : UInt8 := 38
/-- `';'`. -/
def SEMI : UInt8 := 59
/-- `'('`. -/
def LPAREN : UInt8 := 40
/-- `')'`. -/
def RPAREN : UInt8 := 41
/-- `'+'`, the code `gettoken` gives `>>`. -/
def PLUS : UInt8 := 43
/-- `'a'`, the code `gettoken` gives a word. -/
def WORD : UInt8 := 97

/-- `O_RDONLY`. -/
def O_RDONLY : Nat := 0x000
/-- `O_WRONLY`. -/
def O_WRONLY : Nat := 0x001
/-- `O_CREATE`. -/
def O_CREATE : Nat := 0x200
/-- `O_TRUNC`. -/
def O_TRUNC : Nat := 0x400

/-- `strchr(str, c) != 0`: `c` is in `str`, whose terminating NUL counts. -/
def strchr (str : List UInt8) (c : UInt8) : Bool := c == 0 || str.contains c

attribute [grind] symbols LT GT BAR AMP SEMI LPAREN RPAREN strchr

/-! ## The scanners -/

/-- `while(s < es && strchr(whitespace, *s)) s++;` -/
def skipws (line : List UInt8) (s : Nat) : Nat :=
  if s < line.length ∧ strchr whitespace (line.getD s 0) then skipws line (s + 1) else s
termination_by line.length - s

/-- The loop of `gettoken` over the characters of a word. -/
def skipword (line : List UInt8) (s : Nat) : Nat :=
  if s < line.length ∧ !strchr whitespace (line.getD s 0) ∧ !strchr symbols (line.getD s 0) then
    skipword line (s + 1)
  else s
termination_by line.length - s

/-- The `switch(*s)` of `gettoken` at the token's first character: the
token's code and where it ends. -/
def scan (line : List UInt8) (s : Nat) : UInt8 × Nat :=
  let c := line.getD s 0
  if c = 0 then (c, s)
  else if c = BAR ∨ c = LPAREN ∨ c = RPAREN ∨ c = SEMI ∨ c = AMP ∨ c = LT then (c, s + 1)
  else if c = GT then
    if line.getD (s + 1) 0 = GT then (PLUS, s + 2) else (c, s + 1)
  else (WORD, skipword line s)

/-- `gettoken(ps, es, &q, &eq)` from `*ps = s`: the token's code, `q`, `eq`
and the new `*ps`. -/
def gettoken (line : List UInt8) (s : Nat) : UInt8 × Nat × Nat × Nat :=
  let s := skipws line s
  let t := scan line s
  (t.1, s, t.2, skipws line t.2)

/-- `peek(ps, es, toks)` from `*ps = s`: whether the next character is one
of `toks`, and the new `*ps`. -/
def peek (line : List UInt8) (s : Nat) (toks : List UInt8) : Bool × Nat :=
  let s := skipws line s
  (line.getD s 0 != 0 && strchr toks (line.getD s 0), s)

attribute [grind] skipws gettoken peek

theorem le_skipws (line : List UInt8) (s : Nat) : s ≤ skipws line s := by
  unfold skipws
  split
  · exact Nat.le_of_succ_le (le_skipws line (s + 1))
  · exact Nat.le_refl s
termination_by line.length - s

theorem le_skipword (line : List UInt8) (s : Nat) : s ≤ skipword line s := by
  unfold skipword
  split
  · exact Nat.le_of_succ_le (le_skipword line (s + 1))
  · exact Nat.le_refl s
termination_by line.length - s

/-- `skipws` stops at the end of the line or at a character that is not
whitespace. -/
theorem skipws_stop (line : List UInt8) (s : Nat) :
    ¬(skipws line s < line.length ∧ strchr whitespace (line.getD (skipws line s) 0) = true) := by
  unfold skipws
  split
  · exact skipws_stop line (s + 1)
  · rename_i h
    exact h
termination_by line.length - s

theorem skipws_skipws (line : List UInt8) (s : Nat) : skipws line (skipws line s) = skipws line s := by
  rw [skipws, if_neg (skipws_stop line s)]

theorem peek_pos (line : List UInt8) (s : Nat) (toks : List UInt8) : (peek line s toks).2 = skipws line s := rfl

/-- A character that is not NUL reads inside the line. -/
theorem lt_of_getD_ne {line : List UInt8} {s : Nat} (h : line.getD s 0 ≠ 0) : s < line.length := by
  exact Nat.lt_of_not_le fun hs => h (List.getD_eq_default _ _ hs)

theorem gettoken_skipws (line : List UInt8) (s : Nat) : gettoken line (skipws line s) = gettoken line s := by
  simp only [gettoken, skipws_skipws]

/-- A character that is none of the symbols, nor NUL, nor whitespace,
starts a word. -/
theorem strchr_symbols_eq_false {c : UInt8} (hc : c ≠ 0)
    (hsym : ¬(c = BAR ∨ c = LPAREN ∨ c = RPAREN ∨ c = SEMI ∨ c = AMP ∨ c = LT)) (hgt : ¬c = GT) :
    strchr symbols c = false := by
  simp only [BAR, LPAREN, RPAREN, SEMI, AMP, LT, GT, not_or] at hsym hgt
  simp only [strchr, symbols, Bool.or_eq_false_iff, beq_eq_false_iff_ne, List.contains_eq_mem,
    decide_eq_false_iff_not, List.mem_cons, List.not_mem_nil, or_false, not_or]
  exact ⟨hc, hsym.2.2.2.2.2, hsym.1, hgt, hsym.2.2.2.2.1, hsym.2.2.2.1, hsym.2.1, hsym.2.2.1⟩

/-- A token ends no earlier than it starts, and past its start when there
is one, its start not being whitespace. -/
theorem scan_end {line : List UInt8} {s : Nat}
    (hws : ¬(s < line.length ∧ strchr whitespace (line.getD s 0) = true)) :
    s ≤ (scan line s).2 ∧ ((scan line s).1 ≠ 0 → s < (scan line s).2) := by
  unfold scan
  dsimp only
  split_ifs with hc hsym hgt hgt'
  · exact ⟨Nat.le_refl s, fun h => absurd hc h⟩
  · exact ⟨Nat.le_succ s, fun _ => Nat.lt_succ_self s⟩
  · exact ⟨by omega, fun _ => by omega⟩
  · exact ⟨Nat.le_succ s, fun _ => Nat.lt_succ_self s⟩
  · -- a word: its first character is neither whitespace nor a symbol
    refine ⟨le_skipword line s, fun _ => ?_⟩
    have hlt := lt_of_getD_ne hc
    have hw : strchr whitespace (line.getD s 0) = false := by
      cases hb : strchr whitespace (line.getD s 0)
      · rfl
      · exact absurd ⟨hlt, hb⟩ hws
    unfold skipword
    rw [if_pos ⟨hlt, by rw [hw]; rfl, by rw [strchr_symbols_eq_false hc hsym hgt]; rfl⟩]
    exact Nat.lt_of_lt_of_le (Nat.lt_succ_self s) (le_skipword line (s + 1))

/-- Where the token ends, and `*ps` after it, are not before `s`; past it
when there is a token. -/
theorem gettoken_end (line : List UInt8) (s : Nat) :
    skipws line s ≤ (gettoken line s).2.2.1 ∧ (gettoken line s).2.2.1 ≤ (gettoken line s).2.2.2 ∧
      ((gettoken line s).1 ≠ 0 → skipws line s < (gettoken line s).2.2.1) := by
  obtain ⟨hle, hlt⟩ := scan_end (skipws_stop line s)
  exact ⟨hle, le_skipws line _, hlt⟩

theorem le_gettoken (line : List UInt8) (s : Nat) : s ≤ (gettoken line s).2.2.2 :=
  have h := gettoken_end line s
  Nat.le_trans (le_skipws line s) (Nat.le_trans h.1 h.2.1)

theorem lt_gettoken {line : List UInt8} {s : Nat} (h : (gettoken line s).1 ≠ 0) :
    s < (gettoken line s).2.2.2 :=
  have h' := gettoken_end line s
  Nat.lt_of_le_of_lt (le_skipws line s) (Nat.lt_of_lt_of_le (h'.2.2 h) h'.2.1)

/-- When `peek` finds a character of `toks`, `gettoken` takes a token. -/
theorem gettoken_ne_zero_of_peek {line : List UInt8} {s : Nat} {toks : List UInt8}
    (h : (peek line s toks).1 = true) : (gettoken line (peek line s toks).2).1 ≠ 0 := by
  simp only [peek, Bool.and_eq_true, bne_iff_ne] at h
  rw [peek_pos, gettoken_skipws]
  show (scan line (skipws line s)).1 ≠ 0
  unfold scan
  dsimp only
  split_ifs <;> first | exact h.1 | exact (by decide : PLUS ≠ 0) | exact (by decide : WORD ≠ 0)

theorem lt_length_of_peek {line : List UInt8} {s : Nat} {toks : List UInt8}
    (h : (peek line s toks).1 = true) : s < line.length := by
  simp only [peek, Bool.and_eq_true, bne_iff_ne] at h
  exact Nat.lt_of_le_of_lt (le_skipws line s) (lt_of_getD_ne h.1)

theorem lt_gettoken_of_peek {line : List UInt8} {s : Nat} {toks : List UInt8}
    (h : (peek line s toks).1 = true) : s < (gettoken line (peek line s toks).2).2.2.2 :=
  Nat.lt_of_le_of_lt (le_skipws line s) (lt_gettoken (gettoken_ne_zero_of_peek h))

/-- `scan` finds nothing only at a NUL. -/
theorem scan_eq_zero {line : List UInt8} {s : Nat} (h : (scan line s).1 = 0) : line.getD s 0 = 0 := by
  unfold scan at h
  dsimp only at h
  split_ifs at h with hc hsym hgt hgt'
  · exact hc
  · exact absurd h hc
  · exact absurd (show PLUS = 0 from h) (by decide)
  · exact absurd h hc
  · exact absurd (show WORD = 0 from h) (by decide)

/-- A token is taken only inside the line. -/
theorem lt_length_of_gettoken {line : List UInt8} {s : Nat} (h : (gettoken line s).1 ≠ 0) :
    s < line.length := by
  have hc : line.getD (skipws line s) 0 ≠ 0 := by
    intro h0
    apply h
    show (scan line (skipws line s)).1 = 0
    unfold scan
    rw [if_pos h0, h0]
  exact Nat.lt_of_le_of_lt (le_skipws line s) (lt_of_getD_ne hc)

/-- The measure of the parser drops past a token taken. -/
theorem sub_lt_of_gettoken {line : List UInt8} {s₀ s r : Nat} (h : (gettoken line s).1 ≠ 0) (hs : s₀ ≤ s)
    (hr : (gettoken line s).2.2.2 ≤ r) : line.length - r < line.length - s₀ := by
  have h₁ := lt_gettoken h
  have h₂ := lt_length_of_gettoken h
  omega

theorem sub_lt_of_peek {line : List UInt8} {s₀ s : Nat} {toks : List UInt8} (h : (peek line s toks).1 = true)
    (hs : s₀ ≤ s) : line.length - (gettoken line (peek line s toks).2).2.2.2 < line.length - s₀ :=
  sub_lt_of_gettoken (gettoken_ne_zero_of_peek h) (Nat.le_trans hs (le_skipws line s)) (Nat.le_refl _)

/-! ## Commands -/

/-- `struct cmd` and its five kinds, over a representation `w` of words. -/
inductive Cmd (w : Type) where
  /-- `execcmd`: the argument vector. -/
  | exec (argv : List w)
  /-- `redircmd`: the command, the file, its open mode, and the fd it replaces. -/
  | redir (cmd : Cmd w) (file : w) (mode fd : Nat)
  /-- `pipecmd`. -/
  | pipe (left right : Cmd w)
  /-- `listcmd`: `left ; right`. -/
  | list (left right : Cmd w)
  /-- `backcmd`: `cmd &`. -/
  | back (cmd : Cmd w)
  deriving DecidableEq, Repr

namespace Cmd

variable {w : Type}

/-- Every word of a tree read another way. -/
def map {v : Type} (f : w → v) : Cmd w → Cmd v
  | exec argv => exec (argv.map f)
  | redir c file mode fd => redir (c.map f) (f file) mode fd
  | pipe l r => pipe (l.map f) (r.map f)
  | list l r => list (l.map f) (r.map f)
  | back c => back (c.map f)

/-- The words of a tree: the arguments and the files. -/
def words : Cmd w → List w
  | exec argv => argv
  | redir c file _ _ => c.words ++ [file]
  | pipe l r => l.words ++ r.words
  | list l r => l.words ++ r.words
  | back c => c.words

/-- The tree with the argument vector of the `execcmd` that its chain of
redirections wraps set to `argv`: what `cmd->argv[argc] = q` writes
through the pointer `cmd`. -/
def setArgv : Cmd w → List w → Cmd w
  | exec _, argv => exec argv
  | redir c file mode fd, argv => redir (c.setArgv argv) file mode fd
  | c, _ => c

attribute [grind] words setArgv

end Cmd

/-- What a parsing function returns: the tree, and where it left `*ps`,
never before where it started. -/
structure Parsed (s : Nat) where
  cmd : Cmd (Nat × Nat)
  pos : Nat
  le : s ≤ pos

/-- A result read as one from an earlier start. -/
def Parsed.weaken {s s' : Nat} (h : s ≤ s') (p : Parsed s') : Parsed s :=
  ⟨p.cmd, p.pos, Nat.le_trans h p.le⟩

@[simp] theorem Parsed.cmd_weaken {s s' : Nat} (h : s ≤ s') (p : Parsed s') : (p.weaken h).cmd = p.cmd := rfl

@[simp] theorem Parsed.pos_weaken {s s' : Nat} (h : s ≤ s') (p : Parsed s') : (p.weaken h).pos = p.pos := rfl

/-! ## The parser -/

/-- The `switch(tok)` of `parseredirs`: the `redircmd` of the operator. -/
def redirFor (tok : UInt8) (cmd : Cmd (Nat × Nat)) (w : Nat × Nat) : Cmd (Nat × Nat) :=
  if tok = LT then Cmd.redir cmd w O_RDONLY 0
  else if tok = GT then Cmd.redir cmd w (O_WRONLY ||| O_CREATE ||| O_TRUNC) 1
  else if tok = PLUS then Cmd.redir cmd w (O_WRONLY ||| O_CREATE) 1
  else cmd

/-- `parseredirs(cmd, ps, es)`: wrap `cmd` in every redirection that
follows. -/
def parseredirs (line : List UInt8) (cmd : Cmd (Nat × Nat)) (s : Nat) : Option (Parsed s) :=
  let p := peek line s [LT, GT]
  if hp : p.1 = true then
    let tok := gettoken line p.2
    let file := gettoken line tok.2.2.2
    if file.1 ≠ WORD then none -- panic("missing file for redirection")
    else
      (parseredirs line (redirFor tok.1 cmd (file.2.1, file.2.2.1)) file.2.2.2).map
        (Parsed.weaken (Nat.le_trans (Nat.le_of_lt (lt_gettoken_of_peek hp)) (le_gettoken line _)))
  else some ⟨cmd, p.2, le_skipws line s⟩
termination_by line.length - s
decreasing_by
  have h₁ := lt_gettoken_of_peek hp
  have h₂ := le_gettoken line (gettoken line (peek line s [LT, GT]).2).2.2.2
  have h₃ := lt_length_of_peek hp
  omega

/-- The `&` loop of `parseline`: wrap `cmd` in a `backcmd` for every `&`
that follows. -/
def parsebacks (line : List UInt8) (cmd : Cmd (Nat × Nat)) (s : Nat) : Parsed s :=
  let p := peek line s [AMP]
  if hp : p.1 = true then
    let t := gettoken line p.2
    (parsebacks line (Cmd.back cmd) t.2.2.2).weaken (Nat.le_of_lt (lt_gettoken_of_peek hp))
  else ⟨cmd, p.2, le_skipws line s⟩
termination_by line.length - s
decreasing_by
  exact sub_lt_of_peek hp (Nat.le_refl s)

/-- The loop of `parseexec` over the words of a command: `ret` is the
command built so far and `argv` the words read into its `execcmd`. -/
def execLoop (line : List UInt8) (ret : Cmd (Nat × Nat)) (argv : List (Nat × Nat)) (s : Nat) :
    Option (Parsed s) :=
  let p := peek line s [BAR, RPAREN, AMP, SEMI]
  if p.1 = true then some ⟨ret, p.2, le_skipws line s⟩
  else
    let t := gettoken line p.2
    if _ht : t.1 = 0 then some ⟨ret, t.2.2.2, Nat.le_trans (le_skipws line s) (le_gettoken line _)⟩ -- the end of the line
    else if t.1 ≠ WORD then none -- panic("syntax")
    else
      let argv := argv ++ [(t.2.1, t.2.2.1)]
      let ret := ret.setArgv argv
      if MAXARGS ≤ argv.length then none -- panic("too many args")
      else
        match parseredirs line ret t.2.2.2 with
        | none => none
        | some r =>
          (execLoop line r.cmd argv r.pos).map
            (Parsed.weaken (Nat.le_trans (Nat.le_trans (le_skipws line s) (le_gettoken line _)) r.le))
termination_by line.length - s
decreasing_by
  exact sub_lt_of_gettoken _ht (le_skipws line s) r.le

attribute [grind] redirFor parseredirs execLoop

mutual

/-- `parseline(ps, es)`: `pipe ('&')* (';' line)?`. -/
def parseline (line : List UInt8) (s : Nat) : Option (Parsed s) :=
  match parsepipe line s with
  | none => none
  | some p =>
    let b := parsebacks line p.cmd p.pos
    let q := peek line b.pos [SEMI]
    if hq : q.1 = true then
      let t := gettoken line q.2
      match parseline line t.2.2.2 with
      | none => none
      | some r =>
        some ⟨.list b.cmd r.cmd, r.pos,
          Nat.le_trans (Nat.le_trans p.le b.le) (Nat.le_trans (Nat.le_of_lt (lt_gettoken_of_peek hq)) r.le)⟩
    else some ⟨b.cmd, q.2, Nat.le_trans (Nat.le_trans p.le b.le) (le_skipws line _)⟩
termination_by (line.length - s, 3)
decreasing_by
  · exact Prod.Lex.right _ (by decide)
  · exact Prod.Lex.left _ _ (sub_lt_of_peek hq (Nat.le_trans p.le b.le))

/-- `parsepipe(ps, es)`: `exec ('|' pipe)?`. -/
def parsepipe (line : List UInt8) (s : Nat) : Option (Parsed s) :=
  match parseexec line s with
  | none => none
  | some p =>
    let q := peek line p.pos [BAR]
    if hq : q.1 = true then
      let t := gettoken line q.2
      match parsepipe line t.2.2.2 with
      | none => none
      | some r =>
        some ⟨.pipe p.cmd r.cmd, r.pos,
          Nat.le_trans p.le (Nat.le_trans (Nat.le_of_lt (lt_gettoken_of_peek hq)) r.le)⟩
    else some ⟨p.cmd, q.2, Nat.le_trans p.le (le_skipws line _)⟩
termination_by (line.length - s, 2)
decreasing_by
  · exact Prod.Lex.right _ (by decide)
  · exact Prod.Lex.left _ _ (sub_lt_of_peek hq p.le)

/-- `parseexec(ps, es)`: a block, or the words of a command with their
redirections. -/
def parseexec (line : List UInt8) (s : Nat) : Option (Parsed s) :=
  let q := peek line s [LPAREN]
  if q.1 = true then (parseblock line q.2).map (Parsed.weaken (le_skipws line s))
  else
    match parseredirs line (.exec []) q.2 with
    | none => none
    | some r => (execLoop line r.cmd [] r.pos).map (Parsed.weaken (Nat.le_trans (le_skipws line s) r.le))
termination_by (line.length - s, 1)
decreasing_by
  rw [peek_pos]
  have h := le_skipws line s
  rcases Nat.lt_or_eq_of_le (Nat.sub_le_sub_left h line.length) with h' | h'
  · exact Prod.Lex.left _ _ h'
  · rw [h']
    exact Prod.Lex.right _ (by decide)

/-- `parseblock(ps, es)`: `'(' line ')' redir*`. -/
def parseblock (line : List UInt8) (s : Nat) : Option (Parsed s) :=
  let q := peek line s [LPAREN]
  if hq : q.1 = true then
    let t := gettoken line q.2
    match parseline line t.2.2.2 with
    | none => none
    | some p =>
      let r := peek line p.pos [RPAREN]
      if r.1 = true then
        let t' := gettoken line r.2
        (parseredirs line p.cmd t'.2.2.2).map
          (Parsed.weaken (Nat.le_trans (Nat.le_of_lt (lt_gettoken_of_peek hq))
            (Nat.le_trans p.le (Nat.le_trans (le_skipws line _) (le_gettoken line _)))))
      else none -- panic("syntax - missing )")
  else none -- panic("parseblock")
termination_by (line.length - s, 0)
decreasing_by
  exact Prod.Lex.left _ _ (sub_lt_of_peek hq (Nat.le_refl s))

end

/-- `nulterminate(cmd)`: a NUL at the end of every word, written into the
buffer the words point into. -/
def nulterminate : Cmd (Nat × Nat) → List UInt8 → List UInt8
  | .exec argv, buf => argv.foldl (fun buf w => buf.set w.2 0) buf
  | .redir c file _ _, buf => (nulterminate c buf).set file.2 0
  | .pipe l r, buf => nulterminate r (nulterminate l buf)
  | .list l r, buf => nulterminate r (nulterminate l buf)
  | .back c, buf => nulterminate c buf

/-- `parsecmd(buf)`: the tree, and the buffer once `nulterminate` has cut
the words out; `none` where the shell panics.  `es = s + strlen(s)`: the
line is what comes before the first NUL. -/
def parsecmd (buf : List UInt8) : Option (Cmd (Nat × Nat) × List UInt8) :=
  let line := buf.takeWhile (· != 0)
  match parseline line 0 with
  | none => none
  | some p =>
    -- peek(&s, es, ""); if(s != es) panic("syntax")
    if (peek line p.pos []).2 ≠ line.length then none
    else some (p.cmd, nulterminate p.cmd buf)

/-- The C string at `q`: the bytes up to the next NUL. -/
def cstr (buf : List UInt8) (q : Nat) : List UInt8 := (buf.drop q).takeWhile (· != 0)

attribute [grind] nulterminate cstr

end Sh

end Xv6
