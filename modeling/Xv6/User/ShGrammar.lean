/-
# `Xv6.User.ShGrammar` — the shell's tokens and grammar

What `parsecmd` is for, stated over tokens.  The tokens of a line are
those `gettoken` takes from its start until it finds the end (`tokens`):
a symbol of `<|>&;()`, `>>` (as `+`), or a word with its text.  The
grammar is that of the comments in `sh.c`,

    line  := pipe ('&')* (';' line)?
    pipe  := exec ('|' pipe)?
    exec  := '(' line ')' redir*  |  redir* (word redir*)*
    redir := ('<' | '>' | '>>') word

with fewer than `MAXARGS` words in an `exec`, each nonterminal a relation
`N ts c rest`: the tokens `ts` start with an `N` that builds the tree `c`,
and `rest` follows it.  A tree's words are their texts; an `exec` holds its
words in order, and each redirection wraps the command before it, the
first innermost (`wrap`), with the mode and fd of its operator.

Below the grammar are the facts about the scanners the parser's proofs
use: `peek` looks at the first token (`peek_eq_leads`), `gettoken` takes
it (`tokensFrom_sym`, `tokensFrom_word`), and a word `gettoken` takes is a
maximal run of word characters (`gettoken_wordAt`).
-/
import Xv6.User.Sh

namespace Xv6

namespace Sh

/-- A token as the grammar reads it. -/
inductive Tok where
  | sym (c : UInt8)
  | word (w : List UInt8)
  deriving DecidableEq, Repr

/-- The bytes of the line from `q` up to `eq`. -/
def slice (line : List UInt8) (q eq : Nat) : List UInt8 := (line.drop q).take (eq - q)

/-- The text of a word the parser holds as its start and end. -/
def text (line : List UInt8) (w : Nat × Nat) : List UInt8 := slice line w.1 w.2

/-- The token `gettoken` returned. -/
def tokOf (line : List UInt8) (t : UInt8 × Nat × Nat × Nat) : Tok :=
  if t.1 = WORD then .word (slice line t.2.1 t.2.2.1) else .sym t.1

/-- The tokens of the line from `s` on, as `gettoken` takes them. -/
def tokensFrom (line : List UInt8) (s : Nat) : List Tok :=
  if _h : (gettoken line s).1 = 0 then []
  else tokOf line (gettoken line s) :: tokensFrom line (gettoken line s).2.2.2
termination_by line.length - s
decreasing_by exact sub_lt_of_gettoken _h (Nat.le_refl s) (Nat.le_refl _)

/-- The tokens of the line in `buf`, before its NUL. -/
def tokens (buf : List UInt8) : List Tok := tokensFrom (buf.takeWhile (· != 0)) 0

attribute [grind] slice text tokOf tokensFrom

/-! ## The grammar -/

/-- A redirection: the file, its open mode and the fd it replaces. -/
structure Redirection where
  file : List UInt8
  mode : Nat
  fd : Nat
  deriving DecidableEq, Repr

/-- A command wrapped in redirections, the first innermost. -/
def wrap (c : Cmd (List UInt8)) (rs : List Redirection) : Cmd (List UInt8) :=
  rs.foldl (fun c r => .redir c r.file r.mode r.fd) c

/-- `c` wrapped in `backcmd` `n` times. -/
def backs {w : Type} : Nat → Cmd w → Cmd w
  | 0, c => c
  | n + 1, c => backs n (.back c)

/-- `redir*`. -/
inductive Redirs : List Tok → List Redirection → List Tok → Prop
  | nil (ts : List Tok) : Redirs ts [] ts
  | input {ts rest : List Tok} {rs : List Redirection} (w : List UInt8) :
      Redirs ts rs rest → Redirs (.sym LT :: .word w :: ts) (⟨w, O_RDONLY, 0⟩ :: rs) rest
  | output {ts rest : List Tok} {rs : List Redirection} (w : List UInt8) :
      Redirs ts rs rest → Redirs (.sym GT :: .word w :: ts) (⟨w, O_WRONLY ||| O_CREATE ||| O_TRUNC, 1⟩ :: rs) rest
  | append {ts rest : List Tok} {rs : List Redirection} (w : List UInt8) :
      Redirs ts rs rest → Redirs (.sym PLUS :: .word w :: ts) (⟨w, O_WRONLY ||| O_CREATE, 1⟩ :: rs) rest

/-- `(word redir*)*`: the words, and the redirections among and after
them. -/
inductive Words : List Tok → List (List UInt8) → List Redirection → List Tok → Prop
  | nil (ts : List Tok) : Words ts [] [] ts
  | cons {ts ts₁ rest : List Tok} {ws : List (List UInt8)} {rs rs' : List Redirection} (w : List UInt8) :
      Redirs ts rs ts₁ → Words ts₁ ws rs' rest → Words (.word w :: ts) (w :: ws) (rs ++ rs') rest

mutual

/-- `line := pipe ('&')* (';' line)?`. -/
inductive CmdLine : List Tok → Cmd (List UInt8) → List Tok → Prop
  | amps {ts rest : List Tok} {c : Cmd (List UInt8)} (n : Nat) :
      CmdPipe ts c (List.replicate n (.sym AMP) ++ rest) → CmdLine ts (backs n c) rest
  | seq {ts ts₂ rest : List Tok} {c c' : Cmd (List UInt8)} (n : Nat) :
      CmdPipe ts c (List.replicate n (.sym AMP) ++ .sym SEMI :: ts₂) → CmdLine ts₂ c' rest →
        CmdLine ts (.list (backs n c) c') rest

/-- `pipe := exec ('|' pipe)?`. -/
inductive CmdPipe : List Tok → Cmd (List UInt8) → List Tok → Prop
  | exec {ts rest : List Tok} {c : Cmd (List UInt8)} : CmdExec ts c rest → CmdPipe ts c rest
  | pipe {ts ts₂ rest : List Tok} {c c' : Cmd (List UInt8)} :
      CmdExec ts c (.sym BAR :: ts₂) → CmdPipe ts₂ c' rest → CmdPipe ts (.pipe c c') rest

/-- `exec := '(' line ')' redir* | redir* (word redir*)*`, with fewer than
`MAXARGS` words. -/
inductive CmdExec : List Tok → Cmd (List UInt8) → List Tok → Prop
  | block {ts ts₂ rest : List Tok} {c : Cmd (List UInt8)} {rs : List Redirection} :
      CmdLine ts c (.sym RPAREN :: ts₂) → Redirs ts₂ rs rest → CmdExec (.sym LPAREN :: ts) (wrap c rs) rest
  | simple {ts ts₁ rest : List Tok} {ws : List (List UInt8)} {rs rs' : List Redirection} :
      Redirs ts rs ts₁ → Words ts₁ ws rs' rest → ws.length < MAXARGS →
        CmdExec ts (wrap (.exec ws) (rs ++ rs')) rest

end

/-! ## What the scanners read -/

/-- The character a token starts with (`>>` starts with `>`); a word's is
no symbol. -/
def Tok.lead : Tok → Option UInt8
  | .sym c => some (if c = PLUS then GT else c)
  | .word _ => none

/-- Whether the tokens start with one whose first character is in `toks`:
what `peek(ps, es, toks)` tests. -/
def leads (toks : List UInt8) : List Tok → Bool
  | tok :: _ =>
    match tok.lead with
    | some c => toks.contains c
    | none => false
  | [] => false

attribute [grind] Tok.lead leads

theorem tokensFrom_eq (line : List UInt8) (s : Nat) :
    tokensFrom line s = if (gettoken line s).1 = 0 then []
      else tokOf line (gettoken line s) :: tokensFrom line (gettoken line s).2.2.2 := by
  rw [tokensFrom]
  split <;> simp_all

theorem tokensFrom_skipws (line : List UInt8) (s : Nat) : tokensFrom line (skipws line s) = tokensFrom line s := by
  rw [tokensFrom_eq, tokensFrom_eq line s, gettoken_skipws]

theorem tokensFrom_eq_nil {line : List UInt8} {s : Nat} : tokensFrom line s = [] ↔ (gettoken line s).1 = 0 := by
  rw [tokensFrom_eq]
  split <;> simp_all

/-- A symbol first: `gettoken` returns its code and the tokens after it. -/
theorem tokensFrom_sym {line : List UInt8} {s : Nat} {c : UInt8} {rest : List Tok}
    (h : tokensFrom line s = .sym c :: rest) :
    (gettoken line s).1 = c ∧ tokensFrom line (gettoken line s).2.2.2 = rest := by
  rw [tokensFrom_eq] at h
  split at h
  · cases h
  · obtain ⟨htok, hrest⟩ := List.cons.inj h
    refine ⟨?_, hrest⟩
    unfold tokOf at htok
    split at htok
    · cases htok
    · exact Tok.sym.inj htok

/-- A word first: `gettoken` returns `a`, and the word runs from `q` to
`eq`. -/
theorem tokensFrom_word {line : List UInt8} {s : Nat} {w : List UInt8} {rest : List Tok}
    (h : tokensFrom line s = .word w :: rest) :
    (gettoken line s).1 = WORD ∧ text line ((gettoken line s).2.1, (gettoken line s).2.2.1) = w ∧
      tokensFrom line (gettoken line s).2.2.2 = rest := by
  rw [tokensFrom_eq] at h
  split at h
  · cases h
  · obtain ⟨htok, hrest⟩ := List.cons.inj h
    unfold tokOf at htok
    split at htok
    · exact ⟨by assumption, Tok.word.inj htok, hrest⟩
    · cases htok

/-- `peek` tests the first token. -/
theorem peek_eq_leads {toks : List UInt8} (htoks : toks.all symbols.contains) (line : List UInt8) (s : Nat) :
    (peek line s toks).1 = leads toks (tokensFrom line s) := by
  rw [← tokensFrom_skipws, tokensFrom_eq, gettoken_skipws]
  have hg : gettoken line s = ((scan line (skipws line s)).1, skipws line s, (scan line (skipws line s)).2,
      skipws line (scan line (skipws line s)).2) := rfl
  rw [hg]
  simp only [peek]
  generalize hc : line.getD (skipws line s) 0 = c
  unfold scan
  simp only [hc]
  split_ifs with h0 hsym hgt hgt' hw hw
  · -- the end of the line
    rw [h0]
    rfl
  · -- a symbol of one character
    rcases hsym with rfl | rfl | rfl | rfl | rfl | rfl <;> rfl
  · exact absurd (show PLUS = 0 from hw) (by decide)
  · -- `>>`
    subst hgt
    rfl
  · subst hgt
    rfl
  · exact absurd (show WORD = 0 from hw) (by decide)
  · -- a word: its first character is in no set of symbols
    have hsy := strchr_symbols_eq_false h0 hsym hgt
    have hnot : toks.contains c = false := by
      simp only [strchr, Bool.or_eq_false_iff, List.contains_eq_mem, decide_eq_false_iff_not] at hsy
      simp only [List.contains_eq_mem, decide_eq_false_iff_not]
      exact fun hm => hsy.2 (by simpa using List.all_eq_true.mp htoks c hm)
    have hl : strchr toks c = false := by
      rw [strchr, hnot, Bool.or_false]
      exact beq_eq_false_iff_ne.mpr h0
    rw [hl, Bool.and_false]
    rfl

/-- The tokens start with a symbol whose first character is in `toks`. -/
theorem leads_eq_true {toks : List UInt8} {ts : List Tok} :
    leads toks ts = true ↔ ∃ c rest, ts = .sym c :: rest ∧ (if c = PLUS then GT else c) ∈ toks := by
  constructor
  · intro h
    match ts, h with
    | .sym c :: rest, h => exact ⟨c, rest, rfl, by simpa [leads, Tok.lead] using h⟩
  · rintro ⟨c, rest, rfl, hc⟩
    simpa [leads, Tok.lead] using hc

/-! ## Words -/

/-- A character words are made of: neither whitespace, nor a symbol, nor
NUL. -/
def wordChar (c : UInt8) : Bool := !strchr whitespace c && !strchr symbols c

attribute [grind] wordChar

/-- The line has a word from `q` up to `eq`: word characters, up to one
that is not. -/
structure WordAt (line : List UInt8) (q eq : Nat) : Prop where
  le : q ≤ eq
  chars : ∀ i, q ≤ i → i < eq → wordChar (line.getD i 0) = true
  stop : wordChar (line.getD eq 0) = false

theorem skipword_chars (line : List UInt8) (s : Nat) :
    ∀ i, s ≤ i → i < skipword line s → wordChar (line.getD i 0) = true := by
  intro i hi hlt
  unfold skipword at hlt
  split at hlt
  · rename_i hc
    rcases Nat.eq_or_lt_of_le hi with rfl | hi
    · simp only [wordChar, Bool.and_eq_true]
      exact ⟨hc.2.1, hc.2.2⟩
    · exact skipword_chars line (s + 1) i hi hlt
  · omega
termination_by line.length - s

theorem skipword_stop (line : List UInt8) (s : Nat) : wordChar (line.getD (skipword line s) 0) = false := by
  unfold skipword
  split
  · exact skipword_stop line (s + 1)
  · rename_i hc
    by_cases hs : s < line.length
    · simp only [wordChar]
      cases hw : strchr whitespace (line.getD s 0) <;> cases hy : strchr symbols (line.getD s 0)
      · exact absurd ⟨hs, by rw [hw]; rfl, by rw [hy]; rfl⟩ hc
      all_goals rfl
    · rw [List.getD_eq_default _ _ (Nat.le_of_not_lt hs)]
      rfl
termination_by line.length - s

/-- A word `gettoken` takes is a whole run of word characters. -/
theorem gettoken_wordAt {line : List UInt8} {s : Nat} (h : (gettoken line s).1 = WORD) :
    WordAt line (gettoken line s).2.1 (gettoken line s).2.2.1 := by
  have hg : gettoken line s = ((scan line (skipws line s)).1, skipws line s, (scan line (skipws line s)).2,
      skipws line (scan line (skipws line s)).2) := rfl
  rw [hg] at h ⊢
  dsimp only at h ⊢
  unfold scan at h ⊢
  dsimp only at h ⊢
  split_ifs at h ⊢ with h0 hsym hgt hgt' <;> dsimp only at h
  · rw [h0] at h
    exact absurd h (by decide)
  · rcases hsym with hc | hc | hc | hc | hc | hc <;> rw [hc] at h <;> exact absurd h (by decide)
  · exact absurd h (by decide)
  · rw [hgt] at h
    exact absurd h (by decide)
  · exact ⟨le_skipword line _, skipword_chars line _, skipword_stop line _⟩

/-! ## Positions stay in the line -/

theorem skipws_le_length {line : List UInt8} {s : Nat} (h : s ≤ line.length) : skipws line s ≤ line.length := by
  unfold skipws
  split
  · rename_i hc
    exact skipws_le_length hc.1
  · exact h
termination_by line.length - s

theorem skipword_le_length {line : List UInt8} {s : Nat} (h : s ≤ line.length) : skipword line s ≤ line.length := by
  unfold skipword
  split
  · rename_i hc
    exact skipword_le_length hc.1
  · exact h
termination_by line.length - s

theorem gettoken_le_length {line : List UInt8} {s : Nat} (h : s ≤ line.length) :
    (gettoken line s).2.2.2 ≤ line.length := by
  have hs := skipws_le_length h
  show skipws line (scan line (skipws line s)).2 ≤ line.length
  apply skipws_le_length
  unfold scan
  dsimp only
  split_ifs with h0 hsym hgt hgt'
  · exact hs
  · exact lt_of_getD_ne h0
  · -- `>>`: the second `>` is inside the line too
    have : line.getD (skipws line s + 1) 0 ≠ 0 := by rw [hgt']; decide
    exact lt_of_getD_ne this
  · exact lt_of_getD_ne h0
  · exact skipword_le_length hs

/-! ## What `gettoken` takes -/

/-- The token `gettoken` takes, with what follows it. -/
theorem tokensFrom_of_ne_zero {line : List UInt8} {s : Nat} (h : (gettoken line s).1 ≠ 0) :
    tokensFrom line s = tokOf line (gettoken line s) :: tokensFrom line (gettoken line s).2.2.2 := by
  rw [tokensFrom_eq, if_neg h]

theorem tokensFrom_of_word {line : List UInt8} {s : Nat} (h : (gettoken line s).1 = WORD) :
    tokensFrom line s =
      .word (text line ((gettoken line s).2.1, (gettoken line s).2.2.1)) :: tokensFrom line (gettoken line s).2.2.2 := by
  rw [tokensFrom_of_ne_zero (by rw [h]; decide), tokOf, if_pos h]
  rfl

theorem tokensFrom_of_sym {line : List UInt8} {s : Nat} (h₀ : (gettoken line s).1 ≠ 0)
    (h : (gettoken line s).1 ≠ WORD) :
    tokensFrom line s = .sym (gettoken line s).1 :: tokensFrom line (gettoken line s).2.2.2 := by
  rw [tokensFrom_of_ne_zero h₀, tokOf, if_neg h]

/-- `peek` found one of `toks`: the next token is a symbol that starts with
it, and `gettoken` at `peek`'s position takes it. -/
theorem peek_sym {toks : List UInt8} (htoks : toks.all symbols.contains) {line : List UInt8} {s : Nat}
    (h : (peek line s toks).1 = true) :
    (if (gettoken line (peek line s toks).2).1 = PLUS then GT else (gettoken line (peek line s toks).2).1) ∈ toks ∧
      tokensFrom line s =
        .sym (gettoken line (peek line s toks).2).1 :: tokensFrom line (gettoken line (peek line s toks).2).2.2.2 := by
  rw [peek_eq_leads htoks, leads_eq_true] at h
  obtain ⟨c, rest, hts, hc⟩ := h
  have hts' : tokensFrom line (peek line s toks).2 = .sym c :: rest := by
    rw [peek_pos, tokensFrom_skipws, hts]
  obtain ⟨hret, hrest⟩ := tokensFrom_sym hts'
  rw [hret, hts, hrest]
  exact ⟨hc, rfl⟩

theorem peek_eq_false {toks : List UInt8} (htoks : toks.all symbols.contains) {line : List UInt8} {s : Nat} :
    (peek line s toks).1 = false ↔ leads toks (tokensFrom line s) = false := by
  rw [peek_eq_leads htoks]

/-- At the end of the line `gettoken` takes nothing and leaves `*ps` where
the whitespace ends. -/
theorem gettoken_pos_of_zero {line : List UInt8} {s : Nat} (h : (gettoken line s).1 = 0) :
    (gettoken line s).2.2.2 = skipws line s := by
  have hg : gettoken line s = ((scan line (skipws line s)).1, skipws line s, (scan line (skipws line s)).2,
      skipws line (scan line (skipws line s)).2) := rfl
  rw [hg] at h ⊢
  dsimp only at h ⊢
  unfold scan at h ⊢
  dsimp only at h ⊢
  split_ifs at h ⊢ with h0 hsym hgt hgt' <;> dsimp only at h
  · exact skipws_skipws line s
  · exact absurd h h0
  · exact absurd h (by decide)
  · exact absurd (hgt ▸ h) (by decide)
  · exact absurd h (by decide)

/-! ## What follows a nonterminal -/

/-- The tokens are at the end of the line or start with a symbol of
`stops`. -/
def Ends (stops : List UInt8) : List Tok → Prop
  | [] => True
  | .sym c :: _ => c ∈ stops
  | .word _ :: _ => False

attribute [grind] Ends

theorem Ends.mono {stops stops' : List UInt8} (h : stops.all stops'.contains) :
    ∀ {ts : List Tok}, Ends stops ts → Ends stops' ts
  | [], _ => trivial
  | .sym c :: _, hc => by
    show c ∈ stops'
    simpa using List.all_eq_true.mp h c hc
  | .word _ :: _, hc => hc

/-- `&`s in front keep tokens ending where `&` may follow. -/
theorem Ends.replicate_amp {stops : List UInt8} (h : AMP ∈ stops) {rest : List Tok} (hrest : Ends stops rest) :
    ∀ n, Ends stops (List.replicate n (.sym AMP) ++ rest)
  | 0 => hrest
  | _ + 1 => h

/-- Tokens that end where `stops` may follow start with none of `toks`,
when no symbol of `stops` starts with one of them. -/
theorem Ends.leads_eq_false {stops toks : List UInt8}
    (h : stops.all fun c => !toks.contains (if c = PLUS then GT else c)) :
    ∀ {ts : List Tok}, Ends stops ts → leads toks ts = false
  | [], _ => rfl
  | .sym c :: _, hc => by simpa [leads, Tok.lead] using List.all_eq_true.mp h c hc
  | .word _ :: _, hc => hc.elim

/-- Words start with a word, or are what follows them. -/
theorem Words.leads_eq_false {ts rest : List Tok} {ws : List (List UInt8)} {rs : List Redirection}
    {toks : List UInt8} (hd : Words ts ws rs rest) (hrest : leads toks rest = false) : leads toks ts = false := by
  cases hd with
  | nil => exact hrest
  | cons => rfl

/-- Redirections start with `<`, `>` or `>>`, or are what follows them. -/
theorem Redirs.leads_eq_false {ts rest : List Tok} {rs : List Redirection} {toks : List UInt8}
    (hd : Redirs ts rs rest) (hop : LT ∉ toks ∧ GT ∉ toks) (hrest : leads toks rest = false) :
    leads toks ts = false := by
  cases hd with
  | nil => exact hrest
  | input =>
    simp only [leads, Tok.lead, if_neg (show LT ≠ PLUS by decide)]
    simpa using hop.1
  | output =>
    simp only [leads, Tok.lead, if_neg (show GT ≠ PLUS by decide)]
    simpa using hop.2
  | append =>
    simp only [leads, Tok.lead]
    simpa using hop.2

/-- The `&`s at the front of the tokens are counted by any split of them
into `&`s and what does not start with one. -/
theorem replicate_amp_unique : ∀ {n m : Nat} {rest rest' : List Tok},
    List.replicate n (Tok.sym AMP) ++ rest = List.replicate m (Tok.sym AMP) ++ rest' →
    leads [AMP] rest = false → leads [AMP] rest' = false → n = m ∧ rest = rest'
  | 0, 0, _, _, h, _, _ => ⟨rfl, h⟩
  | n + 1, 0, _, rest', h, _, h' => by
    simp only [List.replicate_succ, List.cons_append, List.replicate_zero, List.nil_append] at h
    rw [← h] at h'
    exact absurd h' (by simp only [leads]; decide)
  | 0, m + 1, rest, _, h, h', _ => by
    simp only [List.replicate_succ, List.cons_append, List.replicate_zero, List.nil_append] at h
    rw [h] at h'
    exact absurd h' (by simp only [leads]; decide)
  | n + 1, m + 1, _, _, h, h₁, h₂ => by
    simp only [List.replicate_succ, List.cons_append, List.cons.injEq, true_and] at h
    obtain ⟨rfl, hr⟩ := replicate_amp_unique h h₁ h₂
    exact ⟨rfl, hr⟩

end Sh

end Xv6
