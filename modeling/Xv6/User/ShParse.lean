/-
# `Xv6.User.ShParse` — `parsecmd` accepts exactly the grammar

**Soundness.**  Each parsing function, where it returns, has read a
derivation of its nonterminal from where it started to where it stopped,
building the tree of that derivation (`parseredirs_sound`,
`execLoop_sound`, `parse_sound`).  **Completeness.**  Each derivation
followed by a token that may follow its nonterminal, or by the end, is
read by the parsing function, which stops right after it
(`parseredirs_complete`, `execLoop_complete`, `parse_complete`).  The
follow sets are what the loops of the parser stop at: an `exec` is
followed by `|`, `&`, `;` or `)`, a `pipe` by `&`, `;` or `)`, a `line`
by `)`.  Both directions go by induction on what is left of the line,
with the rank of the function (`line` over `pipe` over `exec`) for calls
at the same place.

**The words.**  Every word of a parsed tree is a maximal run of word
characters of the line, so `nulterminate` writes its NULs only on
characters that end words, and each word, read as a C string afterwards,
is its text (`cstr_nulterminate`).

`parsecmd_grammar` puts these together: `parsecmd` panics exactly when the
tokens of the line are not a `line` of the grammar, and otherwise returns
the tree of its derivation.
-/
import Mathlib.Data.List.TakeWhile
import Mathlib.Tactic.Set
import Xv6.User.ShGrammar

namespace Xv6

namespace Sh

/-! ## Trees -/

namespace Cmd

variable {w v : Type}

@[simp] theorem map_exec (f : w → v) (argv : List w) : (exec argv).map f = exec (argv.map f) := rfl

@[simp] theorem map_redir (f : w → v) (c : Cmd w) (file : w) (mode fd : Nat) :
    (redir c file mode fd).map f = redir (c.map f) (f file) mode fd := rfl

@[simp] theorem map_back (f : w → v) (c : Cmd w) : (back c).map f = back (c.map f) := rfl

@[simp] theorem map_pipe (f : w → v) (l r : Cmd w) : (pipe l r).map f = pipe (l.map f) (r.map f) := rfl

@[simp] theorem map_list (f : w → v) (l r : Cmd w) : (list l r).map f = list (l.map f) (r.map f) := rfl

theorem map_setArgv (f : w → v) (c : Cmd w) (argv : List w) :
    (c.setArgv argv).map f = (c.map f).setArgv (argv.map f) := by
  induction c with
  | exec _ => rfl
  | redir c file mode fd ih => simp only [setArgv, map_redir, ih]
  | pipe => rfl
  | list => rfl
  | back => rfl

theorem map_congr {f g : w → v} : ∀ {c : Cmd w}, (∀ x ∈ c.words, f x = g x) → c.map f = c.map g
  | exec argv, h => congrArg exec (List.map_congr_left h)
  | redir c file _ _, h => by
    rw [map_redir, map_redir, map_congr fun x hx => h x (List.mem_append_left _ hx),
      h file (List.mem_append_right _ (List.mem_singleton_self _))]
  | pipe l r, h => by
    rw [map_pipe, map_pipe, map_congr fun x hx => h x (List.mem_append_left _ hx),
      map_congr fun x hx => h x (List.mem_append_right _ hx)]
  | list l r, h => by
    rw [map_list, map_list, map_congr fun x hx => h x (List.mem_append_left _ hx),
      map_congr fun x hx => h x (List.mem_append_right _ hx)]
  | back c, h => congrArg back (map_congr h)

end Cmd

theorem backs_succ {w : Type} (n : Nat) (c : Cmd w) : backs (n + 1) c = backs n (.back c) := rfl

theorem map_backs {w v : Type} (f : w → v) : ∀ (n : Nat) (c : Cmd w), (backs n c).map f = backs n (c.map f)
  | 0, _ => rfl
  | n + 1, c => by rw [backs_succ, map_backs f n, Cmd.map_back, backs_succ]

theorem words_backs {w : Type} : ∀ (n : Nat) (c : Cmd w), (backs n c).words = c.words
  | 0, _ => rfl
  | n + 1, c => by rw [backs_succ, words_backs n]; rfl

theorem wrap_cons (c : Cmd (List UInt8)) (r : Redirection) (rs : List Redirection) :
    wrap c (r :: rs) = wrap (.redir c r.file r.mode r.fd) rs := rfl

theorem wrap_append (c : Cmd (List UInt8)) (rs rs' : List Redirection) :
    wrap c (rs ++ rs') = wrap (wrap c rs) rs' := List.foldl_append

theorem setArgv_wrap (c : Cmd (List UInt8)) (argv : List (List UInt8)) :
    ∀ rs, (wrap c rs).setArgv argv = wrap (c.setArgv argv) rs
  | [] => rfl
  | r :: rs => by rw [wrap_cons, setArgv_wrap _ argv rs, wrap_cons]; rfl

/-- Every word of the tree is a word of the line. -/
def WordsAt (line : List UInt8) (c : Cmd (Nat × Nat)) : Prop := ∀ w ∈ c.words, WordAt line w.1 w.2

section

variable {line : List UInt8}

theorem WordsAt.redir {c : Cmd (Nat × Nat)} {w : Nat × Nat} {mode fd : Nat} (hc : WordsAt line c)
    (hw : WordAt line w.1 w.2) : WordsAt line (.redir c w mode fd) := by
  intro x hx
  simp only [Cmd.words, List.mem_append, List.mem_singleton] at hx
  rcases hx with hx | rfl
  · exact hc x hx
  · exact hw

theorem WordsAt.pipe {l r : Cmd (Nat × Nat)} (hl : WordsAt line l) (hr : WordsAt line r) :
    WordsAt line (.pipe l r) := fun x hx => (List.mem_append.mp hx).elim (hl x) (hr x)

theorem WordsAt.list {l r : Cmd (Nat × Nat)} (hl : WordsAt line l) (hr : WordsAt line r) :
    WordsAt line (.list l r) := fun x hx => (List.mem_append.mp hx).elim (hl x) (hr x)

theorem WordsAt.backs {c : Cmd (Nat × Nat)} (n : Nat) (hc : WordsAt line c) : WordsAt line (backs n c) := by
  intro x hx
  rw [words_backs] at hx
  exact hc x hx

/-! ## Soundness -/

/-- `parseredirs` reads a `redir*` and wraps the command in it. -/
theorem parseredirs_sound {cmd : Cmd (Nat × Nat)} {s : Nat} {r : Parsed s}
    (h : parseredirs line cmd s = some r) :
    ∃ rs, Redirs (tokensFrom line s) rs (tokensFrom line r.pos) ∧
      r.cmd.map (text line) = wrap (cmd.map (text line)) rs ∧ (WordsAt line cmd → WordsAt line r.cmd) ∧
      (s ≤ line.length → r.pos ≤ line.length) := by
  unfold parseredirs at h
  dsimp only at h
  split at h
  · rename_i hp
    -- the first token is `<`, `>` or `>>`
    obtain ⟨hop, hts⟩ := peek_sym (by decide) hp
    split at h
    · cases h
    · rename_i hfile
      set tok := gettoken line (peek line s [LT, GT]).2 with htok
      set file := gettoken line tok.2.2.2 with hfile_def
      have hword : file.1 = WORD := not_not.mp hfile
      have hts₂ := tokensFrom_of_word hword
      have hwa := gettoken_wordAt hword
      obtain ⟨r', hr', rfl⟩ := Option.map_eq_some_iff.mp h
      obtain ⟨rs, hrs, hmap, hwords, hlen⟩ := parseredirs_sound hr'
      have hpos : s ≤ line.length → file.2.2.2 ≤ line.length := fun hs =>
        gettoken_le_length (gettoken_le_length (skipws_le_length hs))
      have hop' : tok.1 = LT ∨ tok.1 = GT ∨ tok.1 = PLUS := by
        split at hop <;> simp_all
      -- one redirection, of the operator's mode and fd, then the rest
      rcases hop' with hop' | hop' | hop'
      · rw [redirFor, if_pos hop'] at hmap hwords
        refine ⟨⟨text line (file.2.1, file.2.2.1), O_RDONLY, 0⟩ :: rs, ?_, hmap,
          fun hw => hwords (hw.redir hwa), fun hs => hlen (hpos hs)⟩
        rw [hts, hop', hts₂]
        exact .input _ hrs
      · rw [redirFor, if_neg (by rw [hop']; decide), if_pos hop'] at hmap hwords
        refine ⟨⟨text line (file.2.1, file.2.2.1), O_WRONLY ||| O_CREATE ||| O_TRUNC, 1⟩ :: rs, ?_, hmap,
          fun hw => hwords (hw.redir hwa), fun hs => hlen (hpos hs)⟩
        rw [hts, hop', hts₂]
        exact .output _ hrs
      · rw [redirFor, if_neg (by rw [hop']; decide), if_neg (by rw [hop']; decide), if_pos hop'] at hmap hwords
        refine ⟨⟨text line (file.2.1, file.2.2.1), O_WRONLY ||| O_CREATE, 1⟩ :: rs, ?_, hmap,
          fun hw => hwords (hw.redir hwa), fun hs => hlen (hpos hs)⟩
        rw [hts, hop', hts₂]
        exact .append _ hrs
  · obtain rfl := Option.some.inj h
    refine ⟨[], ?_, rfl, id, skipws_le_length⟩
    show Redirs (tokensFrom line s) [] (tokensFrom line (skipws line s))
    rw [tokensFrom_skipws]
    exact .nil _
termination_by line.length - s
decreasing_by
  exact Nat.lt_of_le_of_lt (Nat.sub_le_sub_left (le_gettoken line _) _)
    (sub_lt_of_peek ‹(peek line s [LT, GT]).1 = true› (Nat.le_refl s))

/-- The `&` loop takes every `&` that follows, and wraps the command once
for each. -/
theorem parsebacks_spec (cmd : Cmd (Nat × Nat)) (s : Nat) :
    ∃ n, tokensFrom line s = List.replicate n (.sym AMP) ++ tokensFrom line (parsebacks line cmd s).pos ∧
      leads [AMP] (tokensFrom line (parsebacks line cmd s).pos) = false ∧
      (parsebacks line cmd s).cmd = backs n cmd ∧
      (s ≤ line.length → (parsebacks line cmd s).pos ≤ line.length) := by
  unfold parsebacks
  dsimp only
  split
  · rename_i hp
    obtain ⟨hop, hts⟩ := peek_sym (by decide) hp
    have hamp : (gettoken line (peek line s [AMP]).2).1 = AMP := by
      split at hop
      · exact absurd (List.mem_singleton.mp hop) (by decide)
      · exact List.mem_singleton.mp hop
    obtain ⟨n, hn, hlead, hcmd, hlen⟩ := parsebacks_spec (.back cmd) (gettoken line (peek line s [AMP]).2).2.2.2
    refine ⟨n + 1, ?_, hlead, hcmd, fun hs => hlen (gettoken_le_length (skipws_le_length hs))⟩
    rw [hts, hamp, hn]
    rfl
  · rename_i hp
    refine ⟨0, ?_, ?_, rfl, skipws_le_length⟩
    · show tokensFrom line s = [] ++ tokensFrom line (skipws line s)
      rw [tokensFrom_skipws]
      rfl
    · show leads [AMP] (tokensFrom line (skipws line s)) = false
      rw [tokensFrom_skipws, ← peek_eq_false (by decide)]
      simpa using hp
termination_by line.length - s
decreasing_by
  exact sub_lt_of_peek ‹(peek line s [AMP]).1 = true› (Nat.le_refl s)

theorem words_setArgv_subset {c : Cmd (Nat × Nat)} {argv : List (Nat × Nat)} :
    ∀ x ∈ (c.setArgv argv).words, x ∈ argv ∨ x ∈ c.words := by
  induction c with
  | exec _ => exact fun x hx => .inl hx
  | redir c file mode fd ih =>
    intro x hx
    simp only [Cmd.setArgv, Cmd.words, List.mem_append, List.mem_singleton] at hx ⊢
    rcases hx with hx | rfl
    · rcases ih x hx with h | h
      · exact .inl h
      · exact .inr (.inl h)
    · exact .inr (.inr rfl)
  | pipe => exact fun x hx => .inr hx
  | list => exact fun x hx => .inr hx
  | back => exact fun x hx => .inr hx

/-- The loop of `parseexec` reads a `(word redir*)*`: each word goes into
the `execcmd`, after those before it, and each redirection wraps what was
built. -/
theorem execLoop_sound {ret : Cmd (Nat × Nat)} {argv : List (Nat × Nat)} {rs₀ : List Redirection} {s : Nat}
    {r : Parsed s} (hret : ret.map (text line) = wrap (.exec (argv.map (text line))) rs₀)
    (hw : WordsAt line ret) (hargv : ∀ w ∈ argv, WordAt line w.1 w.2) (h : execLoop line ret argv s = some r) :
    ∃ ws rs, Words (tokensFrom line s) ws rs (tokensFrom line r.pos) ∧
      r.cmd.map (text line) = wrap (.exec (argv.map (text line) ++ ws)) (rs₀ ++ rs) ∧
      (argv.length < MAXARGS → argv.length + ws.length < MAXARGS) ∧ WordsAt line r.cmd ∧
      (s ≤ line.length → r.pos ≤ line.length) := by
  unfold execLoop at h
  dsimp only at h
  split at h
  · -- `|`, `)`, `&` or `;` ends the command
    obtain rfl := Option.some.inj h
    refine ⟨[], [], ?_, by rw [hret, List.append_nil, List.append_nil], fun h => h, hw, skipws_le_length⟩
    show Words (tokensFrom line s) [] [] (tokensFrom line (skipws line s))
    rw [tokensFrom_skipws]
    exact .nil _
  split at h
  · -- the end of the line
    rename_i ht
    obtain rfl := Option.some.inj h
    refine ⟨[], [], ?_, by rw [hret, List.append_nil, List.append_nil], fun h => h, hw,
      fun hs => gettoken_le_length (skipws_le_length hs)⟩
    have ht' : (gettoken line s).1 = 0 := by rw [← gettoken_skipws]; exact ht
    show Words (tokensFrom line s) [] [] (tokensFrom line (gettoken line (skipws line s)).2.2.2)
    rw [gettoken_skipws, gettoken_pos_of_zero ht', tokensFrom_skipws]
    exact .nil _
  split at h
  · cases h
  rename_i ht hword
  split at h
  · cases h
  rename_i hmax
  split at h
  · cases h
  rename_i r₁ hr₁
  have hword' : (gettoken line (peek line s [BAR, RPAREN, AMP, SEMI]).2).1 = WORD := not_not.mp hword
  -- the word, the redirections after it, and the rest of the loop
  have hts : tokensFrom line s = .word (text line ((gettoken line (peek line s [BAR, RPAREN, AMP, SEMI]).2).2.1,
      (gettoken line (peek line s [BAR, RPAREN, AMP, SEMI]).2).2.2.1)) :: tokensFrom line (gettoken line (peek line s [BAR, RPAREN, AMP, SEMI]).2).2.2.2 := by
    rw [← tokensFrom_skipws, ← peek_pos line s [BAR, RPAREN, AMP, SEMI], tokensFrom_of_word hword']
  obtain ⟨rs₁, hrs₁, hmap₁, hw₁, hlen₁⟩ := parseredirs_sound hr₁
  obtain ⟨r₂, hr₂, rfl⟩ := Option.map_eq_some_iff.mp h
  have hargv' : ∀ w ∈ argv ++ [((gettoken line (peek line s [BAR, RPAREN, AMP, SEMI]).2).2.1,
      (gettoken line (peek line s [BAR, RPAREN, AMP, SEMI]).2).2.2.1)], WordAt line w.1 w.2 := by
    intro w hw'
    rcases List.mem_append.mp hw' with hw' | hw'
    · exact hargv w hw'
    · rw [List.mem_singleton.mp hw']
      exact gettoken_wordAt hword'
  have hret₁ : r₁.cmd.map (text line) = wrap (.exec ((argv ++ [((gettoken line (peek line s [BAR, RPAREN, AMP, SEMI]).2).2.1,
      (gettoken line (peek line s [BAR, RPAREN, AMP, SEMI]).2).2.2.1)]).map (text line))) (rs₀ ++ rs₁) := by
    rw [hmap₁, Cmd.map_setArgv, hret, setArgv_wrap, wrap_append]
    rfl
  have hwret₁ : WordsAt line r₁.cmd := hw₁ fun x hx => by
    rcases words_setArgv_subset x hx with hx | hx
    · exact hargv' x hx
    · exact hw x hx
  have hdec : line.length - r₁.pos < line.length - s :=
    sub_lt_of_gettoken ht (le_skipws line s) r₁.le
  obtain ⟨ws, rs, hws, hmap₂, hmax₂, hw₂, hlen₂⟩ := execLoop_sound hret₁ hwret₁ hargv' hr₂
  refine ⟨text line ((gettoken line (peek line s [BAR, RPAREN, AMP, SEMI]).2).2.1,
      (gettoken line (peek line s [BAR, RPAREN, AMP, SEMI]).2).2.2.1) :: ws, rs₁ ++ rs, ?_, ?_, ?_, hw₂, ?_⟩
  · rw [hts]
    exact .cons _ hrs₁ hws
  · rw [Parsed.cmd_weaken, hmap₂, List.map_append, List.append_assoc, List.append_assoc]
    rfl
  · intro _
    have := hmax₂ (Nat.lt_of_not_le hmax)
    simp only [List.length_append, List.length_cons] at this ⊢
    omega
  · exact fun hs => hlen₂ (hlen₁ (gettoken_le_length (skipws_le_length hs)))
termination_by line.length - s
decreasing_by assumption

/-- `p` is a derivation of `N` from where parsing started to where it
stopped, with words of the line, and it stopped inside the line. -/
def Reads (N : List Tok → Cmd (List UInt8) → List Tok → Prop) (line : List UInt8) {s : Nat} (p : Parsed s) :
    Prop :=
  N (tokensFrom line s) (p.cmd.map (text line)) (tokensFrom line p.pos) ∧ WordsAt line p.cmd ∧
    (s ≤ line.length → p.pos ≤ line.length)

theorem parseblock_sound {s : Nat}
    (ih : ∀ s', line.length - s' < line.length - s → ∀ p, parseline line s' = some p → Reads CmdLine line p) :
    ∀ p, parseblock line (skipws line s) = some p → Reads CmdExec line p := by
  intro p h
  unfold parseblock at h
  dsimp only at h
  split at h
  · rename_i hq
    -- `(`, a line, `)` and the redirections after it
    obtain ⟨hop, hts⟩ := peek_sym (by decide) hq
    have hlp : (gettoken line (peek line (skipws line s) [LPAREN]).2).1 = LPAREN := by
      split at hop
      · exact absurd (List.mem_singleton.mp hop) (by decide)
      · exact List.mem_singleton.mp hop
    split at h
    · cases h
    rename_i p₁ hp₁
    split at h
    · rename_i hr
      obtain ⟨hop', hts'⟩ := peek_sym (by decide) hr
      have hrp : (gettoken line (peek line p₁.pos [RPAREN]).2).1 = RPAREN := by
        split at hop'
        · exact absurd (List.mem_singleton.mp hop') (by decide)
        · exact List.mem_singleton.mp hop'
      obtain ⟨p₂, hp₂, rfl⟩ := Option.map_eq_some_iff.mp h
      obtain ⟨hL, hwL, hlenL⟩ := ih _ (sub_lt_of_peek hq (le_skipws line s)) p₁ hp₁
      obtain ⟨rs, hrs, hmap, hw, hlen⟩ := parseredirs_sound hp₂
      refine ⟨?_, hw hwL, fun hs => hlen (gettoken_le_length (skipws_le_length
        (hlenL (gettoken_le_length (skipws_le_length hs)))))⟩
      rw [hts, hlp, Parsed.cmd_weaken, hmap, Parsed.pos_weaken]
      rw [hts', hrp] at hL
      exact .block hL hrs
    · cases h
  · cases h

theorem parseexec_sound {s : Nat} (hb : ∀ p, parseblock line (skipws line s) = some p → Reads CmdExec line p) :
    ∀ p, parseexec line s = some p → Reads CmdExec line p := by
  intro p h
  unfold parseexec at h
  dsimp only at h
  split at h
  · -- a block
    obtain ⟨p₁, hp₁, rfl⟩ := Option.map_eq_some_iff.mp h
    obtain ⟨hE, hw, hlen⟩ := hb p₁ hp₁
    refine ⟨?_, hw, fun hs => hlen (skipws_le_length hs)⟩
    rw [← tokensFrom_skipws line s]
    exact hE
  · -- redirections, then words and redirections
    split at h
    · cases h
    rename_i r hr
    obtain ⟨p₂, hp₂, rfl⟩ := Option.map_eq_some_iff.mp h
    obtain ⟨rs, hrs, hmap, hw, hlen⟩ := parseredirs_sound hr
    have hw₀ : WordsAt line (Cmd.exec ([] : List (Nat × Nat))) := fun _ hx => absurd hx List.not_mem_nil
    obtain ⟨ws, rs', hws, hmap', hmax, hw', hlen'⟩ :=
      execLoop_sound hmap (hw hw₀) (fun _ hx => absurd hx List.not_mem_nil) hp₂
    refine ⟨?_, hw', fun hs => hlen' (hlen (skipws_le_length hs))⟩
    rw [Parsed.cmd_weaken, hmap', Parsed.pos_weaken]
    rw [← tokensFrom_skipws line s]
    have hmax' : ws.length < MAXARGS := by simpa using hmax (by decide)
    exact .simple hrs hws (by simpa using hmax')

theorem parsepipe_sound {s : Nat} (he : ∀ p, parseexec line s = some p → Reads CmdExec line p)
    (ih : ∀ s', line.length - s' < line.length - s → ∀ p, parsepipe line s' = some p → Reads CmdPipe line p) :
    ∀ p, parsepipe line s = some p → Reads CmdPipe line p := by
  intro p h
  unfold parsepipe at h
  split at h
  · cases h
  rename_i p₁ hp₁
  obtain ⟨hE, hw₁, hlen₁⟩ := he p₁ hp₁
  dsimp only at h
  split at h
  · -- `|` and the rest of the pipeline
    rename_i hq
    obtain ⟨hop, hts⟩ := peek_sym (by decide) hq
    have hbar : (gettoken line (peek line p₁.pos [BAR]).2).1 = BAR := by
      split at hop
      · exact absurd (List.mem_singleton.mp hop) (by decide)
      · exact List.mem_singleton.mp hop
    split at h
    · cases h
    rename_i p₂ hp₂
    obtain rfl := Option.some.inj h
    obtain ⟨hP, hw₂, hlen₂⟩ := ih _ (sub_lt_of_peek hq p₁.le) p₂ hp₂
    refine ⟨?_, hw₁.pipe hw₂, fun hs => hlen₂ (gettoken_le_length (skipws_le_length (hlen₁ hs)))⟩
    rw [hts, hbar] at hE
    exact .pipe hE hP
  · obtain rfl := Option.some.inj h
    refine ⟨?_, hw₁, fun hs => skipws_le_length (hlen₁ hs)⟩
    show CmdPipe (tokensFrom line s) (p₁.cmd.map (text line)) (tokensFrom line (skipws line p₁.pos))
    rw [tokensFrom_skipws]
    exact .exec hE

theorem parseline_sound {s : Nat} (hp : ∀ p, parsepipe line s = some p → Reads CmdPipe line p)
    (ih : ∀ s', line.length - s' < line.length - s → ∀ p, parseline line s' = some p → Reads CmdLine line p) :
    ∀ p, parseline line s = some p → Reads CmdLine line p := by
  intro p h
  unfold parseline at h
  split at h
  · cases h
  rename_i p₁ hp₁
  obtain ⟨hP, hw₁, hlen₁⟩ := hp p₁ hp₁
  -- the `&`s after the pipeline
  obtain ⟨n, hamps, -, hcmd, hlenb⟩ := @parsebacks_spec line p₁.cmd p₁.pos
  rw [hamps] at hP
  dsimp only at h
  split at h
  · -- `;` and the rest of the line
    rename_i hq
    obtain ⟨hop, hts⟩ := peek_sym (by decide) hq
    have hsemi : (gettoken line (peek line (parsebacks line p₁.cmd p₁.pos).pos [SEMI]).2).1 = SEMI := by
      split at hop
      · exact absurd (List.mem_singleton.mp hop) (by decide)
      · exact List.mem_singleton.mp hop
    split at h
    · cases h
    rename_i p₂ hp₂
    obtain rfl := Option.some.inj h
    obtain ⟨hL, hw₂, hlen₂⟩ :=
      ih _ (sub_lt_of_peek hq (Nat.le_trans p₁.le (parsebacks line p₁.cmd p₁.pos).le)) p₂ hp₂
    refine ⟨?_, (hcmd ▸ hw₁.backs n).list hw₂,
      fun hs => hlen₂ (gettoken_le_length (skipws_le_length (hlenb (hlen₁ hs))))⟩
    rw [hts, hsemi] at hP
    show CmdLine (tokensFrom line s) (.list ((parsebacks line p₁.cmd p₁.pos).cmd.map (text line))
      (p₂.cmd.map (text line))) (tokensFrom line p₂.pos)
    rw [hcmd, map_backs]
    exact .seq n hP hL
  · obtain rfl := Option.some.inj h
    refine ⟨?_, hcmd ▸ hw₁.backs n, fun hs => skipws_le_length (hlenb (hlen₁ hs))⟩
    show CmdLine (tokensFrom line s) ((parsebacks line p₁.cmd p₁.pos).cmd.map (text line))
      (tokensFrom line (skipws line (parsebacks line p₁.cmd p₁.pos).pos))
    rw [hcmd, map_backs, tokensFrom_skipws]
    exact .amps n hP

/-- Soundness of the four parsers at every place, by induction on what is
left of the line. -/
theorem parse_sound (s : Nat) :
    (∀ p, parseexec line s = some p → Reads CmdExec line p) ∧
      (∀ p, parsepipe line s = some p → Reads CmdPipe line p) ∧
      (∀ p, parseline line s = some p → Reads CmdLine line p) := by
  have ih : ∀ s', line.length - s' < line.length - s → _ := fun s' _ => parse_sound s'
  have he := parseexec_sound (parseblock_sound fun s' hs => (ih s' hs).2.2)
  have hp := parsepipe_sound he fun s' hs => (ih s' hs).2.1
  exact ⟨he, hp, parseline_sound hp fun s' hs => (ih s' hs).2.2⟩
termination_by line.length - s

/-! ## Completeness -/

/-- One redirection ahead: `parseredirs` takes it and goes on past its
file. -/
theorem parseredirs_cons (cmd : Cmd (Nat × Nat)) {op : UInt8} {w : List UInt8} {ts : List Tok} {s : Nat}
    (hts : tokensFrom line s = .sym op :: .word w :: ts) (hop : op = LT ∨ op = GT ∨ op = PLUS) :
    ∃ q eq pos, ∃ hle : s ≤ pos, text line (q, eq) = w ∧ tokensFrom line pos = ts ∧
      parseredirs line cmd s = (parseredirs line (redirFor op cmd (q, eq)) pos).map (Parsed.weaken hle) := by
  have hp : (peek line s [LT, GT]).1 = true := by
    rw [peek_eq_leads (by decide), hts]
    rcases hop with rfl | rfl | rfl <;> rfl
  have hts' : tokensFrom line (peek line s [LT, GT]).2 = .sym op :: .word w :: ts := by
    rw [peek_pos, tokensFrom_skipws, hts]
  obtain ⟨htok, htok'⟩ := tokensFrom_sym hts'
  obtain ⟨hfile, hw, hpos⟩ := tokensFrom_word htok'
  refine ⟨_, _, _, Nat.le_trans (Nat.le_of_lt (lt_gettoken_of_peek hp)) (le_gettoken line _), hw, hpos, ?_⟩
  rw [parseredirs]
  dsimp only
  rw [dif_pos hp, if_neg (not_not.mpr hfile), htok]

/-- `parseredirs` reads every `redir*` not followed by another
redirection. -/
theorem parseredirs_complete {ts rest : List Tok} {rs : List Redirection} (hd : Redirs ts rs rest) :
    leads [LT, GT] rest = false → ∀ {cmd : Cmd (Nat × Nat)} {s : Nat}, tokensFrom line s = ts →
      ∃ r, parseredirs line cmd s = some r ∧ r.cmd.map (text line) = wrap (cmd.map (text line)) rs ∧
        tokensFrom line r.pos = rest := by
  induction hd with
  | nil ts =>
    intro hrest cmd s hts
    have hp : (peek line s [LT, GT]).1 = false := by rw [peek_eq_leads (by decide), hts]; exact hrest
    refine ⟨⟨cmd, skipws line s, le_skipws line s⟩, ?_, rfl, by rw [tokensFrom_skipws, hts]⟩
    rw [parseredirs]
    dsimp only
    rw [dif_neg (by rw [hp]; decide)]
    rfl
  | input w _ ih =>
    intro hrest cmd s hts
    obtain ⟨q, eq, pos, hle, hw, hpos, heq⟩ := parseredirs_cons cmd hts (.inl rfl)
    obtain ⟨r, hr, hmap, hrest'⟩ := ih hrest hpos
    refine ⟨r.weaken hle, by rw [heq, hr]; rfl, ?_, hrest'⟩
    rw [Parsed.cmd_weaken, hmap, ← hw]
    rfl
  | output w _ ih =>
    intro hrest cmd s hts
    obtain ⟨q, eq, pos, hle, hw, hpos, heq⟩ := parseredirs_cons cmd hts (.inr (.inl rfl))
    obtain ⟨r, hr, hmap, hrest'⟩ := ih hrest hpos
    refine ⟨r.weaken hle, by rw [heq, hr]; rfl, ?_, hrest'⟩
    rw [Parsed.cmd_weaken, hmap, ← hw]
    rfl
  | append w _ ih =>
    intro hrest cmd s hts
    obtain ⟨q, eq, pos, hle, hw, hpos, heq⟩ := parseredirs_cons cmd hts (.inr (.inr rfl))
    obtain ⟨r, hr, hmap, hrest'⟩ := ih hrest hpos
    refine ⟨r.weaken hle, by rw [heq, hr]; rfl, ?_, hrest'⟩
    rw [Parsed.cmd_weaken, hmap, ← hw]
    rfl

/-- At the end of the line or at one of `|`, `)`, `&`, `;` the argument
loop stops where it stands. -/
theorem execLoop_stop (ret : Cmd (Nat × Nat)) (argv : List (Nat × Nat)) {s : Nat} {rest : List Tok}
    (hts : tokensFrom line s = rest) (hrest : Ends [BAR, AMP, SEMI, RPAREN] rest) :
    ∃ r, execLoop line ret argv s = some r ∧ r.cmd = ret ∧ tokensFrom line r.pos = rest := by
  have hts' : tokensFrom line (peek line s [BAR, RPAREN, AMP, SEMI]).2 = rest := by
    rw [peek_pos, tokensFrom_skipws, hts]
  rw [execLoop]
  dsimp only
  match rest, hrest with
  | [], _ =>
    -- the end of the line: `gettoken` finds nothing
    have hp : (peek line s [BAR, RPAREN, AMP, SEMI]).1 = false := by
      rw [peek_eq_leads (by decide), hts]
      rfl
    have h₀ : (gettoken line (peek line s [BAR, RPAREN, AMP, SEMI]).2).1 = 0 := tokensFrom_eq_nil.mp hts'
    rw [if_neg (by rw [hp]; decide), dif_pos h₀]
    refine ⟨_, rfl, rfl, ?_⟩
    dsimp only
    rw [gettoken_pos_of_zero h₀, tokensFrom_skipws, hts']
  | .sym c :: _, hc =>
    have hp : (peek line s [BAR, RPAREN, AMP, SEMI]).1 = true := by
      rw [peek_eq_leads (by decide), hts]
      simp only [Ends, List.mem_cons, List.not_mem_nil, or_false] at hc
      rcases hc with rfl | rfl | rfl | rfl <;> rfl
    rw [if_pos hp]
    exact ⟨_, rfl, rfl, hts'⟩

/-- The argument loop reads every `(word redir*)*` up to a token that
ends a command, as long as the words fit in `argv`. -/
theorem execLoop_complete {ts rest : List Tok} {ws : List (List UInt8)} {rs : List Redirection}
    (hd : Words ts ws rs rest) (hrest : Ends [BAR, AMP, SEMI, RPAREN] rest) :
    ∀ {ret : Cmd (Nat × Nat)} {argv : List (Nat × Nat)} {rs₀ : List Redirection} {s : Nat},
      tokensFrom line s = ts → ret.map (text line) = wrap (.exec (argv.map (text line))) rs₀ →
      argv.length + ws.length < MAXARGS →
      ∃ r, execLoop line ret argv s = some r ∧
        r.cmd.map (text line) = wrap (.exec (argv.map (text line) ++ ws)) (rs₀ ++ rs) ∧
        tokensFrom line r.pos = rest := by
  induction hd with
  | nil ts =>
    intro ret argv rs₀ s hts hret _
    obtain ⟨r, hr, hcmd, hpos⟩ := execLoop_stop ret argv hts hrest
    exact ⟨r, hr, by rw [hcmd, hret, List.append_nil, List.append_nil], hpos⟩
  | @cons ts ts₁ rest ws rs rs' w hrs _ ih =>
    intro ret argv rs₀ s hts hret hlen
    have hts' : tokensFrom line (peek line s [BAR, RPAREN, AMP, SEMI]).2 = .word w :: ts := by
      rw [peek_pos, tokensFrom_skipws, hts]
    have hp : (peek line s [BAR, RPAREN, AMP, SEMI]).1 = false := by
      rw [peek_eq_leads (by decide), hts]
      rfl
    obtain ⟨hword, hw, hpos⟩ := tokensFrom_word hts'
    -- the redirections after the word stop where the next word or the end begins
    have hrest₁ : leads [LT, GT] ts₁ = false :=
      Words.leads_eq_false ‹_› (Ends.leads_eq_false (by decide) hrest)
    obtain ⟨r₁, hr₁, hmap₁, hpos₁⟩ := @parseredirs_complete line _ _ _ hrs hrest₁
      (ret.setArgv (argv ++ [((gettoken line (peek line s [BAR, RPAREN, AMP, SEMI]).2).2.1,
        (gettoken line (peek line s [BAR, RPAREN, AMP, SEMI]).2).2.2.1)])) _ hpos
    have hret₁ : r₁.cmd.map (text line) = wrap (.exec ((argv ++ [((gettoken line (peek line s [BAR, RPAREN, AMP, SEMI]).2).2.1,
        (gettoken line (peek line s [BAR, RPAREN, AMP, SEMI]).2).2.2.1)]).map (text line))) (rs₀ ++ rs) := by
      rw [hmap₁, Cmd.map_setArgv, hret, setArgv_wrap, wrap_append]
      rfl
    have hlen₁ : (argv ++ [((gettoken line (peek line s [BAR, RPAREN, AMP, SEMI]).2).2.1,
        (gettoken line (peek line s [BAR, RPAREN, AMP, SEMI]).2).2.2.1)]).length + ws.length < MAXARGS := by
      rw [List.length_append, List.length_singleton]
      simp only [List.length_cons] at hlen
      omega
    obtain ⟨r₂, hr₂, hmap₂, hpos₂⟩ := ih hrest hpos₁ hret₁ hlen₁
    rw [execLoop]
    dsimp only
    rw [if_neg (by rw [hp]; decide), dif_neg (by rw [hword]; decide), if_neg (not_not.mpr hword),
      if_neg (Nat.not_le_of_lt (Nat.lt_of_le_of_lt (Nat.le_add_right _ _) hlen₁)), hr₁]
    dsimp only
    rw [hr₂]
    refine ⟨_, rfl, ?_, hpos₂⟩
    rw [Parsed.cmd_weaken, hmap₂, List.map_append, List.map_singleton, hw, List.append_assoc, List.append_assoc]
    rfl

/-- What the parser `parse` finds at `s`: every derivation of `N` from the
tokens there that is followed by the end of the line or by one of `stops`
is the one it returns. -/
def Finds (N : List Tok → Cmd (List UInt8) → List Tok → Prop) (parse : (s : Nat) → Option (Parsed s))
    (stops : List UInt8) (line : List UInt8) (s : Nat) : Prop :=
  ∀ c rest, N (tokensFrom line s) c rest → Ends stops rest →
    ∃ p, parse s = some p ∧ p.cmd.map (text line) = c ∧ tokensFrom line p.pos = rest

theorem parseblock_complete {s : Nat}
    (ih : ∀ s', line.length - s' < line.length - s → Finds CmdLine (parseline line) [RPAREN] line s')
    {ts ts₂ rest : List Tok} {c : Cmd (List UInt8)} {rs : List Redirection}
    (hts : tokensFrom line s = .sym LPAREN :: ts) (hL : CmdLine ts c (.sym RPAREN :: ts₂)) (hrs : Redirs ts₂ rs rest)
    (hrest : leads [LT, GT] rest = false) :
    ∃ p, parseblock line (skipws line s) = some p ∧ p.cmd.map (text line) = wrap c rs ∧
      tokensFrom line p.pos = rest := by
  -- `(`
  have hq : (peek line (skipws line s) [LPAREN]).1 = true := by
    rw [peek_eq_leads (by decide), tokensFrom_skipws, hts]
    rfl
  have hts₁ : tokensFrom line (peek line (skipws line s) [LPAREN]).2 = .sym LPAREN :: ts := by
    rw [peek_pos, tokensFrom_skipws, tokensFrom_skipws, hts]
  obtain ⟨-, hts₁'⟩ := tokensFrom_sym hts₁
  -- the line inside
  obtain ⟨p₁, hp₁, hmap₁, hpos₁⟩ :=
    ih _ (sub_lt_of_peek hq (le_skipws line s)) c _ (by rw [hts₁']; exact hL) (List.mem_singleton_self _)
  -- `)`
  have hr : (peek line p₁.pos [RPAREN]).1 = true := by
    rw [peek_eq_leads (by decide), hpos₁]
    rfl
  have hts₂ : tokensFrom line (peek line p₁.pos [RPAREN]).2 = .sym RPAREN :: ts₂ := by
    rw [peek_pos, tokensFrom_skipws, hpos₁]
  obtain ⟨-, hts₂'⟩ := tokensFrom_sym hts₂
  -- the redirections after it
  obtain ⟨r, hr', hmap, hpos⟩ := @parseredirs_complete line _ _ _ hrs hrest p₁.cmd _ hts₂'
  unfold parseblock
  dsimp only
  rw [dif_pos hq, hp₁]
  dsimp only
  rw [if_pos hr, hr']
  refine ⟨_, rfl, ?_, hpos⟩
  show r.cmd.map (text line) = wrap c rs
  rw [hmap, hmap₁]

theorem parseexec_complete {s : Nat}
    (ih : ∀ s', line.length - s' < line.length - s → Finds CmdLine (parseline line) [RPAREN] line s') :
    Finds CmdExec (parseexec line) [BAR, AMP, SEMI, RPAREN] line s := by
  intro c rest hE hrest
  have hrest' : leads [LT, GT] rest = false := Ends.leads_eq_false (by decide) hrest
  -- `exec` starts with `(` just when it is a block
  generalize hts : tokensFrom line s = ts at hE
  cases hE with
  | block hL hrs =>
    obtain ⟨p, hp, hmap, hpos⟩ := parseblock_complete ih hts hL hrs hrest'
    have hq : (peek line s [LPAREN]).1 = true := by
      rw [peek_eq_leads (by decide), hts]
      rfl
    have hp' : parseblock line (peek line s [LPAREN]).2 = some p := hp
    unfold parseexec
    dsimp only
    rw [if_pos hq, hp']
    exact ⟨_, rfl, hmap, hpos⟩
  | @simple _ ts₁ _ ws rs rs' hrs hws hlen =>
    have hts₁ : leads [LT, GT] ts₁ = false := Words.leads_eq_false hws hrest'
    have hq : (peek line s [LPAREN]).1 = false := by
      rw [peek_eq_leads (by decide), hts]
      exact Redirs.leads_eq_false hrs (by decide) (Words.leads_eq_false hws (Ends.leads_eq_false (by decide) hrest))
    obtain ⟨r, hr, hmap, hpos⟩ := @parseredirs_complete line _ _ _ hrs hts₁ (.exec []) (peek line s [LPAREN]).2
      (by rw [peek_pos, tokensFrom_skipws, hts])
    obtain ⟨r₂, hr₂, hmap₂, hpos₂⟩ := @execLoop_complete line _ _ _ _ hws hrest r.cmd [] rs r.pos hpos
      (by rw [hmap]; rfl) (by simpa using hlen)
    unfold parseexec
    dsimp only
    rw [if_neg (by rw [hq]; decide), hr]
    dsimp only
    rw [hr₂]
    refine ⟨_, rfl, ?_, hpos₂⟩
    rw [Parsed.cmd_weaken, hmap₂, List.map_nil, List.nil_append]

theorem parsepipe_complete {s : Nat} (he : Finds CmdExec (parseexec line) [BAR, AMP, SEMI, RPAREN] line s)
    (ih : ∀ s', line.length - s' < line.length - s → Finds CmdPipe (parsepipe line) [AMP, SEMI, RPAREN] line s') :
    Finds CmdPipe (parsepipe line) [AMP, SEMI, RPAREN] line s := by
  intro c rest hP hrest
  cases hP with
  | exec hE =>
    obtain ⟨p, hp, hmap, hpos⟩ := he _ _ hE (hrest.mono (by decide))
    have hq : (peek line p.pos [BAR]).1 = false := by
      rw [peek_eq_leads (by decide), hpos]
      exact Ends.leads_eq_false (by decide) hrest
    unfold parsepipe
    rw [hp]
    dsimp only
    rw [dif_neg (by rw [hq]; decide)]
    refine ⟨_, rfl, hmap, ?_⟩
    show tokensFrom line (skipws line p.pos) = rest
    rw [tokensFrom_skipws, hpos]
  | @pipe _ ts₂ _ _ _ hE hP =>
    -- `|` and the rest of the pipeline
    obtain ⟨p, hp, hmap, hpos⟩ := he _ _ hE (show BAR ∈ _ by decide)
    have hq : (peek line p.pos [BAR]).1 = true := by
      rw [peek_eq_leads (by decide), hpos]
      rfl
    have hts : tokensFrom line (peek line p.pos [BAR]).2 = .sym BAR :: ts₂ := by
      rw [peek_pos, tokensFrom_skipws, hpos]
    obtain ⟨-, hts₂⟩ := tokensFrom_sym hts
    obtain ⟨p₂, hp₂, hmap₂, hpos₂⟩ := ih _ (sub_lt_of_peek hq p.le) _ _ (by rw [hts₂]; exact hP) hrest
    unfold parsepipe
    rw [hp]
    dsimp only
    rw [dif_pos hq, hp₂]
    refine ⟨_, rfl, ?_, hpos₂⟩
    rw [Cmd.map_pipe, hmap, hmap₂]

theorem parseline_complete {s : Nat} (hp : Finds CmdPipe (parsepipe line) [AMP, SEMI, RPAREN] line s)
    (ih : ∀ s', line.length - s' < line.length - s → Finds CmdLine (parseline line) [RPAREN] line s') :
    Finds CmdLine (parseline line) [RPAREN] line s := by
  intro c rest hL hrest
  cases hL with
  | amps n hP =>
    obtain ⟨p, hp₁, hmap, hpos⟩ := hp _ _ hP (Ends.replicate_amp (by decide) (hrest.mono (by decide)) n)
    -- the `&` loop takes exactly the `n` of the derivation
    obtain ⟨n', hamps, hlead, hcmd, -⟩ := @parsebacks_spec line p.cmd p.pos
    rw [hpos] at hamps
    obtain ⟨rfl, hb⟩ := replicate_amp_unique hamps (Ends.leads_eq_false (by decide) hrest) hlead
    have hq : (peek line (parsebacks line p.cmd p.pos).pos [SEMI]).1 = false := by
      rw [peek_eq_leads (by decide), ← hb]
      exact Ends.leads_eq_false (by decide) hrest
    unfold parseline
    rw [hp₁]
    dsimp only
    rw [dif_neg (by rw [hq]; decide)]
    refine ⟨_, rfl, ?_, ?_⟩
    · show (parsebacks line p.cmd p.pos).cmd.map (text line) = _
      rw [hcmd, map_backs, hmap]
    · show tokensFrom line (skipws line (parsebacks line p.cmd p.pos).pos) = rest
      rw [tokensFrom_skipws, ← hb]
  | @seq _ ts₂ _ _ _ n hP hL =>
    obtain ⟨p, hp₁, hmap, hpos⟩ := hp _ _ hP (Ends.replicate_amp (by decide) (show SEMI ∈ _ by decide) n)
    obtain ⟨n', hamps, hlead, hcmd, -⟩ := @parsebacks_spec line p.cmd p.pos
    rw [hpos] at hamps
    obtain ⟨rfl, hb⟩ := replicate_amp_unique hamps rfl hlead
    -- `;` and the rest of the line
    have hq : (peek line (parsebacks line p.cmd p.pos).pos [SEMI]).1 = true := by
      rw [peek_eq_leads (by decide), ← hb]
      rfl
    have hts : tokensFrom line (peek line (parsebacks line p.cmd p.pos).pos [SEMI]).2 = .sym SEMI :: ts₂ := by
      rw [peek_pos, tokensFrom_skipws, ← hb]
    obtain ⟨-, hts₂⟩ := tokensFrom_sym hts
    obtain ⟨p₂, hp₂, hmap₂, hpos₂⟩ := ih _ (sub_lt_of_peek hq (Nat.le_trans p.le (parsebacks line p.cmd p.pos).le))
      _ _ (by rw [hts₂]; exact hL) hrest
    unfold parseline
    rw [hp₁]
    dsimp only
    rw [dif_pos hq, hp₂]
    refine ⟨_, rfl, ?_, hpos₂⟩
    rw [Cmd.map_list, hcmd, map_backs, hmap, hmap₂]

/-- Completeness of the three parsers at every place, by induction on what
is left of the line. -/
theorem parse_complete (s : Nat) :
    Finds CmdExec (parseexec line) [BAR, AMP, SEMI, RPAREN] line s ∧
      Finds CmdPipe (parsepipe line) [AMP, SEMI, RPAREN] line s ∧
      Finds CmdLine (parseline line) [RPAREN] line s := by
  have ih : ∀ s', line.length - s' < line.length - s → _ := fun s' _ => parse_complete s'
  have he := parseexec_complete fun s' hs => (ih s' hs).2.2
  have hp := parsepipe_complete he fun s' hs => (ih s' hs).2.1
  exact ⟨he, hp, parseline_complete hp fun s' hs => (ih s' hs).2.2⟩
termination_by line.length - s
decreasing_by assumption

end

/-! ## The words after `nulterminate` -/

theorem getD_set_zero (l : List UInt8) (j i : Nat) : (l.set j 0).getD i 0 = if j = i then 0 else l.getD i 0 := by
  simp only [List.getD_eq_getElem?_getD, List.getElem?_set]
  split_ifs <;> simp

theorem getD_foldl_set (i : Nat) : ∀ (argv : List (Nat × Nat)) (buf : List UInt8),
    (argv.foldl (fun buf w => buf.set w.2 0) buf).getD i 0 = if i ∈ argv.map Prod.snd then 0 else buf.getD i 0
  | [], _ => rfl
  | w :: argv, buf => by
    rw [List.foldl_cons, getD_foldl_set i argv, getD_set_zero]
    by_cases h : i ∈ argv.map Prod.snd <;> by_cases h' : i = w.2 <;> simp [h, h', Ne.symm]

/-- `nulterminate` writes a NUL at the end of every word and nowhere
else. -/
theorem getD_nulterminate (i : Nat) : ∀ (c : Cmd (Nat × Nat)) (buf : List UInt8),
    (nulterminate c buf).getD i 0 = if i ∈ c.words.map Prod.snd then 0 else buf.getD i 0
  | .exec argv, buf => getD_foldl_set i argv buf
  | .redir c file _ _, buf => by
    rw [nulterminate, getD_set_zero, getD_nulterminate i c, Cmd.words]
    by_cases h : i ∈ c.words.map Prod.snd <;> by_cases h' : i = file.2 <;> simp [h, h', Ne.symm]
  | .pipe l r, buf => by
    rw [nulterminate, getD_nulterminate i r, getD_nulterminate i l, Cmd.words]
    by_cases h : i ∈ l.words.map Prod.snd <;> by_cases h' : i ∈ r.words.map Prod.snd <;> simp [h, h']
  | .list l r, buf => by
    rw [nulterminate, getD_nulterminate i r, getD_nulterminate i l, Cmd.words]
    by_cases h : i ∈ l.words.map Prod.snd <;> by_cases h' : i ∈ r.words.map Prod.snd <;> simp [h, h']
  | .back c, buf => getD_nulterminate i c buf

theorem getElem?_of_getD_ne_zero {l : List UInt8} {i : Nat} (h : l.getD i 0 ≠ 0) : l[i]? = some (l.getD i 0) := by
  rw [List.getD_eq_getElem?_getD] at *
  cases hl : l[i]? with
  | none => rw [hl] at h; exact absurd rfl h
  | some a => rfl

/-- A C string of `l` ends at the first NUL. -/
theorem takeWhile_eq_take : ∀ (l : List UInt8) (n : Nat), (∀ k < n, l.getD k 0 ≠ 0) → l.getD n 0 = 0 →
    l.takeWhile (· != 0) = l.take n
  | [], _, _, _ => by rw [List.takeWhile_nil, List.take_nil]
  | a :: l, 0, _, h => by
    rw [List.getD_cons_zero] at h
    simp [h]
  | a :: l, n + 1, hne, h => by
    have ha : a ≠ 0 := hne 0 (Nat.succ_pos n)
    rw [List.takeWhile_cons_of_pos (by simpa using ha), List.take_succ_cons,
      takeWhile_eq_take l n (fun k hk => hne (k + 1) (Nat.succ_lt_succ hk)) h]

/-- The line `parsecmd` reads holds no NUL. -/
theorem getD_takeWhile_ne_zero (buf : List UInt8) :
    ∀ i < (buf.takeWhile (· != 0)).length, (buf.takeWhile (· != 0)).getD i 0 ≠ 0 := by
  intro i hi
  rw [List.getD_eq_getElem _ _ hi]
  simpa using List.mem_takeWhile_imp (List.getElem_mem hi)

theorem wordChar_ne_zero {c : UInt8} (h : wordChar c = true) : c ≠ 0 := by
  rintro rfl
  exact absurd h (by decide)

/-- A word of the line, kept in a buffer that ends it with a NUL, reads as
its text. -/
theorem cstr_eq_text {buf buf' : List UInt8} {q eq : Nat} (hw : WordAt (buf.takeWhile (· != 0)) q eq)
    (hkeep : ∀ i, q ≤ i → i < eq → buf'.getD i 0 = buf.getD i 0) (hnul : buf'.getD eq 0 = 0) :
    cstr buf' q = text (buf.takeWhile (· != 0)) (q, eq) := by
  -- the word's characters are no NUL: they are inside the line, a prefix of the buffer
  have hsame : ∀ i, q ≤ i → i < eq → buf'[i]? = (buf.takeWhile (· != 0))[i]? := by
    intro i hq hi
    have hne := wordChar_ne_zero (hw.chars i hq hi)
    have hline := getElem?_of_getD_ne_zero hne
    have hbuf : buf[i]? = (buf.takeWhile (· != 0))[i]? := by
      have hlt := lt_of_getD_ne hne
      rw [List.getElem?_eq_getElem hlt, (List.takeWhile_prefix _).getElem hlt, List.getElem?_eq_getElem]
    have hbuf' : buf'.getD i 0 = (buf.takeWhile (· != 0)).getD i 0 := by
      rw [hkeep i hq hi, List.getD_eq_getElem?_getD, hbuf, ← List.getD_eq_getElem?_getD]
    rw [getElem?_of_getD_ne_zero (hbuf' ▸ hne), hbuf', hline]
  have hcut : (buf'.drop q).takeWhile (· != 0) = (buf'.drop q).take (eq - q) := by
    apply takeWhile_eq_take
    · intro k hk
      rw [List.getD_eq_getElem?_getD, List.getElem?_drop, hsame (q + k) (Nat.le_add_right q k) (by omega),
        ← List.getD_eq_getElem?_getD]
      exact wordChar_ne_zero (hw.chars (q + k) (Nat.le_add_right q k) (by omega))
    · rw [List.getD_eq_getElem?_getD, List.getElem?_drop, Nat.add_sub_cancel' hw.le, ← List.getD_eq_getElem?_getD]
      exact hnul
  rw [cstr, hcut, text, slice]
  apply List.ext_getElem?
  intro k
  rw [List.getElem?_take, List.getElem?_take, List.getElem?_drop, List.getElem?_drop]
  split_ifs with hk
  · exact hsame (q + k) (Nat.le_add_right q k) (by omega)
  · rfl

/-- After `nulterminate` every word of a parsed tree reads as its text. -/
theorem cstr_nulterminate {buf : List UInt8} {c : Cmd (Nat × Nat)} (hw : WordsAt (buf.takeWhile (· != 0)) c) :
    c.map (fun w => cstr (nulterminate c buf) w.1) = c.map (text (buf.takeWhile (· != 0))) := by
  apply Cmd.map_congr
  intro w hw'
  apply cstr_eq_text (hw w hw')
  · -- a NUL is written only where a word ends, on no word character
    intro i hq hi
    rw [getD_nulterminate, if_neg]
    intro hmem
    obtain ⟨w', hw'', rfl⟩ := List.mem_map.mp hmem
    have := (hw w' hw'').stop
    rw [(hw w hw').chars w'.2 hq hi] at this
    exact absurd this (by decide)
  · rw [getD_nulterminate, if_pos (List.mem_map_of_mem hw')]

/-- `peek(&s, es, "")` stops at `es` just where no token is left. -/
theorem skipws_eq_length_iff {line : List UInt8} (hline : ∀ i < line.length, line.getD i 0 ≠ 0) {s : Nat}
    (hs : s ≤ line.length) : skipws line s = line.length ↔ tokensFrom line s = [] := by
  constructor
  · intro h
    have hend : skipws line line.length = line.length := by
      rw [skipws, if_neg fun h' => Nat.lt_irrefl _ h'.1]
    rw [← tokensFrom_skipws, h, tokensFrom_eq_nil]
    show (scan line (skipws line line.length)).1 = 0
    have h0 : line.getD line.length 0 = 0 := List.getD_eq_default _ _ (Nat.le_refl _)
    rw [hend]
    unfold scan
    rw [if_pos h0, h0]
  · intro h
    have hc : line.getD (skipws line s) 0 = 0 := scan_eq_zero (tokensFrom_eq_nil.mp h)
    exact Nat.le_antisymm (skipws_le_length hs) (Nat.le_of_not_lt fun hlt => hline _ hlt hc)

/-- A tree `parsecmd` returns is a derivation of the tokens of the line,
each word the C string `nulterminate` cut out. -/
theorem parsecmd_sound {buf : List UInt8} {c : Cmd (Nat × Nat)} {buf' : List UInt8}
    (h : parsecmd buf = some (c, buf')) : CmdLine (tokens buf) (c.map fun w => cstr buf' w.1) [] := by
  unfold parsecmd at h
  dsimp only at h
  split at h
  · cases h
  rename_i p hp
  split_ifs at h with hpos
  obtain ⟨rfl, rfl⟩ := Prod.mk.inj (Option.some.inj h)
  obtain ⟨hL, hw, hlen⟩ := (parse_sound 0).2.2 p hp
  have hend : tokensFrom (buf.takeWhile (· != 0)) p.pos = [] :=
    (skipws_eq_length_iff (getD_takeWhile_ne_zero buf) (hlen (Nat.zero_le _))).mp (not_not.mp hpos)
  rw [cstr_nulterminate hw]
  rw [hend] at hL
  exact hL

/-- A derivation of the tokens of the line is what `parsecmd` returns. -/
theorem parsecmd_complete {buf : List UInt8} {t : Cmd (List UInt8)} (h : CmdLine (tokens buf) t []) :
    ∃ c buf', parsecmd buf = some (c, buf') ∧ c.map (fun w => cstr buf' w.1) = t := by
  obtain ⟨p, hp, hmap, hend⟩ := (@parse_complete (buf.takeWhile (· != 0)) 0).2.2 t [] h trivial
  obtain ⟨-, hw, hlen⟩ := (parse_sound 0).2.2 p hp
  have hpos : skipws (buf.takeWhile (· != 0)) p.pos = (buf.takeWhile (· != 0)).length :=
    (skipws_eq_length_iff (getD_takeWhile_ne_zero buf) (hlen (Nat.zero_le _))).mpr hend
  refine ⟨p.cmd, nulterminate p.cmd buf, ?_, by rw [cstr_nulterminate hw, hmap]⟩
  have hpeek : (peek (buf.takeWhile (· != 0)) p.pos []).2 = (buf.takeWhile (· != 0)).length := hpos
  unfold parsecmd
  dsimp only
  rw [hp]
  dsimp only
  rw [if_neg (not_not.mpr hpeek)]

theorem parsecmd_grammar (buf : List UInt8) :
    (parsecmd buf = none ↔ ∀ t, ¬CmdLine (tokens buf) t []) ∧
      ∀ t, (∃ c buf', parsecmd buf = some (c, buf') ∧ c.map (fun w => cstr buf' w.1) = t) ↔
        CmdLine (tokens buf) t [] := by
  refine ⟨⟨fun h t ht => ?_, fun h => ?_⟩, fun t => ⟨?_, parsecmd_complete⟩⟩
  · obtain ⟨c, buf', hc, -⟩ := parsecmd_complete ht
    rw [h] at hc
    cases hc
  · cases hp : parsecmd buf with
    | none => rfl
    | some r =>
      obtain ⟨c, buf'⟩ := r
      exact absurd (parsecmd_sound hp) (h _)
  · rintro ⟨c, buf', hc, rfl⟩
    exact parsecmd_sound hc

end Sh

end Xv6
