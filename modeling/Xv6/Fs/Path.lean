/-
# `Xv6.Fs.Path` — how `namex` reads a path

A path is read by `skipelem` one element at a time.  What it is meant to
be cut into is `components`: the C string split at every `/`, the empty
pieces dropped.  `skipelem` returns the first component, cut to
`DIRSIZ` bytes, and the rest of the path with the slashes after it
skipped, or `0` when no component is left; called again and again it
reads the components in order.  The copy into the `name` buffer
(`copyElem`) leaves there the first `min(len, DIRSIZ)` bytes of the
element and a NUL after a shorter one.

`namex` is then a walk over the component names (`walk`): the lookups
start at the root for a path that begins with `/` and at `cwd`
otherwise, and `nameiparent` stops before the last name.

**Proved here.**

    skipelem_eq_none_iff   `skipelem` returns `0` exactly when no
                           component is left
    skipelem_some          it returns the first component and a rest
                           that holds the others and starts with no `/`
    skipelems_eq           the calls in a row read all the components
    copyElem_spec          what the copy leaves in `name`
    namex_eq_walk          `namex` looks up the component names in order
-/
import Xv6.Fs.Namei
import Xv6.Kernel.String

namespace Xv6

/-! ## The components of a path -/

/-- The maximal `/`-free components of the C string `path`, in order. -/
def components (path : List UInt8) : List (List UInt8) :=
  ((cstr path).splitOn SLASH).filter (· ≠ [])

attribute [grind] components

theorem slash_ne_nul : SLASH ≠ NUL := by decide

/-- What `dropWhile p` leaves starts with an element that fails `p`, or
is empty and reads as the default. -/
theorem headD_dropWhile {α : Type} {p : α → Bool} {d : α} (hd : p d = false) :
    ∀ l : List α, p ((l.dropWhile p).headD d) = false
  | [] => hd
  | a :: l => by
    by_cases ha : p a = true
    · rw [List.dropWhile_cons_of_pos ha]
      exact headD_dropWhile hd l
    · rw [List.dropWhile_cons_of_neg ha]
      simpa using ha

theorem components_of_head_nul {path : List UInt8} (h : path.headD NUL = NUL) : components path = [] := by
  simp [components, cstr_of_head_nul path h, List.splitOn_nil]

/-- A slash in front adds an empty piece, which is dropped. -/
theorem components_cons_slash (path : List UInt8) : components (SLASH :: path) = components path := by
  have hsplit : (SLASH :: cstr path).splitOn SLASH = [] :: (cstr path).splitOn SLASH :=
    List.splitOn_append_cons_self_of_not_mem List.not_mem_nil (cstr path)
  rw [components, cstr_cons _ _ slash_ne_nul, hsplit, List.filter_cons_of_neg (by simp), components]

theorem components_dropWhile_slash (path : List UInt8) :
    components (path.dropWhile (· = SLASH)) = components path := by
  induction path with
  | nil => rfl
  | cons c path ih =>
    by_cases hc : c = SLASH
    · subst hc
      rw [List.dropWhile_cons_of_pos (by simp), ih, components_cons_slash]
    · rw [List.dropWhile_cons_of_neg (by simpa using hc)]

/-- An element and what stops it: the element is the first component. -/
theorem components_append {elem rest : List UInt8} (hne : elem ≠ [])
    (hin : ∀ c ∈ elem, c ≠ SLASH ∧ c ≠ NUL) (hstop : ¬(rest.headD NUL ≠ SLASH ∧ rest.headD NUL ≠ NUL)) :
    components (elem ++ rest) = elem :: components rest := by
  have hslash : SLASH ∉ elem := fun hm => (hin SLASH hm).1 rfl
  have hkeep : decide (elem ≠ []) = true := decide_eq_true hne
  have hcstr : cstr (elem ++ rest) = elem ++ cstr rest := by
    rw [cstr, List.takeWhile_append_of_pos fun c hc => decide_eq_true (hin c hc).2]
    rfl
  -- the element ends at a slash, or where the string does
  by_cases hs : rest.headD NUL = SLASH
  · obtain ⟨r, rfl⟩ : ∃ r, rest = SLASH :: r := by
      cases rest with
      | nil => exact absurd hs.symm slash_ne_nul
      | cons c r =>
        simp only [List.headD_cons] at hs
        exact ⟨r, by rw [hs]⟩
    conv_lhs => rw [components, hcstr, cstr_cons _ _ slash_ne_nul,
      List.splitOn_append_cons_self_of_not_mem hslash, List.filter_cons_of_pos (p := fun x => decide (x ≠ [])) hkeep]
    rw [components_cons_slash]
    rfl
  · have hnul : rest.headD NUL = NUL := not_not.mp fun hn => hstop ⟨hs, hn⟩
    rw [components_of_head_nul hnul]
    conv_lhs => rw [components, hcstr, cstr_of_head_nul _ hnul, List.append_nil,
      List.splitOn_eq_singleton hslash, List.filter_cons_of_pos (p := fun x => decide (x ≠ [])) hkeep,
      List.filter_nil]

/-- A path that starts with an element: that element is its first
component, and the others are those of what follows it. -/
theorem components_elem {path : List UInt8} (h : path.headD NUL ≠ SLASH ∧ path.headD NUL ≠ NUL) :
    components path = path.takeWhile (fun c => c ≠ SLASH ∧ c ≠ NUL) ::
      components (path.dropWhile (fun c => c ≠ SLASH ∧ c ≠ NUL)) := by
  have hne : path.takeWhile (fun c => c ≠ SLASH ∧ c ≠ NUL) ≠ [] := by
    cases path with
    | nil => exact absurd rfl h.2
    | cons c path =>
      rw [List.takeWhile_cons_of_pos (p := fun c => decide (c ≠ SLASH ∧ c ≠ NUL)) (a := c) (decide_eq_true h)]
      exact List.cons_ne_nil _ _
  have hin : ∀ c ∈ path.takeWhile (fun c => c ≠ SLASH ∧ c ≠ NUL), c ≠ SLASH ∧ c ≠ NUL :=
    fun c hc => of_decide_eq_true (List.mem_takeWhile_imp (p := fun c => decide (c ≠ SLASH ∧ c ≠ NUL)) hc)
  have hstop := headD_dropWhile (p := fun c => decide (c ≠ SLASH ∧ c ≠ NUL)) (d := NUL) (by decide) path
  conv_lhs => rw [← List.takeWhile_append_dropWhile (p := fun c => decide (c ≠ SLASH ∧ c ≠ NUL)) (l := path)]
  exact components_append hne hin (of_decide_eq_false hstop)

/-- Past its leading slashes, a path has no component left exactly where
it ends. -/
theorem components_eq_nil_iff {path : List UInt8} (h : path.headD NUL ≠ SLASH) :
    components path = [] ↔ path.headD NUL = NUL := by
  constructor
  · intro hnil
    by_contra hn
    rw [components_elem ⟨h, hn⟩] at hnil
    exact List.cons_ne_nil _ _ hnil
  · exact components_of_head_nul

/-! ## `skipelem` -/

theorem headD_dropWhile_slash (path : List UInt8) : (path.dropWhile (· = SLASH)).headD NUL ≠ SLASH :=
  of_decide_eq_false (headD_dropWhile (p := fun x => decide (x = SLASH)) (by decide) path)

/-- `skipelem` returns `0` exactly when no component is left. -/
theorem skipelem_eq_none_iff (path : List UInt8) : skipelem path = none ↔ components path = [] := by
  rw [← components_dropWhile_slash, components_eq_nil_iff (headD_dropWhile_slash path), skipelem]
  dsimp only
  split
  · rename_i hnul
    exact iff_of_true rfl hnul
  · rename_i hnul
    exact iff_of_false (Option.some_ne_none _) hnul

/-- What `skipelem` returns: the first component cut to `DIRSIZ` bytes,
and a rest that holds the other components and starts with no slash. -/
theorem skipelem_some {path name rest : List UInt8} (h : skipelem path = some (name, rest)) :
    ∃ c, components path = c :: components rest ∧ name = c.take DIRSIZ ∧ rest.headD NUL ≠ SLASH := by
  unfold skipelem at h
  dsimp only at h
  split at h
  · cases h
  · rename_i hnul
    obtain ⟨rfl, rfl⟩ := Prod.mk.inj (Option.some.inj h)
    refine ⟨(path.dropWhile (· = SLASH)).takeWhile (fun c => c ≠ SLASH ∧ c ≠ NUL), ?_, ?_,
      headD_dropWhile_slash _⟩
    · rw [← components_dropWhile_slash path, components_elem ⟨headD_dropWhile_slash path, hnul⟩,
        components_dropWhile_slash]
    · -- an element shorter than `DIRSIZ` is copied whole
      split
      · rfl
      · rename_i hlen
        exact (List.take_of_length_le (by omega)).symm

/-- `skipelem` takes at least the element's first byte. -/
theorem skipelem_length {path name rest : List UInt8} (h : skipelem path = some (name, rest)) :
    rest.length < path.length := by
  unfold skipelem at h
  dsimp only at h
  split at h
  · cases h
  · rename_i hnul
    obtain ⟨-, rfl⟩ := Prod.mk.inj (Option.some.inj h)
    -- the element's first byte is one `dropWhile` of three passes over
    obtain ⟨c, tl, hp⟩ : ∃ c tl, path.dropWhile (· = SLASH) = c :: tl := by
      cases hd : path.dropWhile (· = SLASH) with
      | nil => rw [hd] at hnul; exact absurd rfl hnul
      | cons c tl => exact ⟨c, tl, rfl⟩
    have hc : c ≠ SLASH ∧ c ≠ NUL := by
      have hs := headD_dropWhile_slash path
      rw [hp] at hs hnul
      exact ⟨hs, hnul⟩
    calc _ ≤ (tl.dropWhile (fun c => c ≠ SLASH ∧ c ≠ NUL)).length := by
          rw [hp, List.dropWhile_cons_of_pos (p := fun c => decide (c ≠ SLASH ∧ c ≠ NUL)) (decide_eq_true hc)]
          exact List.length_dropWhile_le _ _
      _ ≤ tl.length := List.length_dropWhile_le _ _
      _ < (c :: tl).length := Nat.lt_succ_self _
      _ = (path.dropWhile (· = SLASH)).length := by rw [hp]
      _ ≤ path.length := List.length_dropWhile_le _ _

/-- The names the loop of `namex` reads, one `skipelem` a round, until
it returns `0`. -/
def skipelems (path : List UInt8) : List (List UInt8) :=
  match _h : skipelem path with
  | none => []
  | some (name, rest) => name :: skipelems rest
termination_by path.length
decreasing_by exact skipelem_length _h

attribute [grind] skipelems

theorem skipelems_of_none {path : List UInt8} (h : skipelem path = none) : skipelems path = [] := by
  rw [skipelems]
  split
  · rfl
  · rename_i h'
    rw [h] at h'
    cases h'

theorem skipelems_of_some {path name rest : List UInt8} (h : skipelem path = some (name, rest)) :
    skipelems path = name :: skipelems rest := by
  rw [skipelems]
  split
  · rename_i h'
    rw [h] at h'
    cases h'
  · rename_i h'
    rw [h] at h'
    obtain ⟨rfl, rfl⟩ := Prod.mk.inj (Option.some.inj h')
    rfl

/-- The calls of `skipelem` in a row read the components of the path,
each cut to `DIRSIZ` bytes.  By induction on the path's length. -/
theorem skipelems_eq (path : List UInt8) : skipelems path = (components path).map (·.take DIRSIZ) := by
  cases hsk : skipelem path with
  | none => rw [skipelems_of_none hsk, (skipelem_eq_none_iff path).mp hsk, List.map_nil]
  | some p =>
    obtain ⟨name, rest⟩ := p
    obtain ⟨c, hc, rfl, -⟩ := skipelem_some hsk
    have := skipelem_length hsk
    rw [skipelems_of_some hsk, hc, List.map_cons, skipelems_eq rest]
termination_by path.length

/-- The rest `skipelem` returns ends exactly where no name is left to read. -/
theorem skipelems_eq_nil_iff {path name rest : List UInt8} (h : skipelem path = some (name, rest)) :
    skipelems rest = [] ↔ rest.headD NUL = NUL := by
  obtain ⟨-, -, -, hs⟩ := skipelem_some h
  rw [skipelems_eq, List.map_eq_nil_iff, components_eq_nil_iff hs]

/-! ## The name buffer -/

/-- The copy at the end of `skipelem(path, name)`: the element is the
`len` bytes at `s`.  One of `DIRSIZ` bytes or more fills `name` and gets
no NUL. -/
def copyElem (m : Nat → UInt8) (name s len : Nat) : Nat → UInt8 :=
  if len ≥ DIRSIZ then Bytes.memmove m name s (UInt32.ofNat DIRSIZ)
  else Function.update (Bytes.memmove m name s (UInt32.ofNat len)) (name + len) NUL

/-- After the copy `name` holds the first `min(len, DIRSIZ)` bytes of the
element, then a NUL if the element was shorter than `DIRSIZ`; the
element may overlap the buffer. -/
theorem copyElem_spec (m : Nat → UInt8) (name s len : Nat) :
    (∀ i < min len DIRSIZ, copyElem m name s len (name + i) = m (s + i)) ∧
      (len < DIRSIZ → copyElem m name s len (name + len) = NUL) := by
  unfold copyElem
  by_cases hlen : len ≥ DIRSIZ
  · refine ⟨fun i hi => ?_, fun h => absurd h (by omega)⟩
    rw [if_pos hlen]
    exact Bytes.memmove_apply m name s _ (by simp [DIRSIZ] at hi ⊢; omega)
  · have hsmall : (UInt32.ofNat len).toNat = len := by simp [DIRSIZ] at hlen ⊢; omega
    refine ⟨fun i hi => ?_, fun _ => ?_⟩
    · rw [if_neg hlen, Function.update_of_ne (by omega)]
      exact Bytes.memmove_apply m name s _ (by omega)
    · rw [if_neg hlen, Function.update_self]

/-! ## `namex` as a walk over the components -/

/-- The loop of `namex` over the names still to look up, `name` the one
last read: `ilock`, the `T_DIR` test, for `nameiparent` the stop before
the last name, then `dirlookup` and one level down.  With no name left
`nameiparent` gives up its reference and returns `0`. -/
def walk (nameiparent : Bool) :
    Fin NINODE → List (List UInt8) → List UInt8 → FsM (Option (Fin NINODE × List UInt8))
  | ip, elem :: elems, _ => do
      ilock ip
      if ((← get).inode ip).d.type ≠ T_DIR then
        iunlockput ip
        return none
      if nameiparent = true ∧ elems = [] then
        iunlock ip
        return some (ip, elem)
      match ← dirlookup ip elem with
      | none =>
          iunlockput ip
          return none
      | some (next, _) =>
          iunlockput ip
          walk nameiparent next elems elem
  | ip, [], name => do
      if nameiparent then
        iput ip
        return none
      return some (ip, name)

attribute [grind] walk

/-- The loop of `namex`, with fuel above the path's length, walks the
names `skipelem` reads.  By induction on the fuel, one name a round. -/
theorem namexLoop_eq_walk (nameiparent : Bool) :
    ∀ (fuel : Nat) (ip : Fin NINODE) (path name : List UInt8), path.length < fuel →
      namexLoop nameiparent fuel ip path name = walk nameiparent ip (skipelems path) name
  | 0, _, _, _, hfuel => absurd hfuel (Nat.not_lt_zero _)
  | fuel + 1, ip, path, name, hfuel => by
    cases hsk : skipelem path with
    | none =>
      rw [namexLoop.eq_2 _ _ _ _ _ (fun _ _ _ _ h => by rw [hsk] at h; cases h), skipelems_of_none hsk, walk]
    | some p =>
      obtain ⟨elem, rest⟩ := p
      have ih : ∀ ip, namexLoop nameiparent fuel ip rest elem = walk nameiparent ip (skipelems rest) elem :=
        fun ip => namexLoop_eq_walk nameiparent fuel ip rest elem (by have := skipelem_length hsk; omega)
      rw [namexLoop.eq_1 _ _ _ _ _ _ _ hsk, skipelems_of_some hsk, walk]
      refine bind_congr fun _ => bind_congr fun _ => ?_
      -- the early stop tests the rest's first byte, the walk whether a name is left
      simp only [(skipelems_eq_nil_iff hsk).symm]
      refine ite_congr rfl (fun _ => rfl) fun _ => ite_congr rfl (fun _ => rfl) fun _ => bind_congr fun r => ?_
      -- what `dirlookup` returns is matched on the same way in both bodies
      rcases r with _ | ⟨next, _⟩
      · rfl
      · simp only [ih]

/-- `namex` looks up the component names of `path` in order, from the
root for a path that starts with `/` and from `cwd` otherwise. -/
theorem namex_eq_walk (cwd : Fin NINODE) (path : List UInt8) (nameiparent : Bool) :
    namex cwd path nameiparent = (do
      let ip ← if path.headD NUL = SLASH then iget ROOTINO else idup cwd
      walk nameiparent ip ((components path).map (·.take DIRSIZ)) []) := by
  have h : ∀ ip, namexLoop nameiparent (path.length + 1) ip path [] =
      walk nameiparent ip ((components path).map (·.take DIRSIZ)) [] := fun ip => by
    rw [namexLoop_eq_walk nameiparent _ ip path [] (Nat.lt_succ_self _), skipelems_eq]
  simp only [namex, h]

/-- `skipelem` called again and again reads the components of the path
in order, each cut to `DIRSIZ` bytes and copied into `name` with a NUL
when shorter; no rest it returns starts with `/`, and it returns `0`
exactly when no component is left.  So `namex` looks up those names
from the root or from `cwd`, and `nameiparent` stops before the last. -/
theorem namex_components :
    (∀ path, skipelems path = (components path).map (·.take DIRSIZ)) ∧
    (∀ path name rest, skipelem path = some (name, rest) →
      ∃ c, components path = c :: components rest ∧ name = c.take DIRSIZ ∧ rest.headD NUL ≠ SLASH) ∧
    (∀ path, skipelem path = none ↔ components path = []) ∧
    (∀ m name s len, (∀ i < min len DIRSIZ, copyElem m name s len (name + i) = m (s + i)) ∧
      (len < DIRSIZ → copyElem m name s len (name + len) = NUL)) ∧
    ∀ cwd path nameiparent, namex cwd path nameiparent = (do
      let ip ← if path.headD NUL = SLASH then iget ROOTINO else idup cwd
      walk nameiparent ip ((components path).map (·.take DIRSIZ)) []) :=
  ⟨skipelems_eq, fun _ _ _ => skipelem_some, skipelem_eq_none_iff, copyElem_spec, namex_eq_walk⟩

end Xv6
