import ShellGlob.Text

/-!
# Negations

A negation `!(…)` of a glob forbids its alternatives at its place.  Regular
expressions cannot say so, and a glob with negations is therefore read in
several variants of itself: in each of them a negation is either a plain `*`
or, if it is the one to be expanded, a group `@(…)` of its alternatives.

`pieces` cuts a glob at its negations, and both the places of the negations
(`negations`) and the variants (`variant`) are read off the pieces.  The
pieces together are the glob.  An escaped character never opens, closes or
nests a negation, a negation within another one belongs to it, and a `!(`
without its closing parenthesis is ordinary text.
-/

namespace ShellGlob.Glob

/-- The number of open parentheses behind a character. -/
def depthAfter (depth : Nat) (c : Char) : Nat :=
  if c = '(' then depth + 1 else if c = ')' then depth - 1 else depth

/-- The text before the parenthesis that closes the innermost of `depth` open
ones and all around it, and the text behind that parenthesis. -/
def splitAtClosing : (depth : Nat) → Text → Option (Text × Text)
  | _, [] => none
  | depth, c :: rest =>
      if c = '\\' then
        match rest with
        | [] => none
        | escaped :: behind => (splitAtClosing depth behind).map (Prod.map ([c, escaped] ++ ·) id)
      else if c = ')' ∧ depth ≤ 1 then some ([], rest)
      else (splitAtClosing (depthAfter depth c) rest).map (Prod.map (c :: ·) id)

/-- Nothing is lost but the closing parenthesis. -/
theorem eq_append_of_splitAtClosing {depth : Nat} {text inner behind : Text}
    (split : splitAtClosing depth text = some (inner, behind)) :
    text = inner ++ ')' :: behind := by
  fun_induction splitAtClosing depth text generalizing inner behind with
  | case1 => simp at split
  | case2 => simp at split
  | case3 depth escaped rest ih =>
      obtain ⟨⟨before, after⟩, found, same⟩ := Option.map_eq_some_iff.mp split
      cases same
      simp [ih found]
  | case4 depth c rest notEscape closes =>
      cases split
      simp [closes.1]
  | case5 depth c rest notEscape staysOpen ih =>
      obtain ⟨⟨before, after⟩, found, same⟩ := Option.map_eq_some_iff.mp split
      cases same
      simp [ih found]

/-- A part of a glob: a negation, or text in which none starts. -/
inductive Piece where
  /-- A character, or a backslash together with the character it escapes. -/
  | text (content : Text)
  /-- A negation with the given text between its parentheses. -/
  | negation (inner : Text)
  deriving DecidableEq

/-- The text of the glob that the piece was cut from. -/
def Piece.source : Piece → Text
  | .text content => content
  | .negation inner => '!' :: '(' :: (inner ++ [')'])

/-- The negation at the front of a text, and the text behind it. -/
def splitNegation? : Text → Option (Text × Text)
  | '!' :: '(' :: rest => splitAtClosing 1 rest
  | _ => none

theorem eq_append_of_splitNegation? {text inner behind : Text}
    (split : splitNegation? text = some (inner, behind)) :
    text = (Piece.negation inner).source ++ behind := by
  unfold splitNegation? at split
  split at split
  · simp [Piece.source, eq_append_of_splitAtClosing split]
  · simp at split

/-- The first piece of a text that starts with the character `c`, and the text
behind it. -/
def cut (c : Char) (rest : Text) : Piece × Text :=
  match splitNegation? (c :: rest), rest with
  | some (inner, behind), _ => (.negation inner, behind)
  | none, escaped :: behind =>
      if c = '\\' then (.text [c, escaped], behind) else (.text [c], rest)
  | none, [] => (.text [c], [])

theorem source_cut (c : Char) (rest : Text) :
    (cut c rest).1.source ++ (cut c rest).2 = c :: rest := by
  unfold cut
  split
  · next found => exact (eq_append_of_splitNegation? found).symm
  · split <;> simp [Piece.source]
  · simp [Piece.source]

theorem length_cut_le (c : Char) (rest : Text) :
    (cut c rest).2.length ≤ rest.length := by
  unfold cut
  split
  · next found =>
      have whole := congrArg List.length (eq_append_of_splitNegation? found)
      simp [Piece.source] at whole
      simp only
      omega
  · split <;> simp
  · simp

/-- The pieces of a glob, in order. -/
def pieces : Text → List Piece
  | [] => []
  | c :: rest => (cut c rest).1 :: pieces (cut c rest).2
termination_by text => text.length
decreasing_by
  have := length_cut_le c rest
  simp only [List.length_cons]
  omega

/-- The pieces of a glob are the whole of it. -/
theorem flatMap_source_pieces (glob : Text) :
    (pieces glob).flatMap Piece.source = glob := by
  fun_induction pieces glob with
  | case1 => rfl
  | case2 c rest ih => rw [List.flatMap_cons, ih, source_cut]

/-- A negation of a glob and its place, in bytes. -/
structure Negation where
  /-- Where the `!` is. -/
  start : Nat
  /-- Where the closing parenthesis is. -/
  stop : Nat
  /-- The text between the parentheses. -/
  inner : Text
  deriving DecidableEq

/-- The negations among the pieces, the first of which is at `offset`. -/
def negationsFrom : (offset : Nat) → List Piece → List Negation
  | _, [] => []
  | offset, piece :: rest =>
      let next := offset + Text.utf8Length piece.source
      match piece with
      | .text _ => negationsFrom next rest
      | .negation inner => ⟨offset, next - 1, inner⟩ :: negationsFrom next rest

/-- The negations of a glob that lie within no other one, in order. -/
def negations (glob : Text) : List Negation :=
  negationsFrom 0 (pieces glob)

/-- What stands for a negation in a variant. -/
def replacement (expanded : Bool) (inner : Text) : Text :=
  if expanded then '@' :: '(' :: (inner ++ [')']) else ['*']

/-- The text of a variant from the negation of number `index` on. -/
def resolveFrom (expansion : Option Nat) : (index : Nat) → List Piece → Text
  | _, [] => []
  | index, .text content :: rest => content ++ resolveFrom expansion index rest
  | index, .negation inner :: rest =>
      replacement (expansion = some index) inner ++ resolveFrom expansion (index + 1) rest

/-- The glob with every negation replaced: the one of number `expansion`,
counted from zero, by a group of its alternatives, and every other by `*`. -/
def variant (glob : Text) (expansion : Option Nat) : Text :=
  resolveFrom expansion 0 (pieces glob)

/-- The variant that matches whatever the glob matches, and more. -/
abbrev positive (glob : Text) : Text :=
  variant glob none

/-- The variant that matches what the negation of number `index` forbids. -/
abbrev exclusion (glob : Text) (index : Nat) : Text :=
  variant glob (some index)

end ShellGlob.Glob
