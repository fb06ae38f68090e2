import ShellGlob.Proofs.Glob.Extraction
import ShellGlob.Proofs.Matcher

/-!
# Negations of the variants

A variant is a glob of its own, in which negations are looked for again.  Putting a `*` for
some of the negations neither makes nor breaks another one: what is put and what is taken out
both leave the parentheses balanced that are open around them, and neither ends in an escape.
So the pieces of the new glob are the old ones, but for the stars (`pieces_of_neutral`).

It follows that the positive variant has no negations, and that the glob in which all
negations but one are stars has that one and both variants in common with the whole glob
(`variants_complete`).
-/

namespace ShellGlob.Glob

/-- As `variant`, from the places of the negations alone, if the glob can be cut at them. -/
def substituteFrom? (glob : Text) (expansion : Option Nat) :
    (index position : Nat) → List Negation → Option Text
  | _, position, [] => glob.fromByte? position
  | index, position, negation :: rest =>
      (glob.between? position negation.start).bind fun gap =>
        (substituteFrom? glob expansion (index + 1) (negation.stop + 1) rest).map fun later =>
          gap ++ (replacement (expansion = some index) negation.inner ++ later)

/-- The glob with the negations that are reported in it replaced, the one of number `expansion`
by a group and every other by a `*`. -/
def substitute? (glob : Text) (reported : List Negation) (expansion : Option Nat) : Option Text :=
  substituteFrom? glob expansion 0 0 reported

theorem substituteFrom?_pieces {glob front gap : Text} {cutUp : List Piece}
    (whole : glob = front ++ (gap ++ cutUp.flatMap Piece.source)) (expansion : Option Nat)
    (index : Nat) :
    substituteFrom? glob expansion index front.utf8Length
        (negationsFrom (front.utf8Length + gap.utf8Length) cutUp) =
      some (gap ++ resolveFrom expansion index cutUp) := by
  induction cutUp generalizing front gap index with
  | nil =>
      rw [whole]
      exact (Text.fromByte?_append front _ 0).trans (Text.fromByte?_zero _)
  | cons piece rest ih =>
      cases piece with
      | text content =>
          have longer : glob = front ++ ((gap ++ content) ++ rest.flatMap Piece.source) := by
            simp [whole, Piece.source]
          have written := ih longer index
          rw [Text.utf8Length_append, ← Nat.add_assoc, List.append_assoc] at written
          exact written
      | negation inner =>
          have cut : glob.between? front.utf8Length (front.utf8Length + gap.utf8Length) =
              some gap := by
            rw [whole]
            exact (Text.between?_append front _ 0 _).trans (Text.between?_front gap _)
          -- Behind a negation the next gap is still empty.
          have behind : glob = (front ++ (gap ++ (Piece.negation inner).source)) ++
              ([] ++ rest.flatMap Piece.source) := by
            simp [whole]
          have written := ih behind (index + 1)
          have width := utf8Length_source_negation inner
          simp only [Text.utf8Length_append, Text.utf8Length_nil, Nat.add_zero, List.nil_append,
            ← Nat.add_assoc] at written
          have last : front.utf8Length + gap.utf8Length + (Piece.negation inner).source.utf8Length
                - 1 + 1 =
              front.utf8Length + gap.utf8Length + (Piece.negation inner).source.utf8Length := by
            omega
          simp only [negationsFrom, substituteFrom?]
          rw [cut, last, written]
          rfl

/-- A variant can be written from the places of the negations. -/
theorem substitute?_negations (glob : Text) (expansion : Option Nat) :
    substitute? glob (negations glob) expansion = some (variant glob expansion) := by
  have whole : glob = [] ++ ([] ++ (pieces glob).flatMap Piece.source) :=
    (flatMap_source_pieces glob).symm
  exact substituteFrom?_pieces whole expansion 0

/-- The same piece, or a `*` for a negation. -/
inductive Neutral : Piece → Piece → Prop where
  | same (piece : Piece) : Neutral piece piece
  | star (inner : Text) : Neutral (.negation inner) (.text ['*'])

/-- Parentheses that are open around a closed one are closed behind it. -/
theorem isSome_splitAtClosing_add {depth : Nat} {text inner behind : Text} (opened : 1 ≤ depth)
    (split : splitAtClosing depth text = some (inner, behind)) {outer : Nat} (outside : 1 ≤ outer) :
    (splitAtClosing (depth + outer) text).isSome = (splitAtClosing outer behind).isSome := by
  fun_induction splitAtClosing depth text generalizing inner behind with
  | case1 => cases split
  | case2 => cases split
  | case3 depth escaped rest ih =>
      obtain ⟨⟨before, after⟩, found, same⟩ := Option.map_eq_some_iff.mp split
      cases same
      rw [splitAtClosing_escape, Option.isSome_map]
      exact ih opened found
  | case4 depth c rest notEscape closes =>
      cases split
      obtain ⟨rfl, shallow⟩ := closes
      obtain rfl := Nat.le_antisymm shallow opened
      have stays : ¬ (')' = ')' ∧ 1 + outer ≤ 1) := by omega
      rw [splitAtClosing_cons (by decide) stays, Option.isSome_map]
      simp [depthAfter]
  | case5 depth c rest notEscape staysOpen ih =>
      obtain ⟨⟨before, after⟩, found, same⟩ := Option.map_eq_some_iff.mp split
      cases same
      have stays : ¬ (c = ')' ∧ depth + outer ≤ 1) := by omega
      have deeper := one_le_depthAfter opened staysOpen
      have around : depthAfter (depth + outer) c = depthAfter depth c + outer := by
        unfold depthAfter at deeper ⊢
        split <;> [omega; split <;> omega]
      rw [splitAtClosing_cons notEscape stays, Option.isSome_map, around]
      exact ih deeper found

section

variable {inner behind : Text}

/-- A whole negation leaves open what is open before it. -/
theorem isSome_splitAtClosing_negation
    (split : splitAtClosing 1 (inner ++ ')' :: behind) = some (inner, behind)) {depth : Nat}
    (opened : 1 ≤ depth) (rest : Text) :
    (splitAtClosing depth ((Piece.negation inner).source ++ rest)).isSome =
      (splitAtClosing depth rest).isSome := by
  have whole : (Piece.negation inner).source ++ rest = '!' :: '(' :: (inner ++ ')' :: rest) := by
    simp [Piece.source]
  have inside : depthAfter (depthAfter depth '!') '(' = 1 + depth := by
    simp [depthAfter, Nat.add_comm]
  rw [whole, splitAtClosing_cons (by decide) (by simp), Option.isSome_map,
    splitAtClosing_cons (by decide) (by simp), Option.isSome_map, inside]
  exact isSome_splitAtClosing_add (Nat.le_refl 1) (splitAtClosing_of_split split rest) opened

theorem isSome_splitAtClosing_star (depth : Nat) (rest : Text) :
    (splitAtClosing depth ('*' :: rest)).isSome = (splitAtClosing depth rest).isSome := by
  rw [splitAtClosing_cons (by decide) (by simp), Option.isSome_map]
  rfl

/-- What is open before the pieces of a text stays open if some of them become stars. -/
theorem isSome_splitAtClosing_of_neutral {text : Text} {other : List Piece} {depth : Nat}
    (opened : 1 ≤ depth) (neutral : List.Forall₂ Neutral (pieces text) other) :
    (splitAtClosing depth (other.flatMap Piece.source)).isSome =
      (splitAtClosing depth text).isSome := by
  induction text using pieces_induction generalizing other depth with
  | nil =>
      rw [pieces_nil] at neutral
      cases neutral
      rfl
  | negation inner behind split ih =>
      rw [pieces_source_negation split] at neutral
      obtain _ | ⟨first, later⟩ := neutral
      rw [List.flatMap_cons, isSome_splitAtClosing_negation split opened]
      cases first with
      | same => rw [isSome_splitAtClosing_negation split opened, ih opened later]
      | star =>
          rw [Piece.source, List.singleton_append, isSome_splitAtClosing_star, ih opened later]
  | escape escaped behind ih =>
      rw [pieces_escape] at neutral
      obtain _ | ⟨⟨⟩, later⟩ := neutral
      change (splitAtClosing depth ('\\' :: escaped :: _)).isSome = _
      rw [splitAtClosing_escape, splitAtClosing_escape, Option.isSome_map, Option.isSome_map]
      exact ih opened later
  | backslash =>
      rw [pieces_backslash] at neutral
      obtain _ | ⟨⟨⟩, ⟨⟩⟩ := neutral
      rfl
  | char c rest notEscape noNegation ih =>
      rw [pieces_cons notEscape noNegation] at neutral
      obtain _ | ⟨⟨⟩, later⟩ := neutral
      change (splitAtClosing depth (c :: _)).isSome = _
      by_cases closes : c = ')' ∧ depth ≤ 1
      · rw [splitAtClosing.eq_def, splitAtClosing.eq_def depth (c :: rest)]
        simp [closes]
      · have deeper : 1 ≤ depthAfter depth c := one_le_depthAfter opened closes
        rw [splitAtClosing_cons notEscape closes, splitAtClosing_cons notEscape closes,
          Option.isSome_map, Option.isSome_map]
        exact ih deeper later

end

/-- No negation starts where none did before. -/
theorem splitNegation?_of_neutral {c : Char} {rest : Text} {other : List Piece}
    (noNegation : splitNegation? (c :: rest) = none)
    (neutral : List.Forall₂ Neutral (pieces rest) other) :
    splitNegation? (c :: other.flatMap Piece.source) = none := by
  by_cases mark : c = '!'
  · subst mark
    induction rest using pieces_induction with
    | nil =>
        rw [pieces_nil] at neutral
        cases neutral
        rfl
    | negation inner behind split ih =>
        rw [pieces_source_negation split] at neutral
        obtain _ | ⟨first, later⟩ := neutral
        cases first with
        | same => exact splitNegation?_of_not_paren (by simp [Piece.source])
        | star => exact splitNegation?_of_not_paren (by simp [Piece.source])
    | escape escaped behind ih =>
        rw [pieces_escape] at neutral
        obtain _ | ⟨⟨⟩, later⟩ := neutral
        exact splitNegation?_of_not_paren (by simp [Piece.source])
    | backslash =>
        rw [pieces_backslash] at neutral
        obtain _ | ⟨⟨⟩, ⟨⟩⟩ := neutral
        rfl
    | char d behind notEscape noNegationLater ih =>
        rw [pieces_cons notEscape noNegationLater] at neutral
        obtain _ | ⟨⟨⟩, later⟩ := neutral
        by_cases paren : d = '('
        · subst paren
          have unclosed : (splitAtClosing 1 behind).isSome = false := by
            rw [show splitAtClosing 1 behind = none from noNegation]
            rfl
          rw [← isSome_splitAtClosing_of_neutral (Nat.le_refl 1) later] at unclosed
          exact Option.isSome_eq_false_iff.mp unclosed |> Option.isNone_iff_eq_none.mp
        · exact splitNegation?_of_not_paren (by simpa [Piece.source] using paren)
  · exact splitNegation?_of_ne mark _

/-- The pieces of a glob in which some negations became stars are the old ones and the
stars. -/
theorem pieces_of_neutral {glob : Text} {other : List Piece}
    (neutral : List.Forall₂ Neutral (pieces glob) other) :
    pieces (other.flatMap Piece.source) = other := by
  induction glob using pieces_induction generalizing other with
  | nil =>
      rw [pieces_nil] at neutral
      cases neutral
      exact pieces_nil
  | negation inner behind split ih =>
      rw [pieces_source_negation split] at neutral
      obtain _ | ⟨first, later⟩ := neutral
      rw [List.flatMap_cons]
      cases first with
      | same => rw [pieces_source_negation (splitAtClosing_of_split split _), ih later]
      | star =>
          rw [Piece.source, List.singleton_append,
            pieces_cons (by decide) (splitNegation?_of_ne (by decide) _), ih later]
  | escape escaped behind ih =>
      rw [pieces_escape] at neutral
      obtain _ | ⟨⟨⟩, later⟩ := neutral
      exact (pieces_escape escaped _).trans (congrArg _ (ih later))
  | backslash =>
      rw [pieces_backslash] at neutral
      obtain _ | ⟨⟨⟩, ⟨⟩⟩ := neutral
      exact pieces_backslash
  | char c rest notEscape noNegation ih =>
      rw [pieces_cons notEscape noNegation] at neutral
      obtain _ | ⟨⟨⟩, later⟩ := neutral
      exact (pieces_cons notEscape (splitNegation?_of_neutral noNegation later)).trans
        (congrArg _ (ih later))

/-- The pieces with a `*` for each negation. -/
def starred (cutUp : List Piece) : List Piece :=
  cutUp.map fun
    | .text content => .text content
    | .negation _ => .text ['*']

theorem neutral_starred (cutUp : List Piece) : List.Forall₂ Neutral cutUp (starred cutUp) := by
  induction cutUp with
  | nil => exact .nil
  | cons piece rest ih =>
      cases piece with
      | text content => exact .cons (.same _) ih
      | negation inner => exact .cons (.star inner) ih

theorem flatMap_source_starred (cutUp : List Piece) (index : Nat) :
    (starred cutUp).flatMap Piece.source = resolveFrom none index cutUp := by
  induction cutUp generalizing index with
  | nil => rfl
  | cons piece rest ih =>
      cases piece with
      | text content => exact congrArg (content ++ ·) (ih index)
      | negation inner => exact congrArg ('*' :: ·) (ih (index + 1))

theorem negationsFrom_starred (offset : Nat) (cutUp : List Piece) :
    negationsFrom offset (starred cutUp) = [] := by
  induction cutUp generalizing offset with
  | nil => rfl
  | cons piece rest ih =>
      cases piece with
      | text content => exact ih _
      | negation inner => exact ih _

theorem resolveFrom_starred (expansion : Option Nat) (index other : Nat) (cutUp : List Piece) :
    resolveFrom expansion index (starred cutUp) = resolveFrom none other cutUp := by
  rw [← flatMap_source_starred]
  induction cutUp generalizing index with
  | nil => rfl
  | cons piece rest ih =>
      cases piece with
      | text content => exact congrArg (content ++ ·) (ih index)
      | negation inner => exact congrArg ('*' :: ·) (ih index)

/-- The positive variant has no negations and is its own positive variant. -/
theorem negations_positive (glob : Text) : negations (positive glob) = [] := by
  have cutUp := pieces_of_neutral (neutral_starred (pieces glob))
  rw [flatMap_source_starred _ 0] at cutUp
  rw [negations, positive, variant, cutUp, negationsFrom_starred]

private theorem negationsFrom_starred_append (offset : Nat) (cutUp rest : List Piece) :
    negationsFrom offset (starred cutUp ++ rest) =
      negationsFrom (offset + (resolveFrom none 0 cutUp).utf8Length) rest := by
  rw [← flatMap_source_starred]
  induction cutUp generalizing offset with
  | nil => rfl
  | cons piece cutUp ih =>
      have next : ∀ content : Text, negationsFrom (offset + content.utf8Length)
            (starred cutUp ++ rest) =
          negationsFrom
            (offset + (content ++ (starred cutUp).flatMap Piece.source).utf8Length) rest := by
        intro content
        rw [ih, Text.utf8Length_append, Nat.add_assoc]
      cases piece with
      | text content => exact next content
      | negation inner => exact next ['*']

section

variable {inner : Text} {front behind : List Piece}

/-- The glob in which a negation stands between variants of what is before and behind it. -/
def isolated (front : List Piece) (inner : Text) (behind : List Piece) : Text :=
  resolveFrom none 0 front ++ '!' :: '(' :: (inner ++ ')' :: resolveFrom none 0 behind)

theorem pieces_isolated {glob : Text} (cutUp : pieces glob = front ++ .negation inner :: behind) :
    pieces (isolated front inner behind) =
      starred front ++ .negation inner :: starred behind := by
  have neutral : List.Forall₂ Neutral (pieces glob)
      (starred front ++ .negation inner :: starred behind) := by
    rw [cutUp]
    exact List.rel_append (neutral_starred front) (.cons (.same _) (neutral_starred behind))
  have whole := pieces_of_neutral neutral
  rw [List.flatMap_append, List.flatMap_cons, flatMap_source_starred _ 0,
    flatMap_source_starred _ 0] at whole
  simpa [isolated, Piece.source] using whole

theorem negations_isolated {glob : Text}
    (cutUp : pieces glob = front ++ .negation inner :: behind) :
    let start := (resolveFrom none 0 front).utf8Length
    negations (isolated front inner behind) = [⟨start, start + 2 + inner.utf8Length, inner⟩] := by
  have width := utf8Length_source_negation inner
  rw [negations, pieces_isolated cutUp, negationsFrom_starred_append, Nat.zero_add]
  simp only [negationsFrom, negationsFrom_starred, width, List.cons.injEq, Negation.mk.injEq,
    and_true, true_and]
  omega

theorem positive_isolated {glob : Text}
    (cutUp : pieces glob = front ++ .negation inner :: behind) :
    positive (isolated front inner behind) = positive glob := by
  let next := (negationsFrom 0 front).length + 1
  rw [positive, positive, variant_of_pieces (pieces_isolated cutUp) (by simp),
    variant_of_pieces cutUp (by simp), resolveFrom_starred none 0 0,
    resolveFrom_starred none _ next]

theorem exclusion_isolated {glob : Text}
    (cutUp : pieces glob = front ++ .negation inner :: behind) :
    exclusion (isolated front inner behind) 0 =
      exclusion glob (negationsFrom 0 front).length := by
  have alone := exclusion_eq (pieces_isolated cutUp)
  rw [negationsFrom_starred, resolveFrom_starred none 0 0, resolveFrom_starred none 0 0] at alone
  rw [exclusion_eq cutUp]
  exact alone

end

/-- Variants can be written from the places of the negations.  The positive variant has no
negations.  The exclusion of one of them, with the `@` of its group turned back into a `!`,
has that negation alone, and the variants of the whole glob.  Past the last negation the
exclusions are the positive variant. -/
theorem variants_complete (glob : Text) :
    (∀ expansion, substitute? glob (negations glob) expansion = some (variant glob expansion)) ∧
      (negations (positive glob) = [] ∧ positive (positive glob) = positive glob) ∧
      (∀ index negation, (negations glob)[index]? = some negation →
        ∃ front behind, pieces glob = front ++ .negation negation.inner :: behind ∧
          (negationsFrom 0 front).length = index ∧
          let before := resolveFrom none 0 front
          let after := resolveFrom none 0 behind
          let restored := before ++ '!' :: '(' :: (negation.inner ++ ')' :: after)
          exclusion glob index = before ++ '@' :: '(' :: (negation.inner ++ ')' :: after) ∧
          negations restored = [⟨before.utf8Length,
            before.utf8Length + 2 + negation.inner.utf8Length, negation.inner⟩] ∧
          positive restored = positive glob ∧ exclusion restored 0 = exclusion glob index) ∧
      ∀ index, (negations glob).length ≤ index → exclusion glob index = positive glob := by
  refine ⟨substitute?_negations glob, ⟨negations_positive glob, ?_⟩, ?_, ?_⟩
  · exact variant_of_negations_eq_nil (negations_positive glob) none
  · intro index negation found
    obtain ⟨front, behind, cutUp, rfl, -⟩ := exists_pieces_of_getElem? found
    exact ⟨front, behind, cutUp, rfl, exclusion_eq cutUp, negations_isolated cutUp,
      positive_isolated cutUp, exclusion_isolated cutUp⟩
  · intro index past
    have elsewhere : ∀ number, 0 ≤ number →
        number < 0 + (negationsFrom 0 (pieces glob)).length → some index ≠ some number := by
      rintro number - bound ⟨⟩
      rw [Nat.zero_add] at bound
      exact Nat.not_le_of_lt bound past
    exact resolveFrom_of_elsewhere elsewhere 0

end ShellGlob.Glob
