import ShellGlob.Proofs.Glob.Expansion

/-!
# Where a negation is written

A negation that is reported where it is written cuts the glob there: what stands before
it is cut up as on its own, and so is what stands behind it (`pieces_of_reported`).
So its inner text can be exchanged, as long as it is still reported, and all variants but
its own exclusion stay as they are (`variant_eq_of_elsewhere`).
-/

namespace ShellGlob.Glob

/-- The end of a negation does not depend on the text behind it. -/
theorem splitAtClosing_of_split {depth : Nat} {text inner behind : Text}
    (split : splitAtClosing depth text = some (inner, behind)) (other : Text) :
    splitAtClosing depth (inner ++ ')' :: other) = some (inner, other) := by
  fun_induction splitAtClosing depth text generalizing inner behind with
  | case1 => cases split
  | case2 => cases split
  | case3 depth escaped rest ih =>
      obtain ⟨⟨before, after⟩, found, same⟩ := Option.map_eq_some_iff.mp split
      cases same
      change splitAtClosing depth ('\\' :: escaped :: (before ++ ')' :: other)) = _
      rw [splitAtClosing_escape, ih found]
      rfl
  | case4 depth c rest notEscape closes =>
      cases split
      rw [List.nil_append, splitAtClosing.eq_def]
      simp [closes.2]
  | case5 depth c rest notEscape staysOpen ih =>
      obtain ⟨⟨before, after⟩, found, same⟩ := Option.map_eq_some_iff.mp split
      cases same
      change splitAtClosing depth (c :: (before ++ ')' :: other)) = _
      rw [splitAtClosing_cons notEscape staysOpen, ih found]
      rfl

private theorem splitNegation?_of_split {text inner behind : Text}
    (split : splitNegation? text = some (inner, behind)) (other : Text) :
    splitNegation? ((Piece.negation inner).source ++ other) = some (inner, other) := by
  have closing := splitAtClosing_of_split (splitAtClosing_of_splitNegation? split) other
  simpa [Piece.source, splitNegation?] using closing

theorem pieces_source_negation {inner behind : Text}
    (split : splitAtClosing 1 (inner ++ ')' :: behind) = some (inner, behind)) :
    pieces ((Piece.negation inner).source ++ behind) = .negation inner :: pieces behind := by
  have found : splitNegation? ((Piece.negation inner).source ++ behind) = some (inner, behind) := by
    simpa [Piece.source, splitNegation?] using split
  exact pieces_of_splitNegation? found

theorem pieces_backslash : pieces ['\\'] = [.text ['\\']] := by
  rw [pieces, pieces.eq_def]
  rfl

/-- Induction along the pieces of a glob. -/
@[elab_as_elim]
theorem pieces_induction {motive : Text → Prop} (nil : motive [])
    (negation : ∀ inner behind,
      splitAtClosing 1 (inner ++ ')' :: behind) = some (inner, behind) →
      motive behind → motive ((Piece.negation inner).source ++ behind))
    (escape : ∀ escaped behind, motive behind → motive ('\\' :: escaped :: behind))
    (backslash : motive ['\\'])
    (char : ∀ c rest, c ≠ '\\' → splitNegation? (c :: rest) = none →
      motive rest → motive (c :: rest)) (glob : Text) : motive glob := by
  induction glob using pieces.induct with
  | case1 => exact nil
  | case2 c rest ih =>
      cases found : splitNegation? (c :: rest) with
      | some parts =>
          obtain ⟨inner, behind⟩ := parts
          have taken : cut c rest = (.negation inner, behind) := by simp [cut, found]
          rw [taken] at ih
          rw [eq_append_of_splitNegation? found]
          exact negation inner behind (splitAtClosing_of_splitNegation? found) ih
      | none =>
          by_cases isEscape : c = '\\'
          · subst isEscape
            cases rest with
            | nil => exact backslash
            | cons escaped behind =>
                have taken : cut '\\' (escaped :: behind) = (.text ['\\', escaped], behind) := by
                  simp [cut, found]
                rw [taken] at ih
                exact escape escaped behind ih
          · have taken : (cut c rest).2 = rest := by
              unfold cut
              rw [found]
              cases rest <;> simp [isEscape]
            rw [taken] at ih
            exact char c rest isEscape found ih

/-- The first piece of a text is cut off alike if less follows it. -/
theorem pieces_source_append {c : Char} {tail between rest : Text}
    (whole : c :: tail = (cut c tail).1.source ++ (between ++ rest)) :
    pieces ((cut c tail).1.source ++ between) = (cut c tail).1 :: pieces between := by
  rcases cut_cases c tail with
    ⟨inner, behind, found, taken⟩ | ⟨escaped, behind, _, _, taken⟩ | ⟨notEscape, taken⟩ |
      ⟨nothing, taken⟩
  · rw [taken]
    exact pieces_of_splitNegation? (splitNegation?_of_split found between)
  · rw [taken]
    exact pieces_escape escaped between
  · rw [taken] at whole ⊢
    -- A negation that ends before the rest would have been cut off in the first place.
    have noNegation : splitNegation? (c :: between) = none := by
      cases found : splitNegation? (c :: between) with
      | none => rfl
      | some parts =>
          obtain ⟨inner, behind⟩ := parts
          have longer : c :: tail = (Piece.negation inner).source ++ (behind ++ rest) := by
            rw [← List.append_assoc, ← eq_append_of_splitNegation? found]
            exact whole
          have foundToo : splitNegation? (c :: tail) = some (inner, behind ++ rest) := by
            rw [longer]
            exact splitNegation?_of_split found _
          simp [cut, foundToo] at taken
    exact pieces_cons notEscape noNegation
  · rw [taken] at whole ⊢
    subst nothing
    obtain ⟨rfl, rfl⟩ : between = [] ∧ rest = [] := by simpa [Piece.source] using whole
    simp [pieces, taken, Piece.source]

/-- What is cut up to the end of a text is cut there on its own. -/
theorem pieces_eq_of_append {front behind : List Piece} {before rest : Text}
    (cutUp : pieces (before ++ rest) = front ++ behind)
    (source : front.flatMap Piece.source = before) :
    pieces before = front ∧ pieces rest = behind := by
  induction front generalizing before with
  | nil =>
      subst source
      exact ⟨pieces_nil, cutUp⟩
  | cons piece front ih =>
      rw [List.flatMap_cons] at source
      subst source
      cases whole : piece.source ++ front.flatMap Piece.source ++ rest with
      | nil =>
          rw [whole, pieces_nil] at cutUp
          cases cutUp
      | cons c tail =>
          have split := source_cut c tail
          rw [whole, pieces, List.cons_append, List.cons.injEq] at cutUp
          obtain ⟨rfl, later⟩ := cutUp
          rw [List.append_assoc] at whole
          rw [← whole, List.append_cancel_left_eq] at split
          rw [split] at later
          obtain ⟨laterFront, laterBehind⟩ := ih later rfl
          rw [pieces_source_append whole.symm, laterFront]
          exact ⟨rfl, laterBehind⟩

theorem exists_pieces_of_getElem? {offset index : Nat} {cutUp : List Piece}
    {negation : Negation} (found : (negationsFrom offset cutUp)[index]? = some negation) :
    ∃ front behind, cutUp = front ++ .negation negation.inner :: behind ∧
      (negationsFrom 0 front).length = index ∧
      negation.start = offset + Text.utf8Length (front.flatMap Piece.source) := by
  induction cutUp generalizing offset index with
  | nil => cases found
  | cons piece rest ih =>
      cases piece with
      | text content =>
          obtain ⟨front, behind, rfl, count, start⟩ := ih found
          refine ⟨.text content :: front, behind, rfl, ?_, ?_⟩
          · rw [← count]
            exact length_negationsFrom_eq _ 0 front
          · rw [start, List.flatMap_cons, Text.utf8Length_append, Nat.add_assoc]
      | negation inner =>
          cases index with
          | zero =>
              cases found
              exact ⟨[], rest, rfl, rfl, rfl⟩
          | succ index =>
              obtain ⟨front, behind, rfl, count, start⟩ := ih found
              refine ⟨.negation inner :: front, behind, rfl, ?_, ?_⟩
              · rw [← count]
                exact congrArg (· + 1) (length_negationsFrom_eq _ 0 front)
              · rw [start, List.flatMap_cons, Text.utf8Length_append, Nat.add_assoc]

private theorem eq_of_utf8Length_eq {front other rest more : Text}
    (whole : front ++ rest = other ++ more)
    (width : Text.utf8Length front = Text.utf8Length other) : front = other := by
  induction front generalizing other with
  | nil =>
      cases other with
      | nil => rfl
      | cons c other =>
          have positive := c.utf8Size_pos
          simp only [Text.utf8Length] at width
          omega
  | cons c front ih =>
      cases other with
      | nil =>
          have positive := c.utf8Size_pos
          simp only [Text.utf8Length] at width
          omega
      | cons d other =>
          obtain ⟨rfl, later⟩ := List.cons.inj whole
          rw [ih later (Nat.add_left_cancel width)]

/-- A negation that is reported where it is written cuts the glob in three, and its number
is how many negations stand before it. -/
theorem pieces_of_reported {before behind inner : Text} {index stop : Nat}
    (reported : (negations (before ++ ((Piece.negation inner).source ++ behind)))[index]? =
      some ⟨Text.utf8Length before, stop, inner⟩) :
    pieces (before ++ ((Piece.negation inner).source ++ behind)) =
        pieces before ++ .negation inner :: pieces behind ∧
      index = (negations before).length := by
  obtain ⟨front, later, cutUp, count, start⟩ := exists_pieces_of_getElem? reported
  have whole := flatMap_source_pieces (before ++ ((Piece.negation inner).source ++ behind))
  rw [cutUp, List.flatMap_append] at whole
  rw [Nat.zero_add] at start
  have source : front.flatMap Piece.source = before := eq_of_utf8Length_eq whole start.symm
  obtain ⟨cutBefore, _⟩ := pieces_eq_of_append cutUp source
  have further : pieces ((before ++ (Piece.negation inner).source) ++ behind) =
      (front ++ [.negation inner]) ++ later := by
    rw [List.append_assoc, cutUp, List.append_assoc]
    rfl
  obtain ⟨_, cutBehind⟩ := pieces_eq_of_append further (by simp [source])
  rw [cutUp, negations, cutBefore, cutBehind]
  exact ⟨rfl, count.symm⟩

section

variable {glob other inner otherInner : Text} {front behind : List Piece}

theorem length_negationsFrom_append (offset : Nat) (front rest : List Piece) :
    (negationsFrom offset (front ++ rest)).length =
      (negationsFrom 0 front).length + (negationsFrom 0 rest).length := by
  induction front generalizing offset with
  | nil => simp [negationsFrom, length_negationsFrom_eq offset 0]
  | cons piece front ih =>
      cases piece with
      | text content =>
          rw [List.cons_append, negationsFrom, ih, negationsFrom,
            length_negationsFrom_eq (0 + _) 0]
      | negation inner =>
          simp only [List.cons_append, negationsFrom, List.length_cons, ih,
            length_negationsFrom_eq (0 + _) 0]
          omega

theorem length_negations_of_pieces (cutUp : pieces glob = front ++ .negation inner :: behind) :
    (negations glob).length =
      (negationsFrom 0 front).length + ((negationsFrom 0 behind).length + 1) := by
  rw [negations, cutUp, length_negationsFrom_append]
  simp only [negationsFrom, List.length_cons, length_negationsFrom_eq (0 + _) 0]

/-- A variant in which the negation is not expanded does not show its inner text. -/
theorem variant_of_pieces (cutUp : pieces glob = front ++ .negation inner :: behind)
    {expansion : Option Nat} (elsewhere : expansion ≠ some (negationsFrom 0 front).length) :
    variant glob expansion =
      resolveFrom expansion 0 front ++
        '*' :: resolveFrom expansion ((negationsFrom 0 front).length + 1) behind := by
  rw [variant, cutUp, resolveFrom_append expansion 0 0, resolveFrom, Nat.zero_add]
  simp [replacement, elsewhere]

theorem variant_eq_of_elsewhere (cutUp : pieces glob = front ++ .negation inner :: behind)
    (otherCutUp : pieces other = front ++ .negation otherInner :: behind)
    {expansion : Option Nat} (elsewhere : expansion ≠ some (negationsFrom 0 front).length) :
    variant glob expansion = variant other expansion := by
  rw [variant_of_pieces cutUp elsewhere, variant_of_pieces otherCutUp elsewhere]

end

end ShellGlob.Glob
