import ShellGlob.Glob.Negation
import ShellGlob.Glob.Token

/-!
# Texts whose parentheses belong to groups

In an enclosed text each parenthesis that is not escaped opens or closes an
extended group, be it within a class or outside of one.  No negation starts in
such a text (`pieces_enclosed`), and none that is open before it ends there
(`splitAtClosing_enclosed`).
-/

namespace ShellGlob.Glob

/-- Every parenthesis of the text that is not escaped belongs to an extended
group. -/
inductive Enclosed : Text → Prop where
  | nil : Enclosed []
  | escape (escaped : Char) {rest : Text} :
      Enclosed rest → Enclosed ('\\' :: escaped :: rest)
  | plain {c : Char} {rest : Text} :
      c ∉ ['\\', '(', ')'] → Enclosed rest → Enclosed (c :: rest)
  | group (multiplicity : Multiplicity) {inner rest : Text} :
      Enclosed inner → Enclosed rest →
      Enclosed (multiplicity.mark :: '(' :: (inner ++ ')' :: rest))

namespace Enclosed

variable {text rest : Text}

private theorem head?_ne_paren (enclosed : Enclosed text) : text.head? ≠ some '(' := by
  cases enclosed with
  | nil => simp
  | escape => simp
  | @plain c rest ordinary =>
      simp only [List.mem_cons, List.not_mem_nil, or_false, not_or] at ordinary
      simpa using ordinary.2.1
  | group multiplicity =>
      cases multiplicity with
      | zeroOrOne | zeroOrMore | oneOrMore | exactlyOne => simp [Multiplicity.mark]

private theorem head?_append_ne_paren (enclosed : Enclosed text)
    (notParen : rest.head? ≠ some '(') :
    (text ++ rest).head? ≠ some '(' := by
  cases text with
  | nil => exact notParen
  | cons c text => simpa using enclosed.head?_ne_paren

end Enclosed

/-- A character that closes not the last open parenthesis leaves one open. -/
theorem one_le_depthAfter {depth : Nat} {c : Char} (opened : 1 ≤ depth)
    (stays : ¬ (c = ')' ∧ depth ≤ 1)) : 1 ≤ depthAfter depth c := by
  unfold depthAfter
  split
  · omega
  · split
    · next closes =>
        have := mt (And.intro closes) stays
        omega
    · exact opened

theorem splitAtClosing_escape (depth : Nat) (escaped : Char) (rest : Text) :
    splitAtClosing depth ('\\' :: escaped :: rest) =
      (splitAtClosing depth rest).map (Prod.map (['\\', escaped] ++ ·) id) := by
  rw [splitAtClosing.eq_def]
  rfl

theorem splitAtClosing_cons {depth : Nat} {c : Char} (notEscape : c ≠ '\\')
    (stays : ¬ (c = ')' ∧ depth ≤ 1)) (rest : Text) :
    splitAtClosing depth (c :: rest) =
      (splitAtClosing (depthAfter depth c) rest).map (Prod.map (c :: ·) id) := by
  rw [splitAtClosing.eq_def]
  simp only [if_neg notEscape, if_neg stays]

/-- Reading an enclosed text closes none of the open parentheses. -/
theorem splitAtClosing_enclosed {text : Text} (enclosed : Enclosed text) {depth : Nat}
    (opened : 1 ≤ depth) (rest : Text) :
    splitAtClosing depth (text ++ rest) =
      (splitAtClosing depth rest).map (Prod.map (text ++ ·) id) := by
  induction enclosed generalizing depth rest with
  | nil =>
      rw [List.nil_append]
      cases splitAtClosing depth rest with
      | none => rfl
      | some parts => rfl
  | escape escaped _ ih =>
      rw [List.cons_append, List.cons_append, splitAtClosing_escape, ih opened]
      cases splitAtClosing depth rest with
      | none => rfl
      | some parts => rfl
  | @plain c text ordinary _ ih =>
      simp only [List.mem_cons, List.not_mem_nil, or_false, not_or] at ordinary
      obtain ⟨notEscape, notOpening, notClosing⟩ := ordinary
      have same : depthAfter depth c = depth := by
        simp [depthAfter, notOpening, notClosing]
      rw [List.cons_append, splitAtClosing_cons notEscape (by simp [notClosing]), same,
        ih opened]
      cases splitAtClosing depth rest with
      | none => rfl
      | some parts => rfl
  | @group multiplicity inner text _ _ ihInner ihText =>
      have mark : multiplicity.mark ∉ ['\\', '(', ')'] := by
        cases multiplicity with
        | zeroOrOne | zeroOrMore | oneOrMore | exactlyOne => decide
      simp only [List.mem_cons, List.not_mem_nil, or_false, not_or] at mark
      obtain ⟨notEscape, notOpening, notClosing⟩ := mark
      have same : depthAfter depth multiplicity.mark = depth := by
        simp [depthAfter, notOpening, notClosing]
      have back : depthAfter (depth + 1) ')' = depth := by
        simp [depthAfter]
      have deeper : ¬ (')' = ')' ∧ depth + 1 ≤ 1) := by omega
      have whole : multiplicity.mark :: '(' :: (inner ++ ')' :: text) ++ rest =
          multiplicity.mark :: '(' :: (inner ++ (')' :: (text ++ rest))) := by
        simp
      rw [whole, splitAtClosing_cons notEscape (by simp [notClosing]), same,
        splitAtClosing_cons (by decide) (by simp),
        show depthAfter depth '(' = depth + 1 from rfl, ihInner (by omega),
        splitAtClosing_cons (by decide) deeper, back, ihText opened]
      cases splitAtClosing depth rest with
      | none => rfl
      | some parts => simp [Prod.map]

private theorem splitNegation?_enclosed {inner : Text} (enclosed : Enclosed inner) (rest : Text) :
    splitNegation? ('!' :: '(' :: (inner ++ ')' :: rest)) = some (inner, rest) := by
  have closes : splitAtClosing 1 (')' :: rest) = some ([], rest) := by
    rw [splitAtClosing.eq_def]
    rfl
  rw [splitNegation?, splitAtClosing_enclosed enclosed (Nat.le_refl 1), closes]
  simp

theorem pieces_nil : pieces [] = [] := by
  rw [pieces]

theorem pieces_escape (escaped : Char) (rest : Text) :
    pieces ('\\' :: escaped :: rest) = .text ['\\', escaped] :: pieces rest := by
  have single : cut '\\' (escaped :: rest) = (.text ['\\', escaped], rest) := by
    simp [cut, splitNegation?]
  rw [pieces, single]

theorem pieces_cons {c : Char} {rest : Text} (notEscape : c ≠ '\\')
    (noNegation : splitNegation? (c :: rest) = none) :
    pieces (c :: rest) = .text [c] :: pieces rest := by
  have single : cut c rest = (.text [c], rest) := by
    unfold cut
    rw [noNegation]
    cases rest with
    | nil => rfl
    | cons d rest => simp [notEscape]
  rw [pieces, single]

theorem splitNegation?_of_not_paren {c : Char} {rest : Text}
    (notParen : rest.head? ≠ some '(') : splitNegation? (c :: rest) = none := by
  unfold splitNegation?
  split
  · next same =>
      cases same
      simp at notParen
  · rfl

theorem splitNegation?_of_ne {c : Char} (notMark : c ≠ '!') (rest : Text) :
    splitNegation? (c :: rest) = none := by
  unfold splitNegation?
  split
  · next same =>
      cases same
      exact absurd rfl notMark
  · rfl

theorem pieces_of_splitNegation? {c : Char} {rest inner behind : Text}
    (split : splitNegation? (c :: rest) = some (inner, behind)) :
    pieces (c :: rest) = .negation inner :: pieces behind := by
  have whole : cut c rest = (.negation inner, behind) := by simp [cut, split]
  rw [pieces, whole]

theorem pieces_negation {inner : Text} (enclosed : Enclosed inner) (rest : Text) :
    pieces ('!' :: '(' :: (inner ++ ')' :: rest)) = .negation inner :: pieces rest :=
  pieces_of_splitNegation? (splitNegation?_enclosed enclosed rest)

/-- No negation starts in an enclosed text. -/
theorem pieces_enclosed {text : Text} (enclosed : Enclosed text) {rest : Text}
    (notParen : rest.head? ≠ some '(') :
    ∃ contents : List Text,
      pieces (text ++ rest) = contents.map .text ++ pieces rest ∧ contents.flatten = text := by
  induction enclosed generalizing rest with
  | nil => exact ⟨[], rfl, rfl⟩
  | escape escaped _ ih =>
      obtain ⟨contents, cutUp, whole⟩ := ih notParen
      refine ⟨['\\', escaped] :: contents, ?_, by simp [whole]⟩
      rw [List.cons_append, List.cons_append, pieces_escape, cutUp]
      rfl
  | @plain c text ordinary enclosed ih =>
      obtain ⟨contents, cutUp, whole⟩ := ih notParen
      refine ⟨[c] :: contents, ?_, by simp [whole]⟩
      have notEscape : c ≠ '\\' := List.ne_of_not_mem_cons ordinary
      rw [List.cons_append, pieces_cons notEscape (splitNegation?_of_not_paren
        (enclosed.head?_append_ne_paren notParen)), cutUp]
      rfl
  | @group multiplicity inner text enclosed _ ihInner ihText =>
      obtain ⟨contents, cutUp, whole⟩ := ihText notParen
      have closingNotParen : (')' :: (text ++ rest)).head? ≠ some '(' := by simp
      obtain ⟨innerContents, innerCutUp, innerWhole⟩ :=
        ihInner closingNotParen
      refine ⟨[multiplicity.mark] :: ['('] :: (innerContents ++ [')'] :: contents), ?_,
        by simp [whole, innerWhole]⟩
      have notMark : multiplicity.mark ≠ '!' ∧ multiplicity.mark ≠ '\\' := by
        cases multiplicity with
        | zeroOrOne | zeroOrMore | oneOrMore | exactlyOne => decide
      have closing : pieces (')' :: (text ++ rest)) = .text [')'] :: pieces (text ++ rest) :=
        pieces_cons (by decide) (splitNegation?_of_ne (by decide) _)
      have reassociated : multiplicity.mark :: '(' :: (inner ++ ')' :: text) ++ rest =
          multiplicity.mark :: '(' :: (inner ++ ')' :: (text ++ rest)) := by
        simp
      rw [reassociated, pieces_cons notMark.2 (splitNegation?_of_ne notMark.1 _),
        pieces_cons (by decide) (splitNegation?_of_ne (by decide) _), innerCutUp, closing,
        cutUp]
      simp

private theorem resolveFrom_text (expansion : Option Nat) (index : Nat) (contents : List Text)
    (rest : List Piece) :
    resolveFrom expansion index (contents.map .text ++ rest) =
      contents.flatten ++ resolveFrom expansion index rest := by
  induction contents with
  | nil => rfl
  | cons content contents ih => simp [resolveFrom, ih]

/-- An enclosed text is the same in each variant. -/
theorem resolveFrom_enclosed {text rest : Text} (enclosed : Enclosed text)
    (notParen : rest.head? ≠ some '(') (expansion : Option Nat) (index : Nat) :
    resolveFrom expansion index (pieces (text ++ rest)) =
      text ++ resolveFrom expansion index (pieces rest) := by
  obtain ⟨contents, cutUp, whole⟩ := pieces_enclosed enclosed notParen
  rw [cutUp, resolveFrom_text, whole]

theorem length_negationsFrom_eq (offset other : Nat) (cutUp : List Piece) :
    (negationsFrom offset cutUp).length = (negationsFrom other cutUp).length := by
  induction cutUp generalizing offset other with
  | nil => rfl
  | cons piece rest ih =>
      cases piece with
      | text content => exact ih _ _
      | negation inner => exact congrArg (· + 1) (ih _ _)

theorem length_negationsFrom_text (contents : List Text) (rest : List Piece) :
    (negationsFrom 0 (contents.map .text ++ rest)).length =
      (negationsFrom 0 rest).length := by
  induction contents with
  | nil => rfl
  | cons content contents ih =>
      rw [List.map_cons, List.cons_append, negationsFrom, length_negationsFrom_eq _ 0, ih]

theorem length_negations_enclosed {text rest : Text} (enclosed : Enclosed text)
    (notParen : rest.head? ≠ some '(') :
    (negations (text ++ rest)).length = (negations rest).length := by
  obtain ⟨contents, cutUp, -⟩ := pieces_enclosed enclosed notParen
  rw [negations, cutUp, length_negationsFrom_text]
  rfl

theorem length_negations_negation {inner : Text} (enclosed : Enclosed inner) (rest : Text) :
    (negations ('!' :: '(' :: (inner ++ ')' :: rest))).length = (negations rest).length + 1 := by
  rw [negations, pieces_negation enclosed]
  exact congrArg (· + 1) (length_negationsFrom_eq _ _ _)

end ShellGlob.Glob
