import ShellGlob.Proofs.Glob.Expansion
import ShellGlob.Proofs.Glob.Neutralization

/-!
# Negations and classes

Negations are found by counting parentheses, and classes are read without any regard to
negations.  So a `!`, `(` or `)` that makes a negation may be read as part of a class, as
in `[!(a)]`, where the `!` complements the class.  The variants take out the negation all
the same, and what is left of the class is another one.

Where each text before a negation and each inner text closes the classes that it opens,
nothing of the kind happens, and in every other glob it does (`negations_outside_iff`).
Which braces and groups are open does not matter, for they do not change where a class
starts or ends (`Context.classPart_afterAll_eq`).
-/

namespace ShellGlob.Glob

/-- Whether the token is part of a class. -/
def Token.ofClass : Token → Bool
  | .classOpen | .classClose | .complement | .member _ _ => true
  | .escape inClass _ | .backslash inClass => inClass
  | .groupOpen _ | .groupClose _ | .tree _ | .star | .one | .braceOpen | .braceClose
  | .comma | .bar | .literal _ => false

/-- Whether the byte at a place is read as part of a class, where the first of the tokens
is at `offset`. -/
def inClassAt : (offset : Nat) → List Token → (place : Nat) → Bool
  | _, [], _ => false
  | offset, token :: rest, place =>
      let next := offset + Text.utf8Length token.source
      if place < next then token.ofClass else inClassAt next rest place

private theorem Token.utf8Length_source_pos (token : Token) : 0 < Text.utf8Length token.source := by
  obtain ⟨c, rest, written⟩ := List.exists_cons_of_ne_nil token.source_ne_nil
  rw [written, Text.utf8Length]
  exact Nat.add_pos_left c.utf8Size_pos _

theorem inClassAt_cons_here (place : Nat) (token : Token) (rest : List Token) :
    inClassAt place (token :: rest) place = token.ofClass := by
  simp [inClassAt, token.utf8Length_source_pos]

theorem inClassAt_append {offset place : Nat} {front : List Token}
    (behind : offset + Text.utf8Length (front.flatMap Token.source) ≤ place) (rest : List Token) :
    inClassAt offset (front ++ rest) place =
      inClassAt (offset + Text.utf8Length (front.flatMap Token.source)) rest place := by
  induction front generalizing offset with
  | nil => rfl
  | cons token front ih =>
      rw [List.flatMap_cons, Text.utf8Length_append, ← Nat.add_assoc] at behind ⊢
      have notHere : ¬ place < offset + Text.utf8Length token.source := by omega
      rw [List.cons_append, inClassAt, if_neg notHere, ih behind]

/-- Behind a text the places are those of the text that follows. -/
theorem inClassAt_tokens_append {context : Context} {text : Text} {offset place : Nat}
    (behind : offset + Text.utf8Length text ≤ place) (rest : List Token) :
    inClassAt offset (tokens context text ++ rest) place =
      inClassAt (offset + Text.utf8Length text) rest place := by
  have source := flatMap_source_tokens context text
  rw [inClassAt_append (by rw [source]; exact behind), source]

section

variable {context other : Context} {c : Char} {rest : Text}

theorem Token.ofClass_readMember (part : ClassPart) (c : Char) (rest : Text) :
    (Token.readMember part c rest).ofClass = true := by
  unfold Token.readMember
  repeat' split
  all_goals rfl

theorem Token.ofClass_readPlain (plain : c ≠ '[') :
    (Token.readPlain context c rest).ofClass = false := by
  unfold Token.readPlain
  split
  any_goals rfl
  · unfold Token.readStar
    split
    all_goals rfl
  · exact absurd rfl plain
  all_goals
    split
    all_goals rfl

private theorem Token.lookahead_readPlain_eq (context other : Context) (c : Char) (rest : Text) :
    (Token.readPlain context c rest).lookahead = (Token.readPlain other c rest).lookahead := by
  by_cases star : c = '*'
  · rw [star]
    rfl
  · simp [Token.lookahead, Token.source_readPlain_of_ne_star star]

theorem Context.classPart_after_of_outside {token : Token} (outside : token.ofClass = false) :
    (context.after token).classPart = context.classPart := by
  cases token with
  | escape inClass | backslash inClass =>
      cases inClass with
      | false => rfl
      | true => cases outside
  | classOpen | classClose | complement | member => cases outside
  | _ => rfl

private theorem Context.classPart_after_eq (same : context.classPart = other.classPart)
    (token : Token) :
    (context.after token).classPart = (other.after token).classPart := by
  cases token with
  | escape inClass | backslash inClass =>
      cases inClass with
      | false => exact same
      | true => rfl
  | classOpen | classClose | complement | member => rfl
  | _ => exact same

private theorem Context.classPart_after_readPlain_eq (same : context.classPart = other.classPart) :
    (context.after (Token.readPlain context c rest)).classPart =
      (other.after (Token.readPlain other c rest)).classPart := by
  by_cases bracket : c = '['
  · rw [bracket]
    rfl
  · rw [Context.classPart_after_of_outside (Token.ofClass_readPlain bracket),
      Context.classPart_after_of_outside (Token.ofClass_readPlain bracket), same]

/-- What is open besides a class changes neither the length of a token nor what it does to
the class. -/
theorem Context.read_classAlike (same : context.classPart = other.classPart) (c : Char)
    (rest : Text) :
    (context.read c rest).lookahead = (other.read c rest).lookahead ∧
      (context.after (context.read c rest)).classPart =
        (other.after (other.read c rest)).classPart := by
  by_cases escape : c = '\\'
  · have read : context.read c rest = other.read c rest := by
      simp [Context.read, escape, Context.inClass, same]
    rw [read]
    exact ⟨rfl, Context.classPart_after_eq same _⟩
  cases location : other.classPart with
  | some part =>
      rw [Context.read_member (same.trans location) escape, Context.read_member location escape]
      exact ⟨rfl, Context.classPart_after_eq same _⟩
  | none =>
      cases opened : Multiplicity.opening? c rest with
      | some multiplicity =>
          rw [Context.read_opening escape (same.trans location) opened,
            Context.read_opening escape location opened]
          exact ⟨rfl, same⟩
      | none =>
          rw [Context.read_plain escape (same.trans location) opened,
            Context.read_plain escape location opened]
          exact ⟨Token.lookahead_readPlain_eq _ _ _ _, Context.classPart_after_readPlain_eq same⟩

end

/-- A text opens and closes the same classes whatever else is open around it. -/
theorem Context.classPart_afterAll_eq {context other : Context}
    (same : context.classPart = other.classPart) (text : Text) :
    (context.afterAll (tokens context text)).classPart =
      (other.afterAll (tokens other text)).classPart := by
  induction context, text using tokens.induct generalizing other with
  | case1 context =>
      rw [tokens_nil, tokens_nil]
      exact same
  | case2 context c rest token =>
      rename_i ih
      obtain ⟨lookahead, classPart⟩ := Context.read_classAlike same c rest
      rw [tokens_cons, tokens_cons, Context.afterAll_cons, Context.afterAll_cons, ← lookahead]
      exact ih classPart

/-- The text closes the classes that it opens. -/
def ClosesClasses (text : Text) : Prop :=
  (({} : Context).afterAll (tokens {} text)).inClass = false

instance ClosesClasses.decidable (text : Text) : Decidable (ClosesClasses text) :=
  inferInstanceAs (Decidable (_ = _))

theorem closesClasses_iff {context : Context} (outside : context.classPart = none) (text : Text) :
    ClosesClasses text ↔ (context.afterAll (tokens context text)).inClass = false := by
  have same : ({} : Context).classPart = context.classPart := outside.symm
  rw [ClosesClasses, Context.inClass, Context.classPart_afterAll_eq same]
  rfl

/-- The text before the first negation, and for each of them its inner text and the text
behind it. -/
def stretches : List Piece → Text × List (Text × Text)
  | [] => ([], [])
  | .text content :: rest => (content ++ (stretches rest).1, (stretches rest).2)
  | .negation inner :: rest => ([], (inner, (stretches rest).1) :: (stretches rest).2)

/-- The text of a glob from its stretches. -/
def written (gap : Text) : List (Text × Text) → Text
  | [] => gap
  | (inner, next) :: more => gap ++ '!' :: '(' :: (inner ++ ')' :: written next more)

/-- The negations between the stretches, the first of which is at `offset`. -/
def located (offset : Nat) (gap : Text) : List (Text × Text) → List Negation
  | [] => []
  | (inner, next) :: more =>
      let start := offset + Text.utf8Length gap
      let stop := start + 2 + Text.utf8Length inner
      ⟨start, stop, inner⟩ :: located (stop + 1) next more

/-- The texts before the negations, and the inner texts, close the classes that they
open. -/
def ClassesClosed (gap : Text) : List (Text × Text) → Prop
  | [] => True
  | (inner, next) :: more => ClosesClasses gap ∧ ClosesClasses inner ∧ ClassesClosed next more

instance ClassesClosed.decidable (gap : Text) :
    (more : List (Text × Text)) → Decidable (ClassesClosed gap more)
  | [] => .isTrue trivial
  | (_, next) :: more =>
      have := ClassesClosed.decidable next more
      inferInstanceAs (Decidable (_ ∧ _ ∧ _))

theorem written_append (content gap : Text) (more : List (Text × Text)) :
    written (content ++ gap) more = content ++ written gap more := by
  cases more with
  | nil => rfl
  | cons first more => simp [written]

private theorem flatMap_source_eq_written (cutUp : List Piece) :
    cutUp.flatMap Piece.source = written (stretches cutUp).1 (stretches cutUp).2 := by
  induction cutUp with
  | nil => rfl
  | cons piece rest ih =>
      cases piece with
      | text content => rw [List.flatMap_cons, ih, stretches, written_append, Piece.source]
      | negation inner => simp [ih, stretches, written, Piece.source]

theorem located_append (offset : Nat) (content gap : Text) (more : List (Text × Text)) :
    located offset (content ++ gap) more =
      located (offset + Text.utf8Length content) gap more := by
  cases more with
  | nil => rfl
  | cons first more => simp [located, Text.utf8Length_append, Nat.add_assoc]

theorem negationsFrom_eq_located (offset : Nat) (cutUp : List Piece) :
    negationsFrom offset cutUp = located offset (stretches cutUp).1 (stretches cutUp).2 := by
  induction cutUp generalizing offset with
  | nil => rfl
  | cons piece rest ih =>
      cases piece with
      | text content => rw [negationsFrom, ih, stretches, located_append, Piece.source]
      | negation inner =>
          have width : offset + Text.utf8Length (Piece.negation inner).source =
              offset + 2 + Text.utf8Length inner + 1 := by
            have marks : '!'.utf8Size = 1 ∧ '('.utf8Size = 1 ∧ ')'.utf8Size = 1 := by decide
            simp only [Piece.source, Text.utf8Length, Text.utf8Length_append, marks]
            omega
          simp only [negationsFrom, stretches, located, width, ih, Nat.add_sub_cancel,
            Text.utf8Length_nil, Nat.add_zero]

theorem gaps_eq (cutUp : List Piece) :
    gaps cutUp = ((stretches cutUp).1, (stretches cutUp).2.map Prod.snd) := by
  induction cutUp with
  | nil => rfl
  | cons piece rest ih =>
      cases piece with
      | text content => simp [gaps, stretches, ih]
      | negation inner => simp [gaps, stretches, ih]

private theorem mem_of_mem_stretches {cutUp : List Piece} {inner next : Text}
    (member : (inner, next) ∈ (stretches cutUp).2) : .negation inner ∈ cutUp := by
  induction cutUp with
  | nil => cases member
  | cons piece rest ih =>
      cases piece with
      | text content => exact List.mem_cons_of_mem _ (ih member)
      | negation other =>
          rcases List.mem_cons.mp member with same | later
          · cases same
            exact List.mem_cons_self
          · exact List.mem_cons_of_mem _ (ih later)

section

variable {context : Context} {rest : Text}

theorem Context.ofClass_read_inClass (inside : context.inClass = true) {c : Char}
    (notEscape : c ≠ '\\') (rest : Text) : (context.read c rest).ofClass = true := by
  obtain ⟨part, location⟩ := Option.isSome_iff_exists.mp inside
  rw [Context.read_member location notEscape]
  exact Token.ofClass_readMember part c rest

/-- Outside of classes the `!` and the `(` of a negation are ordinary characters. -/
theorem tokens_negation_outside (outside : context.classPart = none) :
    tokens context ('!' :: '(' :: rest) = .literal '!' :: .literal '(' :: tokens context rest := by
  rw [tokens_cons, Context.read_plain_of_not_mark (by decide) outside rfl]
  change .literal '!' :: tokens context ('(' :: rest) = _
  rw [tokens_cons, Context.read_plain_of_not_mark (by decide) outside rfl]
  rfl

/-- A `!` is read as part of a class exactly if one is open there. -/
theorem Context.ofClass_read_mark (context : Context) (rest : Text) :
    (context.read '!' ('(' :: rest)).ofClass = context.inClass := by
  cases inside : context.inClass with
  | true => exact Context.ofClass_read_inClass inside (by decide) _
  | false =>
      have read : tokens context ('!' :: '(' :: rest) = _ :=
        tokens_negation_outside (Context.classPart_eq_none inside)
      rw [tokens_cons] at read
      rw [(List.cons.inj read).1]
      rfl

theorem Context.read_closing (context : Context) (rest : Text) :
    (context.read ')' rest).source = [')'] ∧ (context.read ')' rest).ofClass = context.inClass := by
  cases inside : context.inClass with
  | true =>
      obtain ⟨part, location⟩ := Option.isSome_iff_exists.mp inside
      rw [Context.read_member location (by decide)]
      exact ⟨Token.source_readMember part ')' rest, Token.ofClass_readMember part ')' rest⟩
  | false =>
      rw [Context.read_plain_of_not_mark (by decide) (Context.classPart_eq_none inside) rfl]
      exact ⟨Token.source_readPlain_of_ne_star (by decide) rest,
        Token.ofClass_readPlain (by decide)⟩

private theorem Context.classPart_behind_closing (outside : context.inClass = false) :
    (context.after (context.read ')' rest)).classPart = none := by
  rw [Context.classPart_after_of_outside ((context.read_closing rest).2.trans outside)]
  exact Context.classPart_eq_none outside

private theorem tokens_closing_parenthesis (context : Context) (rest : Text) :
    tokens context (')' :: rest) =
      context.read ')' rest :: tokens (context.after (context.read ')' rest)) rest := by
  rw [tokens_cons, Token.lookahead, (context.read_closing rest).1]
  rfl

end

section

variable {context : Context} {gap inner next : Text} {more : List (Text × Text)}

private theorem inClassAt_mark (paired : escapesPaired gap = true) (offset : Nat) :
    inClassAt offset (tokens context (written gap ((inner, next) :: more)))
        (offset + Text.utf8Length gap) =
      (context.afterAll (tokens context gap)).inClass := by
  rw [written, tokens_append_of_escapesPaired paired (by decide),
    inClassAt_tokens_append (Nat.le_refl _), tokens_cons, inClassAt_cons_here,
    Context.ofClass_read_mark]

variable (paired : escapesPaired gap = true) (pairedInner : escapesPaired inner = true)
  (outside : (context.afterAll (tokens context gap)).classPart = none)

include paired outside in
private theorem inClassAt_opening (offset : Nat) :
    inClassAt offset (tokens context (written gap ((inner, next) :: more)))
        (offset + Text.utf8Length gap + 1) = false := by
  have mark : Text.utf8Length (Token.literal '!').source = 1 := by decide
  rw [written, tokens_append_of_escapesPaired paired (by decide),
    inClassAt_tokens_append (Nat.le_succ _), tokens_negation_outside outside, inClassAt, mark,
    if_neg (Nat.lt_irrefl _), inClassAt_cons_here]
  rfl

include paired pairedInner outside in
/-- What is read behind the inner text of a negation. -/
theorem inClassAt_behind_inner {offset place : Nat}
    (behind : offset + Text.utf8Length gap + 2 + Text.utf8Length inner ≤ place) :
    let here := context.afterAll (tokens context gap)
    let there := here.afterAll (tokens here inner)
    inClassAt offset (tokens context (written gap ((inner, next) :: more))) place =
      inClassAt (offset + Text.utf8Length gap + 2 + Text.utf8Length inner)
        (tokens there (')' :: written next more)) place := by
  intro here there
  have marks : Text.utf8Length ([Token.literal '!', .literal '('].flatMap Token.source) = 2 := by
    decide
  have opened : ∀ rest : List Token, .literal '!' :: .literal '(' :: rest =
      [Token.literal '!', .literal '('] ++ rest := fun _ => rfl
  rw [written, tokens_append_of_escapesPaired paired (by decide),
    inClassAt_tokens_append (by omega), tokens_negation_outside outside, opened,
    inClassAt_append (by rw [marks]; omega), marks,
    tokens_append_of_escapesPaired pairedInner (by decide), inClassAt_tokens_append behind]

include paired pairedInner outside in
/-- What is read behind a negation. -/
theorem inClassAt_behind_closing {offset place : Nat}
    (behind : offset + Text.utf8Length gap + 2 + Text.utf8Length inner + 1 ≤ place) :
    let here := context.afterAll (tokens context gap)
    let there := here.afterAll (tokens here inner)
    inClassAt offset (tokens context (written gap ((inner, next) :: more))) place =
      inClassAt (offset + Text.utf8Length gap + 2 + Text.utf8Length inner + 1)
        (tokens (there.after (there.read ')' (written next more))) (written next more)) place := by
  intro here there
  have width : Text.utf8Length (there.read ')' (written next more)).source = 1 := by
    rw [(there.read_closing _).1]
    decide
  rw [inClassAt_behind_inner paired pairedInner outside (Nat.le_of_succ_le behind),
    tokens_closing_parenthesis, inClassAt, width, if_neg (Nat.not_lt_of_le behind)]

end

theorem places_of_mem_located {offset : Nat} {gap : Text} {more : List (Text × Text)}
    {negation : Negation} (member : negation ∈ located offset gap more) :
    offset ≤ negation.start ∧ negation.start ≤ negation.stop := by
  induction more generalizing offset gap with
  | nil => cases member
  | cons block more ih =>
      rcases List.mem_cons.mp member with rfl | later
      · exact ⟨Nat.le_add_right _ _, by simp only; omega⟩
      · have places := ih later
        omega

/-- Nothing of the negations between the stretches is read as part of a class, if they are
read from the given context. -/
def OutsideClasses (context : Context) (offset : Nat) (gap : Text) (more : List (Text × Text)) :
    Prop :=
  ∀ negation ∈ located offset gap more,
    ∀ place ∈ [negation.start, negation.start + 1, negation.stop],
      inClassAt offset (tokens context (written gap more)) place = false

theorem outsideClasses_cons {context : Context} {offset : Nat} {gap inner next : Text}
    {more : List (Text × Text)} (paired : escapesPaired gap = true)
    (pairedInner : escapesPaired inner = true) :
    let here := context.afterAll (tokens context gap)
    let there := here.afterAll (tokens here inner)
    OutsideClasses context offset gap ((inner, next) :: more) ↔
      here.inClass = false ∧ there.inClass = false ∧
        OutsideClasses (there.after (there.read ')' (written next more)))
          (offset + Text.utf8Length gap + 2 + Text.utf8Length inner + 1) next more := by
  intro here there
  unfold OutsideClasses
  rw [located, List.forall_mem_cons, List.forall_mem_cons, List.forall_mem_cons,
    inClassAt_mark paired, and_assoc]
  apply and_congr_right
  intro outside
  have location := Context.classPart_eq_none outside
  have atStop : inClassAt offset (tokens context (written gap ((inner, next) :: more)))
      (offset + Text.utf8Length gap + 2 + Text.utf8Length inner) = there.inClass := by
    rw [inClassAt_behind_inner paired pairedInner location (Nat.le_refl _), tokens_cons,
      inClassAt_cons_here, (there.read_closing _).2]
  rw [inClassAt_opening paired location, List.forall_mem_singleton, atStop, eq_self, true_and]
  apply and_congr_right
  intro _
  apply forall₂_congr
  intro negation member
  have places := places_of_mem_located member
  apply forall₂_congr
  intro place isPlace
  rw [inClassAt_behind_closing paired pairedInner location]
  simp only [List.mem_cons, List.not_mem_nil, or_false] at isPlace
  omega

theorem outsideClasses_iff {context : Context} {offset : Nat} {gap : Text}
    {more : List (Text × Text)} (outside : context.classPart = none)
    (paired : AllPaired gap (more.map Prod.snd))
    (pairedInner : ∀ block ∈ more, escapesPaired block.1 = true) :
    OutsideClasses context offset gap more ↔ ClassesClosed gap more := by
  induction more generalizing context offset gap with
  | nil => simp [OutsideClasses, located, ClassesClosed]
  | cons block more ih =>
      obtain ⟨inner, next⟩ := block
      rw [List.forall_mem_cons] at pairedInner
      refine (outsideClasses_cons paired.1 pairedInner.1).trans ?_
      rw [ClassesClosed, closesClasses_iff outside]
      apply and_congr_right
      intro here
      rw [closesClasses_iff (Context.classPart_eq_none here)]
      apply and_congr_right
      intro there
      exact ih (Context.classPart_behind_closing there) paired.2 pairedInner.2

/-- Where negations and classes overlap: a text before a negation, or an inner text, leaves
a class open. -/
theorem negations_outside_iff (glob : Text) :
    (∀ negation ∈ negations glob,
      ∀ place ∈ [negation.start, negation.start + 1, negation.stop],
        inClassAt 0 (tokens {} glob) place = false) ↔
      ClassesClosed (stretches (pieces glob)).1 (stretches (pieces glob)).2 := by
  have whole := flatMap_source_eq_written (pieces glob)
  rw [flatMap_source_pieces] at whole
  have paired := allPaired_gaps glob
  rw [gaps_eq] at paired
  have pairedInner : ∀ block ∈ (stretches (pieces glob)).2, escapesPaired block.1 = true := by
    intro block member
    obtain ⟨_, split⟩ := exists_splitAtClosing_of_mem_pieces (mem_of_mem_stretches member)
    exact escapesPaired_of_splitAtClosing split
  have outside : OutsideClasses {} 0 (stretches (pieces glob)).1 (stretches (pieces glob)).2 ↔ _ :=
    outsideClasses_iff rfl paired pairedInner
  rw [← outside, OutsideClasses, ← whole, negations, negationsFrom_eq_located]

/-- The `!` of the negation complements a class, and the class is taken out with it. -/
theorem not_negations_outside_of_complement :
    let glob := "[!(a)]".toList
    negations glob = [⟨1, 4, ['a']⟩] ∧ inClassAt 0 (tokens {} glob) 1 = true ∧
      positive glob = "[*]".toList ∧ exclusion glob 0 = "[@(a)]".toList ∧
      (Matcher.ofGlob glob true).map (·.isMatch "x".toList) = .ok false := by
  intro glob
  have unmatched : (Matcher.ofGlob "[!(a)]".toList true).map (·.isMatch "x".toList) =
      .ok false := by cbv
  exact ⟨by decide +kernel, by decide +kernel, by decide +kernel, by decide +kernel, unmatched⟩

end ShellGlob.Glob
