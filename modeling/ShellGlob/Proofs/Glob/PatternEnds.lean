import ShellGlob.Proofs.Glob.ClassOverlap
import ShellGlob.Proofs.Glob.Refusal
import ShellGlob.Proofs.Regex.Enclosing
import ShellGlob.Proofs.Regex.Surroundings

/-!
# The ends of a pattern

No character of a glob becomes an assertion for an end of the candidate
(`endFree_of_parse`): each `^` and `$` of a pattern stands behind a backslash or in a class.
The pattern neither starts with an operator nor ends within an escape, so what is an
expression between `^` and `$` is one without them (`exists_anchors_of_anchored`).

This holds of every glob.  One with an empty class may be read with the classes of the
glob and of its pattern out of step, but where a class is open in the glob one is open in
the pattern too (`Aligned`).
-/

namespace ShellGlob.Glob

open Regex (State Guarded Hereditary)

theorem guarded_escaped {c : Char} {inClass : Bool} (notHexadecimal : c ≠ 'x') :
    Guarded inClass ['\\', c] :=
  .escaped notHexadecimal .nil

theorem guarded_single {c : Char} (ordinary : c ∉ ['\\', '^', '$']) : Guarded false [c] := by
  simp only [List.mem_cons, List.not_mem_nil, or_false, not_or] at ordinary
  exact .plain ordinary.1 (by simpa using ordinary.2) .nil

theorem guarded_escapePattern (escaped : Char) : Guarded false (escapePattern false escaped) := by
  unfold escapePattern
  split
  · next backspace => exact absurd backspace (by simp)
  split
  · next boundary =>
      apply guarded_escaped
      rintro rfl
      exact absurd boundary (by decide)
  split
  · next known =>
      apply guarded_escaped
      rintro rfl
      exact absurd known (by decide)
  split
  · next angle =>
      rcases angle with rfl | rfl
      all_goals exact guarded_single (by decide)
  split
  · next punctuation =>
      apply guarded_escaped
      rintro rfl
      exact absurd punctuation (by decide)
  · next notPunctuation =>
      apply guarded_single
      intro special
      have all : ['\\', '^', '$'].all isPunctuation = true := by decide
      exact notPunctuation (List.all_eq_true.mp all _ special)

private theorem guarded_literalPattern (c : Char) : Guarded false (literalPattern c) := by
  unfold literalPattern
  split
  · next escaped =>
      apply guarded_escaped
      rintro rfl
      exact absurd escaped (by decide)
  · next ordinary =>
      apply guarded_single
      intro special
      have all : ['\\', '^', '$'].all (· ∈ metaCharacters) = true := by decide
      exact ordinary (by simpa using List.all_eq_true.mp all _ special)

private theorem guarded_segmentCharacter : Guarded false segmentCharacter :=
  .complemented (.plain (by decide) (by decide) (.escaped (by decide)
    (guarded_single (by decide))))

/-- The texts of which an assertion could be made are those of members. -/
theorem Token.guarded_pattern {token : Token} (outside : token.ofClass = false) :
    Guarded false token.pattern := by
  cases token with
  | escape inClass escaped =>
      cases outside
      exact guarded_escapePattern escaped
  | backslash inClass => exact guarded_escaped (by decide)
  | classOpen | classClose | complement | member => cases outside
  | groupOpen multiplicity =>
      exact .plain (by decide) (by decide) (.plain (by decide) (by decide)
        (guarded_single (by decide)))
  | groupClose multiplicity =>
      cases multiplicity with
      | exactlyOne => exact guarded_single (by decide)
      | zeroOrOne | zeroOrMore | oneOrMore =>
          exact .plain (by decide) (by decide) (guarded_single (by decide))
  | tree slash => exact .plain (by decide) (by decide) (guarded_single (by decide))
  | star => exact guarded_segmentCharacter.append (guarded_single (by decide))
  | one => exact guarded_segmentCharacter
  | braceOpen | braceClose | comma | bar => exact guarded_single (by decide)
  | literal c => exact guarded_literalPattern c

private theorem Inside.guarded_pattern {token : Token} (inside : Inside token) :
    Guarded true token.pattern := by
  cases inside with
  | plain c pattern ordinary =>
      simp only [List.mem_cons, List.not_mem_nil, or_false, not_or] at ordinary
      rw [pattern]
      exact .plain ordinary.2.2 (by simpa using ordinary.1) .nil
  | escaped c operand pattern _ notHexadecimal =>
      rw [pattern]
      exact guarded_escaped notHexadecimal
  | backspace pattern =>
      rw [pattern]
      exact .hexadecimal .nil

theorem Context.read_outside {context : Context} (outside : context.classPart = none) (c : Char)
    (rest : Text) :
    context.read c rest = .classOpen ∨ (context.read c rest).ofClass = false := by
  by_cases escape : c = '\\'
  · right
    rw [Context.read, if_pos escape, Context.inClass, outside]
    cases rest with
    | nil | cons => rfl
  cases opened : Multiplicity.opening? c rest with
  | some multiplicity =>
      rw [Context.read_opening escape outside opened]
      exact Or.inr rfl
  | none =>
      rw [Context.read_plain escape outside opened]
      by_cases opening : c = '['
      · subst opening
        exact Or.inl rfl
      · exact Or.inr (Token.ofClass_readPlain opening)

/-- What holds where a token of the glob ends: no escape is half read, where a class of the
glob is open one of the pattern is, and the ends of the candidate have not been asked
for. -/
structure Aligned (item branch : Regex → Prop) (context : Context) (state : State) : Prop where
  settled : state.Settled
  inClass : context.inClass = true → state.inClass = true
  shares : state.Shares item branch

section

variable {item branch : Regex → Prop} {context : Context} {state last : State}

theorem aligned_of_outside (outside : context.classPart = none) (settled : state.Settled)
    (shares : state.Shares item branch) : Aligned item branch context state :=
  ⟨settled, fun inside => by simp [Context.inClass, outside] at inside, shares⟩

theorem Aligned.token (hereditary : Hereditary item branch)
    (aligned : Aligned item branch context state) {c : Char} {rest : Text}
    (ran : state.run (context.read c rest).pattern = .ok last) :
    Aligned item branch (context.after (context.read c rest)) last := by
  have shares : Hereditary.Kept item branch false state := ⟨aligned.shares, by simp⟩
  cases location : context.classPart with
  | some part =>
      rcases Context.inside_read location c rest with closes | ⟨inside, after⟩
      · rw [closes] at ran ⊢
        have guarded : Guarded false Token.classClose.pattern := guarded_single (by decide)
        obtain ⟨settled, kept⟩ := hereditary.run_guarded guarded aligned.settled shares ran
        exact aligned_of_outside rfl settled kept.shares
      · have inClass : context.inClass = true := by simp [Context.inClass, location]
        have kept : Hereditary.Kept item branch true state :=
          ⟨aligned.shares, fun _ => aligned.inClass inClass⟩
        obtain ⟨settled, kept⟩ :=
          hereditary.run_guarded inside.guarded_pattern aligned.settled kept ran
        exact ⟨settled, fun _ => kept.inClass rfl, kept.shares⟩
  | none =>
      rcases Context.read_outside location c rest with opens | outside
      · rw [opens] at ran ⊢
        have guarded : Guarded false Token.classOpen.pattern := guarded_single (by decide)
        obtain ⟨settled, kept⟩ := hereditary.run_guarded guarded aligned.settled shares ran
        obtain ⟨_, taken, same⟩ := State.run_cons_eq_ok.mp ran
        cases same
        exact ⟨settled, fun _ => (State.follows_step aligned.settled taken).opens rfl, kept.shares⟩
      · obtain ⟨settled, kept⟩ :=
          hereditary.run_guarded (Token.guarded_pattern outside) aligned.settled shares ran
        have after := (Context.classPart_after_of_outside outside).trans location
        exact aligned_of_outside after settled kept.shares

theorem Aligned.run (hereditary : Hereditary item branch)
    (aligned : Aligned item branch context state) {glob : Text}
    (ran : state.run (patternFrom context glob) = .ok last) :
    Aligned item branch (context.afterAll (tokens context glob)) last := by
  induction context, glob using tokens.induct generalizing state with
  | case1 context =>
      rw [patternFrom_nil] at ran
      cases ran
      rw [tokens_nil]
      exact aligned
  | case2 context c rest token =>
      rename_i ih
      rw [patternFrom_cons] at ran
      obtain ⟨middle, ranToken, ranRest⟩ := State.run_append_eq_ok.mp ran
      rw [tokens_cons, Context.afterAll_cons]
      exact ih (aligned.token hereditary ranToken) ranRest

end

theorem settled_of_run_begun {glob : Text} {last : State}
    (ran : State.begun.run (patternFrom {} glob) = .ok last) : last.Settled := by
  have start : Aligned (fun item => item.isAlternate = false)
      (fun branch => branch.isAlternate = false) {} State.begun :=
    aligned_of_outside rfl trivial
      ⟨Hereditary.push Hereditary.shares_empty rfl, by simp [State.begun]⟩
  exact (start.run Regex.hereditary_not_alternate ran).settled

/-- No part of the expression of a glob asks for an end of the candidate. -/
theorem endFree_of_parse {glob : Text} {regex : Regex}
    (parsed : Regex.parse (patternFrom {} glob) = .ok regex) : regex.EndFree := by
  obtain ⟨last, ran, _, _, rfl⟩ := Regex.exists_run_of_parse parsed
  have start : Aligned Regex.EndFree Regex.EndFree {} {} :=
    aligned_of_outside rfl trivial ⟨Hereditary.shares_empty, by simp⟩
  have aligned := start.run Regex.hereditary_endFree ran
  exact Regex.hereditary_endFree.closed aligned.shares.draft false

private theorem notOperator_of_reads {pattern : Text} {items : List Regex}
    (reads : Regex.Reads pattern items) :
    ∀ c ∈ pattern.head?, Regex.Repetition.ofSymbol? c = none := by
  intro c first
  obtain ⟨rest, rfl⟩ : ∃ rest, pattern = c :: rest := by
    cases pattern with
    | nil => cases first
    | cons head rest =>
        cases first
        exact ⟨rest, rfl⟩
  obtain ⟨next, ran, _⟩ := reads {} (Or.inl rfl)
  obtain ⟨middle, taken, _⟩ := State.run_cons_eq_ok.mp ran
  -- Before the first item an operator has nothing to apply to.
  unfold Regex.Repetition.ofSymbol?
  split
  · cases taken
  · cases taken
  · cases taken
  · rfl

private theorem Outside.notOperator {context : Context} {token : Token}
    (outside : Outside context token) :
    ∀ c ∈ token.pattern.head?, Regex.Repetition.ofSymbol? c = none := by
  have symbol : ∀ mark rest, Regex.Repetition.ofSymbol? mark = none →
      token.pattern = mark :: rest →
      ∀ c ∈ token.pattern.head?, Regex.Repetition.ofSymbol? c = none := by
    intro mark rest notOperator pattern c first
    rw [pattern] at first
    cases first
    exact notOperator
  cases outside with
  | items reads => exact notOperator_of_reads reads
  | charClass => exact symbol '[' [] rfl rfl
  | opening opens =>
      rcases opens with pattern | pattern
      · exact symbol '(' [] rfl pattern
      · exact symbol '(' ['?', ':'] rfl pattern
  | separator pattern => exact symbol '|' [] rfl pattern
  | closing multiplicity pattern => exact symbol ')' multiplicity.operator rfl pattern

/-- Outside of classes a pattern does not start with an operator. -/
theorem notOperator_patternFrom {context : Context} (outside : context.classPart = none)
    (glob : Text) :
    ∀ c ∈ (patternFrom context glob).head?, Regex.Repetition.ofSymbol? c = none := by
  cases glob with
  | nil => simp [patternFrom_nil]
  | cons c rest =>
      rw [patternFrom_cons, List.head?_append_of_ne_nil _ (Token.pattern_ne_nil _)]
      exact Outside.notOperator (Context.outside_read outside)

theorem exists_anchors_of_anchored {glob : Text} {whole : Regex}
    (parsed : Regex.parse (anchor (patternFrom {} glob)) = .ok whole) :
    ∃ regex, Regex.parse (patternFrom {} glob) = .ok regex ∧ regex.Anchors whole :=
  Regex.anchors_of_parse_enclosed (notOperator_patternFrom rfl glob)
    (fun _ ran => settled_of_run_begun ran) parsed

end ShellGlob.Glob
