import ShellGlob.Glob.Compile
import ShellGlob.Proofs.Glob.Syntax
import ShellGlob.Proofs.Regex.Meaning

/-!
# Globs mean what their patterns mean

The text of a syntax tree translates part by part (`Sequence.patternFrom_text`),
and the pattern of each part means what the part matches (`Sequence.means`).  So
the regular expression of a written tree matches a candidate exactly if the tree
does (`Sequence.isMatch_compile_iff`).
-/

namespace ShellGlob.Regex

/-- How a character is written outside of classes. -/
def Literal.ofCharacter (c : Char) : Literal :=
  if c ∈ Glob.metaCharacters then .escaped c else .plain c

theorem Literal.value_ofCharacter (c : Char) : (ofCharacter c).value = c := by
  unfold ofCharacter
  split
  · rfl
  · rfl

end ShellGlob.Regex

namespace ShellGlob.Glob

open Regex (Means MeansAny Reads ReadsAs Repeated)

def Single.pattern : Single → Text
  | .literal c => literalPattern c
  | .escape escaped => escapePattern false escaped
  | .one => segmentCharacter
  | .charClass inside => classPattern inside

mutual

/-- The pattern of a part. -/
def Part.pattern : Part → Text
  | .single value => value.pattern
  | .boundary negated => ['\\', if negated then 'B' else 'b']
  | .star => segmentCharacter ++ ['*']
  | .tree _ => ['.', '*']
  | .braces choice => '(' :: (choice.pattern ++ [')'])
  | .group multiplicity choice =>
      '(' :: '?' :: ':' :: (choice.pattern ++ ')' :: multiplicity.operator)

def Sequence.pattern : Sequence → Text
  | .empty => []
  | .cons first rest => first.pattern ++ rest.pattern

def Choice.pattern : Choice → Text
  | .last branch => branch.pattern
  | .more branch rest => branch.pattern ++ '|' :: rest.pattern

end

section

variable {context : Context} {rest : Text}

theorem patternFrom_nil (context : Context) : patternFrom context [] = [] := by
  rw [patternFrom, tokens_nil]
  rfl

theorem patternFrom_cons (context : Context) (c : Char) (rest : Text) :
    patternFrom context (c :: rest) =
      (context.read c rest).pattern ++
        patternFrom (context.after (context.read c rest))
          (rest.drop (context.read c rest).lookahead) := by
  rw [patternFrom, tokens_cons, List.flatMap_cons]
  rfl

/-- The text behind a part does not start with a character that a token may take
along. -/
def Detached (rest : Text) : Prop :=
  ∀ c ∈ rest.head?, c ∉ ['*', '(', '/']

theorem Detached.nil : Detached [] := by
  intro c isHead
  cases isHead

theorem Detached.cons {c : Char} (detached : c ∉ ['*', '(', '/']) (rest : Text) :
    Detached (c :: rest) := by
  intro d isHead
  cases isHead
  exact detached

private theorem Detached.notParen (detached : Detached rest) : rest.head? ≠ some '(' := by
  intro paren
  exact absurd (detached '(' paren) (by decide)

private theorem Detached.meets (detached : Detached rest) (part : Part) : part.Meets rest := by
  cases part with
  | star =>
      intro star
      exact absurd (detached '*' star) (by decide)
  | tree slash =>
      cases slash with
      | false =>
          intro slash
          exact absurd (detached '/' slash) (by decide)
      | true => trivial
  | _ => trivial

private theorem Part.meets_append {part : Part} {next : Text} (meets : part.Meets next)
    (detached : Detached rest) : part.Meets (next ++ rest) := by
  cases next with
  | nil => exact detached.meets part
  | cons c next =>
      cases part with
      | star => exact meets
      | tree slash =>
          cases slash with
          | false => exact meets
          | true => trivial
      | _ => trivial

theorem opening?_eq_none (notParen : rest.head? ≠ some '(') (c : Char) :
    Multiplicity.opening? c rest = none := by
  simp [Multiplicity.opening?, notParen]

theorem Context.read_literal {c : Char} (outside : context.classPart = none)
    (written : (Single.literal c).Written context) (notParen : rest.head? ≠ some '(') :
    context.read c rest = .literal c := by
  obtain ⟨special, inBraces, inGroup⟩ := written
  simp only [List.mem_cons, List.not_mem_nil, or_false, not_or] at special
  obtain ⟨escape, star, question, bracket, brace, opening, closing⟩ := special
  rw [Context.read_plain escape outside (opening?_eq_none notParen c)]
  unfold Token.readPlain
  split
  · exact absurd rfl closing
  · next groups => exact absurd rfl (inGroup (by simp [groups]))
  · exact absurd rfl star
  · exact absurd rfl question
  · exact absurd rfl bracket
  · exact absurd rfl brace
  · split
    · rfl
    · next opened => exact absurd (by decide) (inBraces opened)
  · split
    · rfl
    · next opened => exact absurd (by decide) (inBraces opened)
  · rfl

theorem patternFrom_escape (outside : context.classPart = none) (escaped : Char) :
    patternFrom context ('\\' :: escaped :: rest) =
      escapePattern false escaped ++ patternFrom context rest := by
  rw [patternFrom_cons]
  simp [Context.read, Token.readEscape, Context.inClass, outside, Token.pattern,
    Context.after, Token.lookahead, Token.source]

theorem patternFrom_class {inside : Text} (outside : context.classPart = none)
    (stays : EscapesAll [']'] inside) :
    patternFrom context ('[' :: (inside ++ ']' :: rest)) =
      classPattern inside ++ patternFrom context rest := by
  simp [patternFrom, tokens_class outside stays, classPattern, Token.pattern]

theorem patternFrom_question (outside : context.classPart = none)
    (notParen : rest.head? ≠ some '(') :
    patternFrom context ('?' :: rest) = segmentCharacter ++ patternFrom context rest := by
  rw [patternFrom_cons, Context.read_plain (by decide) outside
    (opening?_eq_none notParen '?')]
  rfl

theorem Single.patternFrom_text {value : Single} (outside : context.classPart = none)
    (written : value.Written context) (notParen : rest.head? ≠ some '(') :
    patternFrom context (value.text ++ rest) =
      value.pattern ++ patternFrom context rest := by
  cases value with
  | literal c =>
      rw [Single.text, List.singleton_append, patternFrom_cons,
        Context.read_literal outside written notParen]
      rfl
  | escape escaped => exact patternFrom_escape outside escaped
  | one => exact patternFrom_question outside notParen
  | charClass inside =>
      have reassociated : (Single.charClass inside).text ++ rest =
          '[' :: (inside ++ ']' :: rest) := by
        simp [Single.text]
      rw [reassociated, patternFrom_class outside written.1]
      rfl

theorem patternFrom_star (outside : context.classPart = none)
    (notParen : rest.head? ≠ some '(') (notStar : rest.head? ≠ some '*') :
    patternFrom context ('*' :: rest) =
      segmentCharacter ++ ['*'] ++ patternFrom context rest := by
  rw [patternFrom_cons, Context.read_plain (by decide) outside
    (opening?_eq_none notParen '*')]
  have single : Token.readPlain context '*' rest = .star := by
    cases rest with
    | nil => rfl
    | cons c rest =>
        have different : c ≠ '*' := by simpa using notStar
        simp [Token.readPlain, Token.readStar_cons, different]
  rw [single]
  rfl

theorem patternFrom_tree (outside : context.classPart = none) {slash : Bool}
    (meets : (Part.tree slash).Meets rest) :
    patternFrom context ((Part.tree slash).text ++ rest) =
      ['.', '*'] ++ patternFrom context rest := by
  have unopened : ∀ behind, Multiplicity.opening? '*' ('*' :: behind) = none :=
    fun behind => opening?_eq_none (by simp) '*'
  cases slash with
  | true =>
      have read : context.read '*' ('*' :: '/' :: rest) = .tree true := by
        rw [Context.read_plain (by decide) outside (unopened _)]
        rfl
      rw [Part.text, if_pos rfl]
      exact (patternFrom_cons context '*' ('*' :: '/' :: rest)).trans (by rw [read]; rfl)
  | false =>
      have read : context.read '*' ('*' :: rest) = .tree false := by
        have notSlash : rest.head? ≠ some '/' := meets
        rw [Context.read_plain (by decide) outside (unopened _)]
        simp [Token.readPlain, Token.readStar_cons, notSlash]
      rw [Part.text, if_neg (by decide)]
      exact (patternFrom_cons context '*' ('*' :: rest)).trans (by rw [read]; rfl)

theorem patternFrom_plain {c : Char} (outside : context.classPart = none)
    (notEscape : c ≠ '\\') (noMark : Multiplicity.ofMark? c = none) :
    patternFrom context (c :: rest) =
      (Token.readPlain context c rest).pattern ++
        patternFrom (context.after (Token.readPlain context c rest))
          (rest.drop (Token.readPlain context c rest).lookahead) := by
  have unopened : Multiplicity.opening? c rest = none := by
    simp [Multiplicity.opening?, noMark]
  rw [patternFrom_cons, Context.read_plain notEscape outside unopened]

theorem patternFrom_braceOpen (outside : context.classPart = none) :
    patternFrom context ('{' :: rest) =
      '(' :: patternFrom { context with braces := context.braces + 1 } rest :=
  patternFrom_plain outside (by decide) rfl

theorem patternFrom_comma (outside : context.classPart = none) (inBraces : context.braces ≠ 0) :
    patternFrom context (',' :: rest) = '|' :: patternFrom context rest := by
  rw [patternFrom_plain outside (by decide) rfl]
  simp [Token.readPlain, inBraces, Token.pattern, Context.after, Token.lookahead,
    Token.source]

theorem patternFrom_braceClose (outside : context.classPart = none)
    (inBraces : context.braces ≠ 0) :
    patternFrom context ('}' :: rest) =
      ')' :: patternFrom { context with braces := context.braces - 1 } rest := by
  rw [patternFrom_plain outside (by decide) rfl]
  simp [Token.readPlain, inBraces, Token.pattern, Context.after, Token.lookahead,
    Token.source]

theorem patternFrom_groupOpen (outside : context.classPart = none)
    (multiplicity : Multiplicity) :
    patternFrom context (multiplicity.mark :: '(' :: rest) =
      '(' :: '?' :: ':' ::
        patternFrom { context with groups := multiplicity :: context.groups } rest := by
  have notEscape : multiplicity.mark ≠ '\\' := by
    cases multiplicity with
    | zeroOrOne | zeroOrMore | oneOrMore | exactlyOne => decide
  have opened : Multiplicity.opening? multiplicity.mark ('(' :: rest) = some multiplicity :=
    Multiplicity.ofMark?_mark multiplicity
  rw [patternFrom_cons, Context.read_opening notEscape outside opened]
  rfl

theorem patternFrom_bar (outside : context.classPart = none) (inGroup : context.groups ≠ []) :
    patternFrom context ('|' :: rest) = '|' :: patternFrom context rest := by
  obtain ⟨innermost, outer, groups⟩ := List.exists_cons_of_ne_nil inGroup
  rw [patternFrom_plain outside (by decide) rfl]
  simp [Token.readPlain, groups, Token.pattern, Context.after, Token.lookahead,
    Token.source]

theorem patternFrom_groupClose {multiplicity : Multiplicity} {outer : List Multiplicity}
    (outside : context.classPart = none) (inGroup : context.groups = multiplicity :: outer) :
    patternFrom context (')' :: rest) =
      ')' :: (multiplicity.operator ++ patternFrom { context with groups := outer } rest) := by
  rw [patternFrom_plain outside (by decide) rfl]
  simp [Token.readPlain, inGroup, Token.pattern, Context.after, Token.lookahead,
    Token.source]

end

mutual

/-- The text of a part translates into its pattern, and the translation goes on
behind it. -/
theorem Part.patternFrom_text {context : Context} {rest : Text}
    (outside : context.classPart = none) (part : Part) (written : part.Written context)
    (notParen : rest.head? ≠ some '(') (meets : part.Meets rest) :
    patternFrom context (part.text ++ rest) =
      part.pattern ++ patternFrom context rest := by
  cases part with
  | single value =>
      rw [Part.Written] at written
      rw [Part.text, Part.pattern]
      exact Single.patternFrom_text outside written notParen
  | boundary negated =>
      rw [Part.text, Part.pattern]
      refine (patternFrom_escape outside _).trans ?_
      cases negated with
      | false => rfl
      | true => rfl
  | star =>
      rw [Part.text, Part.pattern]
      exact patternFrom_star outside notParen meets
  | tree slash =>
      rw [Part.pattern]
      exact patternFrom_tree outside meets
  | braces choice =>
      rw [Part.Written] at written
      let inside : Context := { context with braces := context.braces + 1 }
      have within : inside.classPart = none := outside
      have separates : ∀ behind, patternFrom inside (',' :: behind) =
          '|' :: patternFrom inside behind :=
        fun _ => patternFrom_comma outside (Nat.succ_ne_zero _)
      have body : patternFrom inside (choice.text ',' ++ '}' :: rest) =
          choice.pattern ++ patternFrom inside ('}' :: rest) :=
        Choice.patternFrom_text within (by decide) separates choice written
          (Detached.cons (by decide) rest)
      have closes : patternFrom inside ('}' :: rest) = ')' :: patternFrom context rest :=
        patternFrom_braceClose outside (Nat.succ_ne_zero _)
      have reassociated : (Part.braces choice).text ++ rest =
          '{' :: (choice.text ',' ++ '}' :: rest) := by
        simp [Part.text]
      rw [reassociated, patternFrom_braceOpen outside, body, closes, Part.pattern]
      simp
  | group multiplicity choice =>
      rw [Part.Written] at written
      let inside : Context := { context with groups := multiplicity :: context.groups }
      have within : inside.classPart = none := outside
      have separates : ∀ behind, patternFrom inside ('|' :: behind) =
          '|' :: patternFrom inside behind :=
        fun _ => patternFrom_bar outside (List.cons_ne_nil _ _)
      have body : patternFrom inside (choice.text '|' ++ ')' :: rest) =
          choice.pattern ++ patternFrom inside (')' :: rest) :=
        Choice.patternFrom_text within (by decide) separates choice written
          (Detached.cons (by decide) rest)
      have closes : patternFrom inside (')' :: rest) =
          ')' :: (multiplicity.operator ++ patternFrom context rest) :=
        patternFrom_groupClose outside rfl
      have reassociated : (Part.group multiplicity choice).text ++ rest =
          multiplicity.mark :: '(' :: (choice.text '|' ++ ')' :: rest) := by
        simp [Part.text]
      rw [reassociated, patternFrom_groupOpen outside, body, closes, Part.pattern]
      simp

theorem Sequence.patternFrom_text {context : Context} {rest : Text}
    (outside : context.classPart = none) (sequence : Sequence)
    (written : sequence.Written context) (detached : Detached rest) :
    patternFrom context (sequence.text ++ rest) =
      sequence.pattern ++ patternFrom context rest := by
  cases sequence with
  | empty => rw [Sequence.text, Sequence.pattern, List.nil_append, List.nil_append]
  | cons first behind =>
      rw [Sequence.Written] at written
      obtain ⟨firstWritten, meets, behindWritten⟩ := written
      have notParen : (behind.text ++ rest).head? ≠ some '(' := by
        have behindNotParen := Sequence.head?_text_ne_paren behindWritten
        cases text : behind.text with
        | nil => exact detached.notParen
        | cons c more => simpa [text] using behindNotParen
      have firstRead := Part.patternFrom_text outside first firstWritten notParen
        (Part.meets_append meets detached)
      have behindRead := Sequence.patternFrom_text outside behind behindWritten detached
      rw [Sequence.text, Sequence.pattern, List.append_assoc, firstRead, behindRead,
        List.append_assoc]

theorem Choice.patternFrom_text {context : Context} {rest : Text}
    (outside : context.classPart = none) {separator : Char}
    (apart : separator ∉ ['*', '(', '/'])
    (separates : ∀ behind, patternFrom context (separator :: behind) =
      '|' :: patternFrom context behind)
    (choice : Choice) (written : choice.Written context) (detached : Detached rest) :
    patternFrom context (choice.text separator ++ rest) =
      choice.pattern ++ patternFrom context rest := by
  cases choice with
  | last branch =>
      rw [Choice.Written] at written
      rw [Choice.text, Choice.pattern]
      exact Sequence.patternFrom_text outside branch written detached
  | more branch others =>
      rw [Choice.Written] at written
      have branchRead : patternFrom context
            (branch.text ++ separator :: (others.text separator ++ rest)) =
          branch.pattern ++
            patternFrom context (separator :: (others.text separator ++ rest)) :=
        Sequence.patternFrom_text outside branch written.1 (Detached.cons apart _)
      have othersRead := Choice.patternFrom_text outside apart separates others written.2
        detached
      have reassociated : (Choice.more branch others).text separator ++ rest =
          branch.text ++ separator :: (others.text separator ++ rest) := by
        simp [Choice.text]
      rw [reassociated, branchRead, separates, othersRead, Choice.pattern]
      simp

end

/-- One character of the given kind is matched. -/
abbrev oneCharacter (accepts : Char → Prop) : Regex.Extent :=
  fun text start stop => stop = start + 1 ∧ ∃ c, text[start]? = some c ∧ accepts c

theorem spans_atom_iff {value : Regex.Atom} {accepts : Char → Prop}
    (same : ∀ c, value.accepts c = true ↔ accepts c) (text : Text) (start stop : Nat) :
    (Regex.atom value).Spans text start stop ↔ oneCharacter accepts text start stop := by
  simp only [Regex.Spans, oneCharacter, Option.any_eq_true, same]

theorem means_of_atom {pattern : Text} {value : Regex.Atom} {accepts : Char → Prop}
    (reads : Reads pattern [.atom value])
    (same : ∀ c, value.accepts c = true ↔ accepts c) :
    Means pattern (oneCharacter accepts) :=
  reads.means.congr (spans_atom_iff same)

theorem means_of_escaped {c : Char} {value : Regex.Atom} {operand : Regex.Operand}
    {accepts : Char → Prop} (known : Regex.Operand.ofEscaped? c = some operand)
    (notHexadecimal : c ≠ 'x') (regex : operand.regex = .atom value)
    (same : ∀ c, value.accepts c = true ↔ accepts c) :
    Means ['\\', c] (oneCharacter accepts) := by
  have reads := (Regex.readsAs_escaped known notHexadecimal).reads
  rw [regex] at reads
  exact means_of_atom reads same

theorem ofEscaped?_of_isPunctuation {c : Char} (punctuation : isPunctuation c = true)
    (known : ¬ (c = '<' ∨ c = '>')) :
    Regex.Operand.ofEscaped? c = some (.literal (.escaped c)) := by
  simp [Regex.Operand.ofEscaped?, punctuation, known]

theorem means_escapedLiteral {c : Char} (punctuation : isPunctuation c = true)
    (known : ¬ (c = '<' ∨ c = '>')) :
    Means ['\\', c] (oneCharacter (· = c)) := by
  have notHexadecimal : c ≠ 'x' := by
    rintro rfl
    exact absurd punctuation (by decide)
  apply means_of_escaped (ofEscaped?_of_isPunctuation punctuation known) notHexadecimal rfl
  intro other
  exact decide_eq_true_iff

theorem means_plainLiteral {c : Char} (plain : Regex.isOperator c = false) :
    Means [c] (oneCharacter (· = c)) := by
  apply means_of_atom (Regex.readsAs_literal plain).reads
  intro other
  exact decide_eq_true_iff

theorem readsAs_literalPattern {c : Char} (ordinary : c ∉ ['*', '?', '[']) :
    ReadsAs (literalPattern c) (.atom (.literal (.ofCharacter c))) := by
  unfold literalPattern Regex.Literal.ofCharacter
  split
  · next special =>
      simp only [metaCharacters, List.mem_cons, List.not_mem_nil, or_false] at special
      rcases special with rfl | rfl | rfl | rfl | rfl | rfl | rfl | rfl | rfl | rfl | rfl | rfl
      all_goals
        exact Regex.readsAs_escaped (ofEscaped?_of_isPunctuation rfl (by decide)) (by decide)
  · next plain =>
      apply Regex.readsAs_literal
      simp only [metaCharacters, List.mem_cons, List.not_mem_nil, or_false, not_or]
        at plain ordinary
      simp [Regex.isOperator, plain, ordinary]

theorem means_literal {c : Char} (ordinary : c ∉ ['*', '?', '[']) :
    Means (literalPattern c) (oneCharacter (· = c)) := by
  apply means_of_atom (readsAs_literalPattern ordinary).reads
  intro other
  rw [Regex.Atom.accepts, Regex.Literal.value_ofCharacter, decide_eq_true_iff]

/-- An escape that has a meaning in regular expressions has the same one in
globs. -/
theorem means_knownEscape {escaped : Char}
    (known : escaped ∈ ['d', 'w', 's', 'D', 'W', 'S', 'n', 'r', 't']) :
    Means ['\\', escaped] (oneCharacter (Single.escape escaped).Accepts) := by
  simp only [List.mem_cons, List.not_mem_nil, or_false] at known
  rcases known with rfl | rfl | rfl | rfl | rfl | rfl | rfl | rfl | rfl
  all_goals exact means_of_escaped rfl (by decide) rfl (fun _ => Iff.rfl)

theorem isOperator_of_not_isPunctuation {c : Char} (ordinary : isPunctuation c = false) :
    Regex.isOperator c = false := by
  have punctuation : ['(', ')', '|', '[', '{', '\\', '.', '^', '$', '?', '*', '+'].all
      isPunctuation = true := rfl
  by_cases operator : Regex.isOperator c = true
  · have member := of_decide_eq_true operator
    rw [List.all_eq_true.mp punctuation c member] at ordinary
    cases ordinary
  · simpa using operator

private theorem escapeAccepts_of_not_mem {escaped : Char}
    (unknown : escaped ∉ ['d', 'w', 's', 'D', 'W', 'S', 'n', 'r', 't']) (c : Char) :
    escapeAccepts escaped c = true ↔ c = escaped := by
  have noShorthand : Regex.Shorthand.ofLetter? escaped = none := by
    unfold Regex.Shorthand.ofLetter?
    split
    all_goals first
      | rfl
      | exact absurd (by decide) unknown
  unfold escapeAccepts
  split
  · exact absurd (by decide) unknown
  · exact absurd (by decide) unknown
  · exact absurd (by decide) unknown
  · rw [noShorthand]
    exact decide_eq_true_iff

theorem means_escape {context : Context} {escaped : Char}
    (written : (Single.escape escaped).Written context) :
    Means (escapePattern false escaped)
      (oneCharacter (Single.escape escaped).Accepts) := by
  have noBoundary : ¬ (escaped = 'b' ∨ escaped = 'B') := by
    simpa [Single.Written] using written
  by_cases known : escaped ∈ ['d', 'w', 's', 'D', 'W', 'S', 'n', 'r', 't']
  · have pattern : escapePattern false escaped = ['\\', escaped] := by
      simp [escapePattern, noBoundary, known]
    rw [pattern]
    exact means_knownEscape known
  have itself : ∀ text start stop, oneCharacter (· = escaped) text start stop ↔
      oneCharacter (Single.escape escaped).Accepts text start stop := by
    intro text start stop
    simp only [oneCharacter, Single.Accepts, escapeAccepts_of_not_mem known]
  by_cases angle : escaped = '<' ∨ escaped = '>'
  · have pattern : escapePattern false escaped = [escaped] := by
      simp [escapePattern, noBoundary, known, angle]
    rw [pattern]
    apply (means_plainLiteral _).congr itself
    rcases angle with rfl | rfl
    · rfl
    · rfl
  by_cases punctuation : isPunctuation escaped = true
  · have pattern : escapePattern false escaped = ['\\', escaped] := by
      simp [escapePattern, noBoundary, known, angle, punctuation]
    rw [pattern]
    exact (means_escapedLiteral punctuation angle).congr itself
  · have pattern : escapePattern false escaped = [escaped] := by
      simp [escapePattern, noBoundary, known, angle, punctuation]
    rw [pattern]
    apply (means_plainLiteral _).congr itself
    exact isOperator_of_not_isPunctuation (by simpa using punctuation)

theorem readsAs_segmentCharacter :
    ReadsAs segmentCharacter
      (.atom (.bracket true (.union (.literal (.plain '/')) (.literal (.escaped '\\'))))) := by
  intro state idle
  obtain ⟨position, draft, groups, pending⟩ := state
  rcases idle with nothing | parenthesis
  · simp only at nothing
    subst nothing
    exact ⟨_, rfl⟩
  · simp only at parenthesis
    subst parenthesis
    exact ⟨_, rfl⟩

theorem accepts_segmentCharacter (c : Char) :
    (Regex.Atom.bracket true
      (.union (.literal (.plain '/')) (.literal (.escaped '\\')))).accepts c = true ↔
      c ≠ '/' ∧ c ≠ '\\' := by
  simp only [Regex.Atom.accepts, Regex.ClassSet.contains, Regex.Literal.value,
    bne_iff_ne, ne_eq, Bool.not_eq_true, Bool.or_eq_false_iff]
  exact and_congr decide_eq_false_iff_not decide_eq_false_iff_not

theorem Single.means {context : Context} {value : Single} (written : value.Written context) :
    Means value.pattern (oneCharacter value.Accepts) := by
  cases value with
  | literal c =>
      apply means_literal
      intro special
      apply written.1
      simp only [List.mem_cons, List.not_mem_nil, or_false] at special
      rcases special with rfl | rfl | rfl
      all_goals decide
  | escape escaped => exact means_escape written
  | one => exact means_of_atom readsAs_segmentCharacter.reads accepts_segmentCharacter
  | charClass inside =>
      obtain ⟨_, negated, members, parsed⟩ := written
      apply means_of_atom (Regex.reads_of_parse_atom parsed)
      intro c
      constructor
      · intro accepted
        exact ⟨_, parsed, accepted⟩
      · intro accepted
        obtain ⟨value, parsedAs, accepted⟩ := accepted
        rw [parsed] at parsedAs
        cases parsedAs
        exact accepted

theorem Stretch.stop_lt {text : Text} {allowed : Char → Prop} {start stop : Nat}
    (stretch : Stretch text allowed start stop) (further : start < stop) :
    ∃ c, text[start]? = some c ∧ allowed c ∧ Stretch text allowed (start + 1) stop := by
  obtain ⟨c, found, isAllowed⟩ := stretch.2 start (Nat.le_refl start) further
  refine ⟨c, found, isAllowed, further, ?_⟩
  intro place above below
  exact stretch.2 place (Nat.le_of_lt above) below

theorem repeated_iff_stretch {text : Text} {allowed : Char → Prop} {start stop : Nat} :
    Repeated (oneCharacter allowed text) start stop ↔ Stretch text allowed start stop := by
  constructor
  · intro repeated
    induction repeated with
    | done place =>
        refine ⟨Nat.le_refl place, ?_⟩
        intro other above below
        exact absurd below (Nat.not_lt_of_le above)
    | more step _ ih =>
        obtain ⟨rfl, c, found, isAllowed⟩ := step
        refine ⟨Nat.le_of_lt ih.1, ?_⟩
        intro place above below
        rcases Nat.lt_or_eq_of_le above with further | rfl
        · exact ih.2 place further below
        · exact ⟨c, found, isAllowed⟩
  · intro stretch
    obtain ⟨size, rfl⟩ := Nat.le.dest stretch.1
    induction size generalizing start with
    | zero => exact .done start
    | succ size ih =>
        obtain ⟨c, found, isAllowed, rest⟩ := stretch.stop_lt (by omega)
        have later : start + (size + 1) = start + 1 + size := by omega
        rw [later] at rest ⊢
        exact .more ⟨rfl, c, found, isAllowed⟩ (ih rest)

theorem means_boundary (negated : Bool) :
    Means (Part.boundary negated).pattern (fun text => (Part.boundary negated).Spans text) := by
  cases negated with
  | false =>
      have known : Regex.Operand.ofEscaped? 'b' = some (.boundary false) := rfl
      have reads : ReadsAs ['\\', 'b'] (.assertion .boundary) :=
        Regex.readsAs_escaped known (by decide)
      apply reads.reads.means.congr
      intro text start stop
      simp [Regex.Spans, Regex.Assertion.holds, Part.Spans]
  | true =>
      have known : Regex.Operand.ofEscaped? 'B' = some (.boundary true) := rfl
      have reads : ReadsAs ['\\', 'B'] (.assertion .noBoundary) :=
        Regex.readsAs_escaped known (by decide)
      apply reads.reads.means.congr
      intro text start stop
      simp [Regex.Spans, Regex.Assertion.holds, Part.Spans]

theorem means_star : Means Part.star.pattern (fun text => Part.star.Spans text) := by
  have reads := readsAs_segmentCharacter.repeated (by simp) .star
  apply reads.reads.means.congr
  intro text start stop
  have once := spans_atom_iff accepts_segmentCharacter text
  exact (Regex.Repetition.star.spans_congr once start stop).trans repeated_iff_stretch

theorem means_tree (slash : Bool) :
    Means (Part.tree slash).pattern (fun text => (Part.tree slash).Spans text) := by
  have reads := Regex.readsAs_dot.repeated (by simp) .star
  have accepts : ∀ c, Regex.Atom.dot.accepts c = true ↔ c ≠ '\n' := by
    intro c
    exact bne_iff_ne
  apply reads.reads.means.congr
  intro text start stop
  have once := spans_atom_iff accepts text
  exact (Regex.Repetition.star.spans_congr once start stop).trans repeated_iff_stretch

theorem means_group {body : Text} {extent : Regex.Extent} (multiplicity : Multiplicity)
    (means : MeansAny body extent) :
    Means ('(' :: '?' :: ':' :: (body ++ ')' :: multiplicity.operator))
      (fun text start stop => multiplicity.Spans (extent text) start stop) := by
  cases multiplicity with
  | zeroOrOne => exact means.repeated .optional
  | zeroOrMore => exact means.repeated .star
  | oneOrMore => exact means.repeated .plus
  | exactlyOne => exact means.group

mutual

/-- The pattern of a part means what the part matches. -/
theorem Part.means {context : Context} (part : Part) (written : part.Written context) :
    Means part.pattern (fun text => part.Spans text) := by
  cases part with
  | single value =>
      rw [Part.Written] at written
      rw [Part.pattern]
      apply (Single.means written).congr
      intro text start stop
      rw [Part.Spans]
  | boundary negated => exact means_boundary negated
  | star => exact means_star
  | tree slash => exact means_tree slash
  | braces choice =>
      rw [Part.Written] at written
      rw [Part.pattern]
      apply (Choice.meansAny choice written).capture.congr
      intro text start stop
      rw [Part.Spans]
  | group multiplicity choice =>
      rw [Part.Written] at written
      rw [Part.pattern]
      apply (means_group multiplicity (Choice.meansAny choice written)).congr
      intro text start stop
      rw [Part.Spans]

theorem Sequence.means {context : Context} (sequence : Sequence)
    (written : sequence.Written context) :
    Means sequence.pattern (fun text => sequence.Spans text) := by
  cases sequence with
  | empty =>
      rw [Sequence.pattern]
      apply Means.nil.congr
      intro text start stop
      rw [Sequence.Spans]
  | cons first rest =>
      rw [Sequence.Written] at written
      rw [Sequence.pattern]
      apply ((Part.means first written.1).append (Sequence.means rest written.2.2)).congr
      intro text start stop
      rw [Sequence.Spans]

theorem Choice.meansAny {context : Context} (choice : Choice)
    (written : choice.Written context) :
    MeansAny choice.pattern (fun text => choice.Spans text) := by
  cases choice with
  | last branch =>
      rw [Choice.Written] at written
      rw [Choice.pattern]
      apply (Sequence.means branch written).meansAny.congr
      intro text start stop
      rw [Choice.Spans]
  | more branch rest =>
      rw [Choice.Written] at written
      rw [Choice.pattern]
      have first := (Sequence.means branch written.1).meansAny
      apply (first.or (Choice.meansAny rest written.2)).congr
      intro text start stop
      rw [Choice.Spans]

end

theorem compile_anchored_eq_ok_iff {glob : Text} {compiled : CompiledRegex} :
    compile glob true = .ok compiled ↔
      ∃ regex, Regex.parse (anchor (patternFrom {} glob)) = .ok regex ∧
        regex.Accepted ∧ compiled = CompiledRegex.ofRegex regex := by
  rw [← Regex.compile_eq_ok_iff]
  have whole : compile glob true =
      (Regex.compile (anchor (patternFrom {} glob))).mapError
        (.regex (anchor (patternFrom {} glob))) := rfl
  rw [whole, Regex.mapError_eq_ok_iff]

/-- The pattern of a written tree reads as an expression that matches a candidate
exactly if the tree does. -/
theorem Sequence.exists_parse_anchored (glob : Sequence) (written : glob.Written {}) :
    ∃ regex, Regex.parse (anchor (patternFrom {} glob.text)) = .ok regex ∧
      ∀ candidate, (CompiledRegex.ofRegex regex).isMatch candidate = true ↔
        glob.Matches candidate := by
  have translated : patternFrom {} (glob.text ++ []) = glob.pattern ++ patternFrom {} [] :=
    Sequence.patternFrom_text rfl glob written Detached.nil
  rw [List.append_nil, patternFrom_nil, List.append_nil] at translated
  rw [translated]
  exact (Sequence.means glob written).isMatch_anchored

/-- Whenever the text of a written tree compiles, it matches what the tree
matches. -/
theorem Sequence.isMatch_of_compile {glob : Sequence} (written : glob.Written {})
    {compiled : CompiledRegex} (built : compile glob.text true = .ok compiled)
    (candidate : Text) :
    compiled.isMatch candidate = true ↔ glob.Matches candidate := by
  obtain ⟨regex, parsed, matched⟩ := glob.exists_parse_anchored written
  obtain ⟨same, parsedAs, _, rfl⟩ := compile_anchored_eq_ok_iff.mp built
  rw [parsed] at parsedAs
  cases parsedAs
  exact matched candidate

end ShellGlob.Glob
