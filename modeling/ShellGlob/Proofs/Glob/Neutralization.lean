import ShellGlob.Glob.Negation
import ShellGlob.Proofs.Glob.Escapes

/-!
# Neutralised negations

In the positive variant of a glob a `*` stands for each negation.  The variant
is read like any other text, so such a `*` may come to mean something else: it
is a member inside a class, and next to another `*` or before a `(` it becomes
part of a longer token.

`readApart` reads the gaps between the negations one after the other and puts a
star token for each negation.  The variant has this reading, and the pattern
that belongs to it, exactly if every negation stands apart (`StandsApart`).
-/

namespace ShellGlob.Glob

/-- The text before the first negation, and the texts behind each of them. -/
def gaps : List Piece → Text × List Text
  | [] => ([], [])
  | .text content :: rest => (content ++ (gaps rest).1, (gaps rest).2)
  | .negation _ :: rest => ([], (gaps rest).1 :: (gaps rest).2)

/-- The gaps with a `*` before each further one. -/
def joined (gap : Text) (more : List Text) : Text :=
  gap ++ more.flatMap ('*' :: ·)

theorem joined_cons (gap next : Text) (more : List Text) :
    joined gap (next :: more) = gap ++ '*' :: joined next more := by
  simp [joined]

theorem resolveFrom_none (index : Nat) (cutUp : List Piece) :
    resolveFrom none index cutUp = joined (gaps cutUp).1 (gaps cutUp).2 := by
  induction cutUp generalizing index with
  | nil => rfl
  | cons piece rest ih =>
      cases piece with
      | text content => simp [resolveFrom, gaps, joined, ih]
      | negation inner => simp [resolveFrom, gaps, joined, ih, replacement]

private theorem positive_eq_joined (glob : Text) :
    positive glob = joined (gaps (pieces glob)).1 (gaps (pieces glob)).2 :=
  resolveFrom_none 0 (pieces glob)

theorem length_negationsFrom (offset : Nat) (cutUp : List Piece) :
    (negationsFrom offset cutUp).length = (gaps cutUp).2.length := by
  induction cutUp generalizing offset with
  | nil => rfl
  | cons piece rest ih =>
      cases piece with
      | text content => simp [negationsFrom, gaps, ih]
      | negation inner => simp [negationsFrom, gaps, ih]

theorem length_gaps (glob : Text) :
    (gaps (pieces glob)).2.length = (negations glob).length :=
  (length_negationsFrom 0 (pieces glob)).symm

/-- Every gap before a negation has its escapes paired. -/
def AllPaired (gap : Text) : List Text → Prop
  | [] => True
  | next :: more => escapesPaired gap = true ∧ AllPaired next more

private theorem allPaired_text {content gap : Text} {more : List Text}
    (keeps : escapesPaired (content ++ gap) = escapesPaired gap)
    (paired : AllPaired gap more) : AllPaired (content ++ gap) more := by
  cases more with
  | nil => trivial
  | cons next more => exact ⟨keeps.trans paired.1, paired.2⟩

/-- A backslash escapes its character before a negation can start. -/
theorem allPaired_gaps (glob : Text) :
    AllPaired (gaps (pieces glob)).1 (gaps (pieces glob)).2 := by
  induction glob using pieces.induct with
  | case1 => simp [pieces, gaps, AllPaired]
  | case2 c rest ih =>
      rw [pieces]
      unfold cut at ih ⊢
      split at ih
      · exact ⟨rfl, ih⟩
      · next escaped behind _ _ =>
          by_cases escape : c = '\\'
          · rw [if_pos escape] at ih ⊢
            apply allPaired_text _ ih
            simp [escapesPaired, escape]
          · rw [if_neg escape] at ih ⊢
            exact allPaired_text (escapesPaired_cons escape _) ih
      · simp [pieces, gaps, AllPaired]

section

variable {context : Context} {rest : Text}

theorem Context.classPart_eq_none (outside : context.inClass = false) :
    context.classPart = none := by
  simpa [Context.inClass] using outside

private theorem Context.read_star (outside : context.inClass = false)
    (notStar : rest.head? ≠ some '*') (notParen : rest.head? ≠ some '(') :
    context.read '*' rest = .star := by
  have unopened : Multiplicity.opening? '*' rest = none := by
    simp [Multiplicity.opening?, notParen]
  rw [Context.read_plain (by decide) (Context.classPart_eq_none outside) unopened]
  cases rest with
  | nil => rfl
  | cons c rest =>
      have different : c ≠ '*' := by simpa using notStar
      simp [Token.readPlain, Token.readStar_cons, different]

theorem Context.read_star_star (outside : context.inClass = false) :
    context.read '*' ('*' :: rest) = .tree (rest.head? = some '/') := by
  rw [Context.read_plain (by decide) (Context.classPart_eq_none outside)
    (by simp [Multiplicity.opening?])]
  simp [Token.readPlain, Token.readStar_cons]

theorem Context.read_star_paren (outside : context.inClass = false) :
    context.read '*' ('(' :: rest) = .groupOpen .zeroOrMore :=
  Context.read_opening (by decide) (Context.classPart_eq_none outside) rfl

theorem Context.read_star_inClass (inside : context.inClass = true) :
    context.read '*' rest = .member false '*' := by
  obtain ⟨part, location⟩ := Option.isSome_iff_exists.mp inside
  simp [Context.read, location, Token.readMember]

theorem tokens_star (outside : context.inClass = false)
    (notStar : rest.head? ≠ some '*') (notParen : rest.head? ≠ some '(') :
    tokens context ('*' :: rest) = .star :: tokens context rest := by
  rw [tokens_cons, Context.read_star outside notStar notParen]
  rfl

end

/-- The tokens of the gaps, which are read one after the other, and a star for
each negation between them. -/
def readApart (context : Context) (gap : Text) : List Text → List Token
  | [] => tokens context gap
  | next :: more =>
      tokens context gap ++
        .star :: readApart (context.afterAll (tokens context gap)) next more

/-- No negation stands in a class, behind a single `*`, or before a `*`, a `(`
or another negation. -/
def StandsApart (context : Context) (gap : Text) : List Text → Prop
  | [] => True
  | next :: more =>
      let here := context.afterAll (tokens context gap)
      here.inClass = false ∧ (tokens context gap).getLast? ≠ some .star ∧
        next.head? ≠ some '*' ∧ next.head? ≠ some '(' ∧ (next = [] → more = []) ∧
        StandsApart here next more

instance StandsApart.decidable (context : Context) (gap : Text) :
    (more : List Text) → Decidable (StandsApart context gap more)
  | [] => .isTrue trivial
  | next :: more =>
      have := StandsApart.decidable (context.afterAll (tokens context gap)) next more
      inferInstanceAs (Decidable (_ ∧ _ ∧ _ ∧ _ ∧ (_ → _) ∧ _))

theorem head?_joined_eq_paren_iff (gap : Text) (more : List Text) :
    (joined gap more).head? = some '(' ↔ gap.head? = some '(' := by
  cases gap with
  | nil =>
      cases more with
      | nil => simp [joined]
      | cons next more => simp [joined]
  | cons c gap => simp [joined]

theorem head?_joined_eq_star_iff (gap : Text) (more : List Text) :
    (joined gap more).head? = some '*' ↔
      gap.head? = some '*' ∨ (gap = [] ∧ more ≠ []) := by
  cases gap with
  | nil =>
      cases more with
      | nil => simp [joined]
      | cons next more => simp [joined]
  | cons c gap => simp [joined]

theorem tokens_gap_append {context : Context} {gap rest : Text}
    (paired : escapesPaired gap = true)
    (notStar : (tokens context gap).getLast? ≠ some .star) :
    tokens context (gap ++ '*' :: rest) =
      tokens context gap ++
        tokens (context.afterAll (tokens context gap)) ('*' :: rest) := by
  apply tokens_append
  intro last isLast c isNext
  rw [Option.mem_def] at isLast
  have star : c = '*' := by simpa [eq_comm] using isNext
  subst star
  cases last with
  | backslash inClass => exact absurd isLast (getLast?_tokens_ne_backslash paired inClass)
  | star => exact absurd isLast notStar
  | _ => simp [Token.growsBefore]

theorem tokens_joined {context : Context} {gap : Text} {more : List Text}
    (paired : AllPaired gap more) (apart : StandsApart context gap more) :
    tokens context (joined gap more) = readApart context gap more := by
  induction more generalizing context gap with
  | nil => simp [joined, readApart]
  | cons next more ih =>
      obtain ⟨outside, notStar, nextNotStar, nextNotParen, alone, apart⟩ := apart
      have restNotStar : (joined next more).head? ≠ some '*' := by
        rw [Ne, head?_joined_eq_star_iff, not_or]
        refine ⟨nextNotStar, ?_⟩
        intro empty
        exact empty.2 (alone empty.1)
      have restNotParen : (joined next more).head? ≠ some '(' := by
        rw [Ne, head?_joined_eq_paren_iff]
        exact nextNotParen
      rw [joined_cons, tokens_gap_append paired.1 notStar,
        tokens_star outside restNotStar restNotParen, ih paired.2 apart]
      rfl

/-- A single `*` at the end of a gap is read together with the one behind it. -/
theorem tokens_gap_star {context : Context} {gap : Text} (rest : Text)
    (star : (tokens context gap).getLast? = some .star) :
    ∃ front slash behind, tokens context gap = front ++ [.star] ∧
      tokens context (gap ++ '*' :: rest) = front ++ .tree slash :: behind := by
  obtain ⟨front, read⟩ := List.getLast?_eq_some_iff.mp star
  obtain ⟨tail, readTail, readOn⟩ := tokens_append_of_eq read
  have single : tail = ['*'] := by
    rw [← flatMap_source_tokens (context.afterAll front) tail, readTail]
    rfl
  subst single
  have outside : (context.afterAll front).inClass = false := by
    by_cases inside : (context.afterAll front).inClass = true
    · rw [tokens_cons, Context.read_star_inClass inside] at readTail
      simp at readTail
    · simpa using inside
  have readStars := readOn ('*' :: rest)
  rw [List.singleton_append, tokens_cons, Context.read_star_star outside] at readStars
  exact ⟨front, _, _, read, readStars⟩

/-- Behind what has been read alike, a star token is told from any other that
starts with a `*`. -/
theorem pattern_ne_of_token {front rest behind : List Token} {token : Token}
    (different : token.pattern.head? ≠ some '[') (written : token.pattern ≠ []) :
    (front ++ token :: behind).flatMap Token.pattern ≠
      (front ++ .star :: rest).flatMap Token.pattern := by
  intro same
  rw [List.flatMap_append, List.flatMap_append, List.append_cancel_left_eq,
    List.flatMap_cons, List.flatMap_cons] at same
  cases pattern : token.pattern with
  | nil => exact written pattern
  | cons c tail =>
      rw [pattern] at same different
      simp [Token.pattern, segmentCharacter] at same
      exact different (by rw [same.1]; rfl)

theorem standsApart_of_pattern {context : Context} {gap : Text} {more : List Text}
    (paired : AllPaired gap more)
    (same : (tokens context (joined gap more)).flatMap Token.pattern =
      (readApart context gap more).flatMap Token.pattern) :
    StandsApart context gap more := by
  induction more generalizing context gap with
  | nil => trivial
  | cons next more ih =>
      -- A `*` that is no star token does not write the `[` that a star token starts with.
      rw [joined_cons, readApart] at same
      have notStar : (tokens context gap).getLast? ≠ some .star := by
        intro star
        obtain ⟨front, slash, behind, read, readOn⟩ :=
          tokens_gap_star (joined next more) star
        rw [readOn, read, List.append_assoc] at same
        exact pattern_ne_of_token (by simp [Token.pattern]) (by simp [Token.pattern]) same
      rw [tokens_gap_append paired.1 notStar] at same
      let here := context.afterAll (tokens context gap)
      have outside : here.inClass = false := by
        by_cases inside : here.inClass = true
        · rw [tokens_cons, Context.read_star_inClass inside] at same
          exact absurd same
            (pattern_ne_of_token (by simp [Token.pattern]) (by simp [Token.pattern]))
        · simpa using inside
      have restNotStar : (joined next more).head? ≠ some '*' := by
        intro star
        obtain ⟨behind, split⟩ := List.head?_eq_some_iff.mp star
        rw [split, tokens_cons, Context.read_star_star outside] at same
        exact pattern_ne_of_token (by simp [Token.pattern]) (by simp [Token.pattern]) same
      have restNotParen : (joined next more).head? ≠ some '(' := by
        intro paren
        obtain ⟨behind, split⟩ := List.head?_eq_some_iff.mp paren
        rw [split, tokens_cons, Context.read_star_paren outside] at same
        exact pattern_ne_of_token (by simp [Token.pattern]) (by simp [Token.pattern]) same
      have later : StandsApart here next more := by
        apply ih paired.2
        rw [tokens_star outside restNotStar restNotParen] at same
        simpa using same
      rw [Ne, head?_joined_eq_star_iff, not_or] at restNotStar
      rw [Ne, head?_joined_eq_paren_iff] at restNotParen
      refine ⟨outside, notStar, restNotStar.1, restNotParen, ?_, later⟩
      intro empty
      by_cases last : more = []
      · exact last
      · exact absurd ⟨empty, last⟩ restNotStar.2

theorem pattern?_of_ne_nil {glob : Text} (written : patternFrom {} glob ≠ []) :
    pattern? glob false = some (patternFrom {} glob) := by
  simp [pattern?, written]

private theorem readApart_ne_nil (context : Context) (gap next : Text) (more : List Text) :
    (readApart context gap (next :: more)).flatMap Token.pattern ≠ [] := by
  simp [readApart, Token.pattern, segmentCharacter]

/-- A glob with negations is neutralised into its gaps, read on their own one
after the other, with a star for each negation between them, exactly if every
negation stands apart.  Both the tokens and the pattern of the positive variant
tell so. -/
theorem positive_isReadApart_iff (glob : Text) (negated : negations glob ≠ []) :
    let first := (gaps (pieces glob)).1
    let more := (gaps (pieces glob)).2
    (tokens {} (positive glob) = readApart {} first more ↔
        StandsApart {} first more) ∧
      (pattern? (positive glob) false =
          some ((readApart {} first more).flatMap Token.pattern) ↔
        StandsApart {} first more) := by
  intro first more
  have paired : AllPaired first more := allPaired_gaps glob
  have whole : positive glob = joined first more := positive_eq_joined glob
  have nonempty : more ≠ [] := by
    intro empty
    have count := length_gaps glob
    rw [show (gaps (pieces glob)).2 = [] from empty] at count
    exact negated (List.length_eq_zero_iff.mp count.symm)
  obtain ⟨next, others, split⟩ := List.exists_cons_of_ne_nil nonempty
  have written : (readApart {} first more).flatMap Token.pattern ≠ [] := by
    rw [split]
    exact readApart_ne_nil {} first next others
  rw [whole]
  refine ⟨⟨?_, tokens_joined paired⟩, ?_, ?_⟩
  · intro read
    exact standsApart_of_pattern paired (by rw [read])
  · intro pattern
    apply standsApart_of_pattern paired
    by_cases empty : patternFrom {} (joined first more) = []
    · simp [pattern?, empty] at pattern
    · rw [pattern?_of_ne_nil empty] at pattern
      exact Option.some.inj pattern
  · intro apart
    have same : patternFrom {} (joined first more) =
        (readApart {} first more).flatMap Token.pattern := by
      rw [patternFrom, tokens_joined paired apart]
    rw [pattern?_of_ne_nil (by rw [same]; exact written), same]

theorem positive_isReadApart_twoNegations :
    let glob := "src/!(a|b).!(c)?/**".toList
    negations glob ≠ [] ∧
      pattern? (positive glob) false =
        some "src\\/[^/\\\\]*\\.[^/\\\\]*[^/\\\\]\\/.*".toList := by
  intro glob
  have negated : negations glob ≠ [] := by decide +kernel
  have apart : StandsApart {} (gaps (pieces glob)).1 (gaps (pieces glob)).2 := by
    decide +kernel
  refine ⟨negated, ?_⟩
  rw [(positive_isReadApart_iff glob negated).2.mpr apart]
  decide +kernel

/-- Before a `(` a negation is not neutralised into a star of its own. -/
theorem positive_not_readApart_before_paren :
    let glob := "!(a)(b)".toList
    negations glob ≠ [] ∧
      pattern? (positive glob) false = some "(?:b)*".toList ∧
      (readApart {} (gaps (pieces glob)).1 (gaps (pieces glob)).2).flatMap
          Token.pattern = "[^/\\\\]*\\(b\\)".toList ∧
      pattern? (positive glob) false ≠
        some ((readApart {} (gaps (pieces glob)).1 (gaps (pieces glob)).2).flatMap
          Token.pattern) := by
  decide +kernel

end ShellGlob.Glob
