import ShellGlob.Glob.Pattern

/-!
# Reading a glob in parts

A token is read with the text behind it in view, so a text may be read
differently when more text follows.  This happens only at the seam: the last
token before it may grow (`Token.growsBefore`).  Where it does not, reading
goes on behind the seam from the context there (`tokens_append`).
-/

namespace ShellGlob.Glob

theorem tokens_nil (context : Context) : tokens context [] = [] := by
  rw [tokens]

theorem tokens_cons (context : Context) (c : Char) (rest : Text) :
    tokens context (c :: rest) =
      context.read c rest ::
        tokens (context.after (context.read c rest))
          (rest.drop (context.read c rest).lookahead) := by
  rw [tokens]

@[simp] theorem Context.afterAll_nil (context : Context) :
    context.afterAll [] = context := rfl

@[simp] theorem Context.afterAll_cons (context : Context) (token : Token)
    (rest : List Token) :
    context.afterAll (token :: rest) = (context.after token).afterAll rest := rfl

theorem Context.afterAll_append (context : Context) (front rest : List Token) :
    context.afterAll (front ++ rest) = (context.afterAll front).afterAll rest :=
  List.foldl_append

theorem exists_read_of_isPrefix {context : Context} {token : Token} {front : List Token}
    {text : Text} (isPrefix : token :: front <+: tokens context text) :
    ∃ c rest, token = context.read c rest ∧
      front <+: tokens (context.after (context.read c rest))
        (rest.drop (context.read c rest).lookahead) := by
  cases text with
  | nil => simp [tokens_nil] at isPrefix
  | cons c rest =>
      rw [tokens_cons, List.cons_prefix_cons] at isPrefix
      exact ⟨c, rest, isPrefix⟩

/-- What stands behind some tokens of a text is read from a text as well. -/
theorem exists_tokens_of_append {context : Context} {text : Text} {front rest : List Token}
    (whole : tokens context text = front ++ rest) :
    ∃ behind, rest = tokens (context.afterAll front) behind := by
  induction front generalizing context text with
  | nil => exact ⟨text, whole.symm⟩
  | cons token front ih =>
      cases text with
      | nil =>
          rw [tokens_nil] at whole
          cases whole
      | cons c text =>
          rw [tokens_cons, List.cons_append] at whole
          obtain ⟨rfl, behind⟩ := List.cons.inj whole
          exact ih behind

theorem exists_read_of_append {context : Context} {text : Text} {front rest : List Token}
    {token : Token} (whole : tokens context text = front ++ token :: rest) :
    ∃ c behind, token = (context.afterAll front).read c behind := by
  obtain ⟨behind, same⟩ := exists_tokens_of_append whole
  cases behind with
  | nil =>
      rw [tokens_nil] at same
      cases same
  | cons c behind =>
      rw [tokens_cons] at same
      exact ⟨c, behind, (List.cons.inj same).1⟩

/-- Whether a token that ends a text is read otherwise if `c` follows. -/
def Token.growsBefore (c : Char) : Token → Bool
  | .backslash _ => true
  | .member _ listed => listed = '-' && c = '-'
  | .tree slash => !slash && c = '/'
  | .star => c = '*' || c = '('
  | .one => c = '('
  | .literal mark => (Multiplicity.ofMark? mark).isSome && c = '('
  | .escape _ _ | .classOpen | .classClose | .complement | .groupOpen _ | .groupClose _
  | .braceOpen | .braceClose | .comma | .bar => false

theorem Token.readStar_cons (c : Char) (rest : Text) :
    Token.readStar (c :: rest) =
      if c = '*' then .tree (rest.head? = some '/') else .star := by
  by_cases star : c = '*'
  · subst star
    cases rest with
    | nil => rfl
    | cons d rest =>
        by_cases slash : d = '/'
        · simp [readStar, slash]
        · simp [readStar, slash]
  · simp [readStar, star]

/-- A token that does not end its text depends on no more than that text. -/
theorem Context.read_append_of_more (context : Context) (c d e : Char)
    (rest more : Text) :
    context.read c (d :: e :: rest ++ more) = context.read c (d :: e :: rest) := by
  have sameStar : Token.readStar (d :: e :: rest ++ more) =
      Token.readStar (d :: e :: rest) := by
    simp [Token.readStar_cons]
  have samePlain : Token.readPlain context c (d :: e :: rest ++ more) =
      Token.readPlain context c (d :: e :: rest) := by
    unfold Token.readPlain
    rw [sameStar]
  unfold Context.read
  rw [samePlain]
  rfl

theorem Token.readPlain_of_ne_star {context : Context} {c : Char}
    (notStar : c ≠ '*') (rest other : Text) :
    Token.readPlain context c rest = Token.readPlain context c other := by
  unfold Token.readPlain
  split
  · rfl
  · rfl
  · exact absurd rfl notStar
  all_goals rfl

theorem Multiplicity.opening?_cons_eq_none {c d : Char} {rest : Text}
    (unopened : ¬ ((Multiplicity.ofMark? c).isSome = true ∧ d = '(')) :
    Multiplicity.opening? c (d :: rest) = none := by
  by_cases paren : d = '('
  · have noMark : Multiplicity.ofMark? c = none := by
      simpa [paren] using unopened
    simp [Multiplicity.opening?, noMark]
  · simp [Multiplicity.opening?, paren]

private theorem Multiplicity.eq_of_opening? {c : Char} {rest : Text}
    {multiplicity : Multiplicity}
    (opened : Multiplicity.opening? c rest = some multiplicity) :
    ∃ behind, c = multiplicity.mark ∧ rest = '(' :: behind := by
  cases rest with
  | nil => simp [Multiplicity.opening?] at opened
  | cons d behind =>
      by_cases paren : d = '('
      · rw [Multiplicity.opening?, paren, List.head?_cons, if_pos rfl] at opened
        exact ⟨behind, Multiplicity.ofMark?_eq_some_iff.mp opened, by rw [paren]⟩
      · simp [Multiplicity.opening?, paren] at opened

theorem Context.read_opening {context : Context} {c : Char} {rest : Text}
    {multiplicity : Multiplicity} (notEscape : c ≠ '\\')
    (outside : context.classPart = none)
    (opened : Multiplicity.opening? c rest = some multiplicity) :
    context.read c rest = .groupOpen multiplicity := by
  simp [Context.read, notEscape, outside, opened]

theorem Context.read_plain {context : Context} {c : Char} {rest : Text}
    (notEscape : c ≠ '\\') (outside : context.classPart = none)
    (unopened : Multiplicity.opening? c rest = none) :
    context.read c rest = Token.readPlain context c rest := by
  simp [Context.read, notEscape, outside, unopened]

theorem Context.read_plain_of_not_mark {context : Context} {c : Char}
    (notEscape : c ≠ '\\') (outside : context.classPart = none)
    (notMark : Multiplicity.ofMark? c = none) (rest : Text) :
    context.read c rest = Token.readPlain context c rest :=
  Context.read_plain notEscape outside (by simp [Multiplicity.opening?, notMark])

/-- The last token of a text is read as before if it does not grow. -/
theorem Context.read_of_last (context : Context) (c d : Char) (more : Text)
    (stays : (context.read c []).growsBefore d = false) :
    context.read c (d :: more) = context.read c [] := by
  by_cases escape : c = '\\'
  · subst escape
    simp [Context.read, Token.readEscape, Token.growsBefore] at stays
  cases location : context.classPart with
  | some part =>
      by_cases dash : c = '-' ∧ d = '-'
      · obtain ⟨rfl, rfl⟩ := dash
        simp [Context.read, location, Token.readMember, Token.growsBefore] at stays
      · simp [Context.read, escape, location, Token.readMember, dash]
  | none =>
      rw [Context.read_plain escape location rfl] at stays
      have unopened : ¬ ((Multiplicity.ofMark? c).isSome = true ∧ d = '(') := by
        intro opens
        obtain ⟨isMark, rfl⟩ := opens
        obtain ⟨multiplicity, mark⟩ := Option.isSome_iff_exists.mp isMark
        rw [Multiplicity.ofMark?_eq_some_iff] at mark
        subst mark
        cases multiplicity with
        | zeroOrOne | zeroOrMore | oneOrMore | exactlyOne =>
            simp [Token.readPlain, Token.readStar, Token.growsBefore,
              Multiplicity.mark, Multiplicity.ofMark?] at stays
      have alone : Multiplicity.opening? c [] = none := rfl
      rw [Context.read_plain escape location alone,
        Context.read_plain escape location (Multiplicity.opening?_cons_eq_none unopened)]
      by_cases star : c = '*'
      · subst star
        have notDoubled : d ≠ '*' := by
          intro doubled
          simp [Token.readPlain, Token.readStar, Token.growsBefore, doubled] at stays
        simp [Token.readPlain, notDoubled, Token.readStar]
      · exact Token.readPlain_of_ne_star star _ _

/-- Behind a further character only `**` looks, for a slash. -/
theorem Context.read_of_next_to_last (context : Context) (c d e : Char)
    (more : Text) (stays : context.read c [d] = .tree false → e ≠ '/') :
    context.read c (d :: e :: more) = context.read c [d] := by
  by_cases escape : c = '\\'
  · simp [Context.read, escape, Token.readEscape]
  cases location : context.classPart with
  | some part => simp [Context.read, escape, location, Token.readMember]
  | none =>
      have sameOpening : Multiplicity.opening? c (d :: e :: more) =
          Multiplicity.opening? c [d] := rfl
      cases opened : Multiplicity.opening? c [d] with
      | some multiplicity =>
          simp [Context.read, escape, location, sameOpening, opened]
      | none =>
          rw [Context.read_plain escape location opened] at stays ⊢
          rw [Context.read_plain escape location (sameOpening.trans opened)]
          by_cases star : c = '*'
          · subst star
            by_cases doubled : d = '*'
            · have notSlash : e ≠ '/' := by
                apply stays
                simp [Token.readPlain, Token.readStar_cons, doubled]
              simp [Token.readPlain, Token.readStar_cons, doubled, notSlash]
            · simp [Token.readPlain, Token.readStar_cons, doubled]
          · exact Token.readPlain_of_ne_star star _ _

theorem Context.read_append {context : Context} {c : Char} {rest more : Text}
    (stays : rest.drop (context.read c rest).lookahead = [] →
      ∀ d ∈ more.head?, (context.read c rest).growsBefore d = false) :
    context.read c (rest ++ more) = context.read c rest := by
  cases more with
  | nil => simp
  | cons next more =>
      match rest with
      | d :: e :: rest =>
          exact context.read_append_of_more c d e rest (next :: more)
      | [] => exact context.read_of_last c next more (stays (by simp) next rfl)
      | [d] =>
          apply context.read_of_next_to_last
          intro tree slash
          rw [tree] at stays
          have fixed := stays rfl next rfl
          simp [Token.growsBefore, slash] at fixed

private theorem Token.source_readStar_append (rest : Text) :
    (Token.readStar rest).source ++ rest.drop (Token.readStar rest).lookahead =
      '*' :: rest := by
  cases rest with
  | nil => rfl
  | cons c rest =>
      rw [Token.readStar_cons]
      by_cases star : c = '*'
      · cases rest with
        | nil => simp [star, Token.lookahead, Token.source]
        | cons d rest =>
            by_cases slash : d = '/'
            · simp [star, slash, Token.lookahead, Token.source]
            · simp [star, slash, Token.lookahead, Token.source]
      · simp [star, Token.lookahead, Token.source]

theorem Token.source_readMember (part : ClassPart) (c : Char) (rest : Text) :
    (Token.readMember part c rest).source = [c] := by
  unfold Token.readMember
  split
  · next closes => rw [closes, Token.source]
  split
  · next complements => rw [complements.1, Token.source]
  split
  · rfl
  split
  · rfl
  · rfl

theorem Token.source_readPlain_of_ne_star {context : Context} {c : Char}
    (notStar : c ≠ '*') (rest : Text) :
    (Token.readPlain context c rest).source = [c] := by
  unfold Token.readPlain
  split
  any_goals rfl
  · exact absurd rfl notStar
  all_goals
    split
    all_goals rfl

/-- A token and the text behind it are the text it was read from. -/
theorem Context.source_read_append (context : Context) (c : Char) (rest : Text) :
    (context.read c rest).source ++ rest.drop (context.read c rest).lookahead =
      c :: rest := by
  by_cases escape : c = '\\'
  · cases rest with
    | nil => simp [Context.read, escape, Token.readEscape, Token.lookahead, Token.source]
    | cons d rest =>
        simp [Context.read, escape, Token.readEscape, Token.lookahead, Token.source]
  cases location : context.classPart with
  | some part =>
      simp [Context.read, escape, location, Token.source_readMember, Token.lookahead]
  | none =>
      cases opened : Multiplicity.opening? c rest with
      | some multiplicity =>
          obtain ⟨behind, mark, rfl⟩ := Multiplicity.eq_of_opening? opened
          rw [Context.read_opening escape location opened, mark]
          rfl
      | none =>
          rw [Context.read_plain escape location opened]
          by_cases star : c = '*'
          · subst star
            exact Token.source_readStar_append rest
          · simp [Token.lookahead, Token.source_readPlain_of_ne_star star]

theorem Context.lookahead_read_le (context : Context) (c : Char) (rest : Text) :
    (context.read c rest).lookahead ≤ rest.length := by
  have whole := congrArg List.length (context.source_read_append c rest)
  simp only [List.length_append, List.length_drop, List.length_cons] at whole
  unfold Token.lookahead at whole ⊢
  omega

theorem flatMap_source_tokens (context : Context) (text : Text) :
    (tokens context text).flatMap Token.source = text := by
  induction context, text using tokens.induct with
  | case1 context => rw [tokens_nil, List.flatMap_nil]
  | case2 context c rest token ih =>
      rw [tokens_cons, List.flatMap_cons, ih]
      exact context.source_read_append c rest

/-- A text is read as before if its last token does not grow, and reading goes
on behind it. -/
theorem tokens_append {context : Context} {front rest : Text}
    (stays : ∀ last ∈ (tokens context front).getLast?,
      ∀ c ∈ rest.head?, last.growsBefore c = false) :
    tokens context (front ++ rest) =
      tokens context front ++
        tokens (context.afterAll (tokens context front)) rest := by
  induction context, front using tokens.induct with
  | case1 context => simp [tokens_nil]
  | case2 context c front token ih =>
      rw [tokens_cons] at stays
      have same : context.read c (front ++ rest) = context.read c front := by
        apply Context.read_append
        intro atEnd
        rw [atEnd, tokens_nil] at stays
        exact stays _ rfl
      have later : ∀ last ∈ (tokens (context.after token)
          (front.drop token.lookahead)).getLast?,
          ∀ c ∈ rest.head?, last.growsBefore c = false := by
        intro last isLast
        apply stays last
        rw [Option.mem_def] at isLast ⊢
        rw [List.getLast?_cons, isLast]
        rfl
      rw [List.cons_append, tokens_cons, tokens_cons, same,
        List.drop_append_of_le_length (context.lookahead_read_le c front), ih later]
      rfl

/-- What follows a text changes no token of it but the last. -/
theorem tokens_append_of_eq {context : Context} {text : Text}
    {front : List Token} {last : Token}
    (read : tokens context text = front ++ [last]) :
    ∃ tail, tokens (context.afterAll front) tail = [last] ∧
      ∀ more, tokens context (text ++ more) =
        front ++ tokens (context.afterAll front) (tail ++ more) := by
  induction context, text using tokens.induct generalizing front with
  | case1 context => simp [tokens_nil] at read
  | case2 context c rest token =>
      rename_i ih
      cases front with
      | nil => exact ⟨c :: rest, read, fun more => rfl⟩
      | cons first front =>
          rw [tokens_cons, List.cons_append, List.cons.injEq] at read
          obtain ⟨rfl, readRest⟩ := read
          obtain ⟨tail, readTail, readOn⟩ := ih readRest
          refine ⟨tail, readTail, ?_⟩
          intro more
          have same : context.read c (rest ++ more) = context.read c rest := by
            apply Context.read_append
            intro atEnd
            rw [atEnd, tokens_nil] at readRest
            simp at readRest
          rw [List.cons_append, tokens_cons, same,
            List.drop_append_of_le_length (context.lookahead_read_le c rest),
            readOn]
          rfl

end ShellGlob.Glob
