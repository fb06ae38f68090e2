import ShellGlob.Proofs.Glob.Neutralization
import ShellGlob.Proofs.Glob.PatternEnds
import ShellGlob.Proofs.Glob.Refusal
import ShellGlob.Proofs.Glob.Variants
import ShellGlob.Proofs.Regex.Widening

/-!
# A star written twice

A `**` matches at least what a `*` matches, on text without line breaks
(`Matcher.isMatch_doubled`).  Both become a repetition, of any character but `/` and `\` and
of any character but a line break.  What stands around the star does not matter, and neither
does that a `**` takes a following `/` along: it matches that as well.

A `*` matches a line break, and a `**` does not (`Matcher.not_isMatch_doubled_of_newline`).
-/

namespace ShellGlob

open Regex (State Means Includes)

namespace Glob

/-- The glob of some tokens in which a star between them is written twice. -/
def doubled (front rest : List Token) : Text :=
  front.flatMap Token.source ++ '*' :: '*' :: rest.flatMap Token.source

theorem doubled_cons (token : Token) (front rest : List Token) :
    doubled (token :: front) rest = token.source ++ doubled front rest := by
  simp [doubled]

section

variable {context : Context} {front rest : List Token} {text : Text} {c : Char}

theorem text_eq_of_star (read : tokens context text = front ++ .star :: rest) :
    text = front.flatMap Token.source ++ '*' :: rest.flatMap Token.source := by
  have whole := congrArg (List.flatMap Token.source) read
  rw [flatMap_source_tokens, List.flatMap_append, List.flatMap_cons] at whole
  exact whole

theorem Context.read_eq_star (read : context.read c text = .star) :
    c = '*' ∧ context.classPart = none := by
  by_cases escape : c = '\\'
  · subst escape
    cases text with
    | nil | cons => simp [Context.read, Token.readEscape] at read
  cases location : context.classPart with
  | some part =>
      simp only [Context.read, escape, if_false, location, Token.readMember] at read
      repeat' split at read
      all_goals cases read
  | none =>
      cases opened : Multiplicity.opening? c text with
      | some multiplicity =>
          rw [Context.read_opening escape location opened] at read
          cases read
      | none =>
          rw [Context.read_plain escape location opened] at read
          have whole := Context.source_read_append context c text
          rw [Context.read_plain escape location opened, read] at whole
          exact ⟨(List.cons.inj whole).1.symm, rfl⟩

/-- A token before a star is read as before if the star is written twice. -/
theorem Context.read_before_doubled {ahead : Text}
    (within : (context.read c (ahead ++ '*' :: text)).lookahead ≤ ahead.length) :
    context.read c (ahead ++ '*' :: '*' :: text) = context.read c (ahead ++ '*' :: text) := by
  match ahead with
  | d :: e :: ahead =>
      rw [Context.read_append_of_more, Context.read_append_of_more]
  | [d] =>
      have notSlash : context.read c [d] = .tree false → '*' ≠ '/' := fun _ => by decide
      exact (Context.read_of_next_to_last context c d '*' ('*' :: text) notSlash).trans
        (Context.read_of_next_to_last context c d '*' text notSlash).symm
  | [] =>
      simp only [List.nil_append] at within ⊢
      by_cases escape : c = '\\'
      · simp [Context.read, escape, Token.readEscape, Token.lookahead, Token.source] at within
      cases location : context.classPart with
      | some part => simp [Context.read, escape, location, Token.readMember]
      | none =>
          by_cases star : c = '*'
          · subst star
            have outside : context.inClass = false := by rw [Context.inClass, location]; rfl
            rw [Context.read_star_star outside] at within
            cases slash : decide (text.head? = some '/') with
            | false | true => simp [slash, Token.lookahead, Token.source] at within
          · have unopened : ∀ behind, Multiplicity.opening? c ('*' :: behind) = none :=
              fun behind => Multiplicity.opening?_cons_eq_none (by simp)
            rw [Context.read_plain escape location (unopened _),
              Context.read_plain escape location (unopened _)]
            exact Token.readPlain_of_ne_star star _ _

theorem tokens_cons_doubled {token : Token} {ahead behind : Text}
    (whole : token.source ++ (ahead ++ '*' :: behind) = c :: text)
    (read : context.read c text = token) :
    tokens context (token.source ++ (ahead ++ '*' :: '*' :: behind)) =
      token :: tokens (context.after token) (ahead ++ '*' :: '*' :: behind) := by
  cases source : token.source with
  | nil => exact absurd source (Token.source_ne_nil token)
  | cons d more =>
      rw [source] at whole
      obtain ⟨rfl, rfl⟩ := List.cons.inj whole
      have lookahead : token.lookahead = more.length := by simp [Token.lookahead, source]
      have before : ∀ later, more.append (ahead ++ later) = (more ++ ahead) ++ later :=
        fun later => (List.append_assoc more ahead later).symm
      rw [before] at read
      have within : (context.read d ((more ++ ahead) ++ '*' :: behind)).lookahead ≤
          (more ++ ahead).length := by
        rw [read, lookahead, List.length_append]
        exact Nat.le_add_right _ _
      have same := (Context.read_before_doubled within).trans read
      rw [List.append_assoc] at same
      rw [List.cons_append, tokens_cons, same, lookahead, List.drop_left]

theorem tokens_doubled_nil (read : tokens context text = .star :: rest) :
    context.classPart = none ∧ ∃ slash behind,
      tokens context (doubled [] rest) = .tree slash :: tokens context behind ∧
      rest = (if slash then [Token.literal '/'] else []) ++ tokens context behind := by
  cases text with
  | nil =>
      rw [tokens_nil] at read
      cases read
  | cons c text =>
      rw [tokens_cons] at read
      obtain ⟨star, behind⟩ := List.cons.inj read
      obtain ⟨rfl, outside⟩ := Context.read_eq_star star
      rw [star] at behind
      have same : tokens context text = rest := behind
      subst same
      have inClass : context.inClass = false := by rw [Context.inClass, outside]; rfl
      rw [doubled, flatMap_source_tokens, List.flatMap_nil, List.nil_append, tokens_cons,
        Context.read_star_star inClass]
      refine ⟨outside, _, _, rfl, ?_⟩
      cases text with
      | nil => simp [tokens_nil, Token.lookahead, Token.source]
      | cons d text =>
          by_cases slash : d = '/'
          · subst slash
            have literal : context.read '/' text = .literal '/' := by
              rw [Context.read_plain_of_not_mark (by decide) outside rfl]
              rfl
            rw [tokens_cons, literal]
            rfl
          · simp [slash, Token.lookahead, Token.source]

/-- A star that is written twice becomes a `**`, and nothing else is read otherwise but a
`/` behind it. -/
theorem tokens_doubled (read : tokens context text = front ++ .star :: rest) :
    (context.afterAll front).classPart = none ∧ ∃ slash behind,
      tokens context (doubled front rest) =
        front ++ .tree slash :: tokens (context.afterAll front) behind ∧
      rest = (if slash then [Token.literal '/'] else []) ++
        tokens (context.afterAll front) behind := by
  induction front generalizing context text with
  | nil => exact tokens_doubled_nil read
  | cons token front ih =>
      cases text with
      | nil =>
          rw [tokens_nil] at read
          cases read
      | cons c text =>
          rw [tokens_cons, List.cons_append] at read
          obtain ⟨same, readBehind⟩ := List.cons.inj read
          obtain ⟨outside, slash, behind, readDoubled, later⟩ := ih readBehind
          rw [same] at readBehind readDoubled outside later
          refine ⟨outside, slash, behind, ?_, later⟩
          have whole := Context.source_read_append context c text
          rw [same, text_eq_of_star readBehind] at whole
          rw [doubled_cons, doubled, tokens_cons_doubled whole same, ← doubled, readDoubled]
          rfl

end

theorem isSome_splitAtClosing_doubled (depth : Nat) (before behind : Text) :
    (splitAtClosing depth (before ++ '*' :: '*' :: behind)).isSome =
      (splitAtClosing depth (before ++ '*' :: behind)).isSome := by
  fun_induction splitAtClosing depth before with
  | case1 depth => exact isSome_splitAtClosing_star depth _
  | case2 depth =>
      rw [List.cons_append, List.cons_append, List.nil_append, List.nil_append,
        splitAtClosing_escape, splitAtClosing_escape, Option.isSome_map, Option.isSome_map]
      exact isSome_splitAtClosing_star depth behind
  | case3 depth escaped rest ih =>
      simp only [List.cons_append, splitAtClosing_escape, Option.isSome_map]
      exact ih
  | case4 depth c rest notEscape closes =>
      rw [List.cons_append, List.cons_append, splitAtClosing.eq_def,
        splitAtClosing.eq_def depth (c :: _)]
      simp [closes]
  | case5 depth c rest notEscape staysOpen ih =>
      rw [List.cons_append, List.cons_append, splitAtClosing_cons notEscape staysOpen,
        splitAtClosing_cons notEscape staysOpen, Option.isSome_map, Option.isSome_map]
      exact ih

private theorem splitNegation?_doubled {c : Char} {before behind : Text}
    (noNegation : splitNegation? (c :: (before ++ '*' :: behind)) = none) :
    splitNegation? (c :: (before ++ '*' :: '*' :: behind)) = none := by
  by_cases mark : c = '!'
  · subst mark
    cases before with
    | nil => exact splitNegation?_of_not_paren (by simp)
    | cons d before =>
        by_cases paren : d = '('
        · subst paren
          have same := isSome_splitAtClosing_doubled 1 before behind
          have unclosed : splitAtClosing 1 (before ++ '*' :: behind) = none := noNegation
          rw [unclosed, Option.isSome_none, Option.isSome_eq_false_iff,
            Option.isNone_iff_eq_none] at same
          exact same
        · exact splitNegation?_of_not_paren (by simpa using paren)
  · exact splitNegation?_of_ne mark _

theorem negations_text_eq_nil_iff {text rest content : Text}
    (cutUp : pieces text = .text content :: pieces rest) :
    negations text = [] ↔ negations rest = [] := by
  rw [negations_eq_map_text cutUp, List.map_eq_nil_iff]

private theorem splitNegation?_of_plain {c : Char} {rest : Text}
    (plain : negations (c :: rest) = []) :
    splitNegation? (c :: rest) = none := by
  cases found : splitNegation? (c :: rest) with
  | none => rfl
  | some parts =>
      obtain ⟨inner, behind⟩ := parts
      have cutUp : pieces (c :: rest) = .negation inner :: pieces behind := by
        have first : cut c rest = (.negation inner, behind) := by simp [cut, found]
        rw [pieces, first]
      rw [negations_eq_map_negation cutUp] at plain
      cases plain

private theorem negations_cons_doubled {c : Char} (before : Text) {behind : Text}
    (notEscape : c ≠ '\\')
    (plain : negations (c :: (before ++ '*' :: behind)) = []) :
    negations (before ++ '*' :: behind) = [] ∧
      (negations (c :: (before ++ '*' :: '*' :: behind)) = [] ↔
        negations (before ++ '*' :: '*' :: behind) = []) := by
  have noNegation := splitNegation?_of_plain plain
  exact ⟨(negations_text_eq_nil_iff (pieces_cons notEscape noNegation)).mp plain,
    negations_text_eq_nil_iff (pieces_cons notEscape (splitNegation?_doubled noNegation))⟩

theorem negations_star_eq_nil_iff (rest : Text) :
    negations ('*' :: rest) = [] ↔ negations rest = [] :=
  negations_text_eq_nil_iff (pieces_cons (by decide) (splitNegation?_of_ne (by decide) rest))

/-- No negation appears where a star is written twice. -/
theorem negations_doubled {before behind : Text}
    (plain : negations (before ++ '*' :: behind) = []) :
    negations (before ++ '*' :: '*' :: behind) = [] := by
  -- A backslash is passed together with the character behind it, which may be the star.
  fun_induction escapesPaired before with
  | case1 => exact (negations_star_eq_nil_iff _).mpr plain
  | case2 c =>
      by_cases escape : c = '\\'
      · subst escape
        have rest := (negations_text_eq_nil_iff (pieces_escape '*' behind)).mp plain
        exact (negations_text_eq_nil_iff (pieces_escape '*' ('*' :: behind))).mpr
          ((negations_star_eq_nil_iff behind).mpr rest)
      · obtain ⟨rest, same⟩ := negations_cons_doubled [] escape plain
        exact same.mpr ((negations_star_eq_nil_iff _).mpr rest)
  | case3 escaped rest ih =>
      have later := ih ((negations_text_eq_nil_iff (pieces_escape escaped _)).mp plain)
      exact (negations_text_eq_nil_iff (pieces_escape escaped _)).mpr later
  | case4 c d rest notEscape ih =>
      obtain ⟨later, same⟩ := negations_cons_doubled (d :: rest) notEscape plain
      exact same.mpr (ih later)

section

variable {text : Text} {start stop : Nat}

private theorem stretch_of_not_mem (noBreak : '\n' ∉ text) (ordered : start ≤ stop)
    (inside : stop ≤ text.length ∨ start = stop) : Stretch text (fun c => c ≠ '\n') start stop := by
  refine ⟨ordered, fun place above below => ?_⟩
  have bound : place < text.length := by omega
  refine ⟨text[place], List.getElem?_eq_getElem bound, ?_⟩
  intro same
  exact noBreak (same ▸ List.getElem_mem bound)

theorem Stretch.stop_le {allowed : Char → Prop} (stretch : Stretch text allowed start stop) :
    stop ≤ text.length ∨ start = stop := by
  obtain ⟨ordered, inside⟩ := stretch
  rcases Nat.lt_or_eq_of_le ordered with further | same
  · obtain ⟨c, found, _⟩ := inside (stop - 1) (by omega) (by omega)
    have bound := (List.getElem?_eq_some_iff.mp found).1
    exact Or.inl (by omega)
  · exact Or.inr same

/-- A `**` matches what a `*` matches, alone or together with a `/` behind it. -/
theorem means_star_slash (noBreak : '\n' ∉ text) (slash : Bool) :
    ∃ extent, Means (Token.star.pattern ++ if slash then literalPattern '/' else []) extent ∧
      ∀ start stop, extent text start stop →
        Stretch text (fun c => c ≠ '\n') start stop := by
  cases slash with
  | false =>
      rw [if_neg (by decide)]
      refine ⟨_, means_star.append Means.nil, ?_⟩
      rintro start _ ⟨_, spans, rfl⟩
      rw [Part.Spans] at spans
      exact stretch_of_not_mem noBreak spans.1 spans.stop_le
  | true =>
      rw [if_pos rfl]
      refine ⟨_, means_star.append (means_literal (by decide)), ?_⟩
      rintro start _ ⟨middle, spans, rfl, c, found, _⟩
      rw [Part.Spans] at spans
      have bound := (List.getElem?_eq_some_iff.mp found).1
      exact stretch_of_not_mem noBreak (Nat.le_succ_of_le spans.1) (Or.inl bound)

end

section

variable {glob : Text} {front rest : List Token}

/-- Behind tokens without a class that is closed empty the pattern is outside of classes if
the glob is. -/
theorem idle_of_run_front (outside : (({} : Context).afterAll front).classPart = none)
    (isPrefix : front <+: tokens {} glob) (filled : classesFilled .filled front = true)
    {last : State} (ran : State.begun.run (front.flatMap Token.pattern) = .ok last) :
    last.Idle := by
  have noDash : ([] : List Token).getLast? = some .dash → front.head? ≠ some .dash := by simp
  rcases (follows_start true .filled).run isPrefix filled noDash with
    ⟨_, _, _, reached, follows, _⟩ | ⟨_, failed, _⟩
  · cases ran.symm.trans reached
    obtain ⟨_, ⟨_, idle, _⟩ | ⟨_, _, _, inside, _⟩⟩ := follows
    · exact idle
    · cases outside.symm.trans inside
  · cases ran.symm.trans failed

theorem includes_of_doubled (read : tokens {} glob = front ++ .star :: rest)
    (filled : classesFilled .filled front = true) {narrow wide : Regex}
    (parsed : Regex.parse (anchor (patternFrom {} glob)) = .ok narrow)
    (parsedDoubled : Regex.parse (anchor (patternFrom {} (doubled front rest))) = .ok wide)
    {text : Text} (noBreak : '\n' ∉ text) : Includes text narrow wide := by
  obtain ⟨outside, slash, behind, readDoubled, later⟩ := tokens_doubled read
  obtain ⟨extent, ⟨items, readsStar, starSpans⟩, within⟩ := means_star_slash noBreak slash
  obtain ⟨others, readsTree, treeSpans⟩ := means_tree slash
  obtain ⟨c, tail, followed, notOperator⟩ :
      ∃ c tail, patternFrom (({} : Context).afterAll front) behind ++ ['$'] = c :: tail ∧
        Regex.Repetition.ofSymbol? c = none := by
    have starts := notOperator_patternFrom outside behind
    cases pattern : patternFrom (({} : Context).afterAll front) behind with
    | nil => exact ⟨'$', [], rfl, rfl⟩
    | cons c tail =>
        rw [pattern] at starts
        exact ⟨c, tail ++ ['$'], rfl, starts c rfl⟩
  have whole : anchor (patternFrom {} glob) = ('^' :: front.flatMap Token.pattern) ++
      ((Token.star.pattern ++ if slash then literalPattern '/' else []) ++ c :: tail) := by
    rw [← followed, patternFrom, patternFrom, read, later]
    cases slash with
    | false | true => simp [anchor, Token.pattern]
  have wholeDoubled : anchor (patternFrom {} (doubled front rest)) =
      ('^' :: front.flatMap Token.pattern) ++ ((Token.tree slash).pattern ++ c :: tail) := by
    rw [← followed, patternFrom, patternFrom, readDoubled]
    simp [anchor]
  rw [whole] at parsed
  rw [wholeDoubled] at parsedDoubled
  obtain ⟨last, ran, _⟩ := Regex.exists_run_of_parse parsed
  obtain ⟨middle, ranFront, _⟩ := State.run_append_eq_ok.mp ran
  have idle : middle.Idle := by
    have begun : State.step {} '^' = .ok State.begun := rfl
    rw [State.run_cons_of_step begun] at ranFront
    exact idle_of_run_front outside (read ▸ List.prefix_append front _) filled ranFront
  apply Regex.includes_of_parse_items ranFront idle readsStar readsTree ?_ notOperator parsed
    parsedDoubled
  intro start stop spans
  have stretch := within start stop ((starSpans text start stop).mp spans)
  have tree : (Part.tree slash).Spans text start stop := by rwa [Part.Spans]
  exact (treeSpans text start stop).mpr tree

end

end Glob

namespace Matcher

/-- What a glob matches, it matches if a star is written twice as well, unless there is a
line break in the candidate. -/
theorem isMatch_doubled {glob candidate : Text} {front rest : List Glob.Token}
    {narrow wide : Matcher} (plain : Glob.negations glob = [])
    (read : Glob.tokens {} glob = front ++ .star :: rest)
    (filled : Glob.classesFilled .filled front = true)
    (built : ofGlob glob true = .ok narrow)
    (builtDoubled : ofGlob (Glob.doubled front rest) true = .ok wide)
    (noBreak : '\n' ∉ candidate) (matched : narrow.isMatch candidate = true) :
    wide.isMatch candidate = true := by
  have plainDoubled : Glob.negations (Glob.doubled front rest) = [] :=
    Glob.negations_doubled (Glob.text_eq_of_star read ▸ plain)
  obtain ⟨compiles, byRegex⟩ := isMatch_of_plain plain built
  obtain ⟨compilesDoubled, byRegexDoubled⟩ := isMatch_of_plain plainDoubled builtDoubled
  obtain ⟨regex, parsed, _, compiled⟩ := Glob.compile_anchored_eq_ok_iff.mp compiles
  obtain ⟨other, parsedDoubled, _, compiledDoubled⟩ :=
    Glob.compile_anchored_eq_ok_iff.mp compilesDoubled
  rw [byRegex, compiled] at matched
  rw [byRegexDoubled, compiledDoubled]
  exact CompiledRegex.isMatch_of_includes
    (Glob.includes_of_doubled read filled parsed parsedDoubled noBreak) matched

set_option maxRecDepth 4096 in
/-- The star stands in a group behind a class, and the `**` takes the `/` behind it along. -/
theorem isMatch_doubled_inGroup :
    let front : List Glob.Token :=
      [.classOpen, .member false 'x', .classClose, .groupOpen .exactlyOne, .literal 'a']
    let rest : List Glob.Token :=
      [.literal '/', .literal 'b', .bar, .braceOpen, .literal 'c', .comma, .literal 'd',
        .braceClose, .groupClose .exactlyOne]
    Glob.doubled front rest = "[x]@(a**/b|\x7bc,d\x7d)".toList ∧
      ∃ narrow wide, ofGlob "[x]@(a*/b|\x7bc,d\x7d)".toList true = .ok narrow ∧
        ofGlob (Glob.doubled front rest) true = .ok wide ∧
        narrow.isMatch "xay/b".toList = true ∧ wide.isMatch "xay/b".toList = true := by
  intro front rest
  have plain : Glob.negations "[x]@(a*/b|\x7bc,d\x7d)".toList = [] := by cbv
  have read : Glob.tokens {} "[x]@(a*/b|\x7bc,d\x7d)".toList = front ++ .star :: rest := by
    simp only [front, rest]
    cbv
  have filled : Glob.classesFilled .filled front = true := by decide
  have written : Glob.doubled front rest = "[x]@(a**/b|\x7bc,d\x7d)".toList := by decide
  have found : (ofGlob "[x]@(a*/b|\x7bc,d\x7d)".toList true).toOption.any
      (·.isMatch "xay/b".toList) = true := by cbv
  have builds : (ofGlob "[x]@(a**/b|\x7bc,d\x7d)".toList true).isOk = true := by cbv
  obtain ⟨narrow, built, matched⟩ := exists_of_any found
  obtain ⟨wide, builtDoubled⟩ := exists_of_isOk builds
  rw [← written] at builtDoubled
  exact ⟨written, narrow, wide, built, builtDoubled, matched,
    isMatch_doubled plain read filled built builtDoubled (by decide) matched⟩

/-- A `*` matches a line break and a `**` does not. -/
theorem not_isMatch_doubled_of_newline :
    Glob.negations "*".toList = [] ∧ Glob.tokens {} "*".toList = [] ++ Glob.Token.star :: [] ∧
      Glob.doubled [] [] = "**".toList ∧
      (ofGlob "*".toList true).map (·.isMatch ['\n']) = .ok true ∧
      (ofGlob "**".toList true).map (·.isMatch ['\n']) = .ok false :=
  ⟨by cbv, by cbv, rfl, by cbv, by cbv⟩

/-- A star behind a class that is closed empty is a member of the class in the pattern. -/
example :
    (ofGlob "[]*]".toList true).map (·.isMatch ['x']) = .ok true ∧
      (ofGlob "[]**]".toList true).map (·.isMatch ['x']) = .ok false := by
  cbv

end Matcher

end ShellGlob
