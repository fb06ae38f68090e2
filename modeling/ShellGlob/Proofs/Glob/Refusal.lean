import ShellGlob.Proofs.Glob.Classes
import ShellGlob.Proofs.Matcher
import ShellGlob.Proofs.Regex.Refusal

/-!
# Globs that are refused

A glob without empty classes has no matcher if and only if it is empty and
unanchored, leaves a class, brace or group open, has a range that is refused, or is
nested too deep (`Matcher.ofGlob_refused_iff`).  Apart from its size nothing else can
be wrong with the pattern of a glob: it never closes a group that is not open, never
repeats what cannot be repeated, and holds no escape that is unknown.

All of this is said of the positive variant, for an exclusion that does not compile
is left out.
-/

namespace ShellGlob

open Regex (State ParseError Cause)

namespace Glob

/-- A class, brace or group is open. -/
def Context.IsOpen (context : Context) : Prop :=
  context.classPart ≠ none ∨ 0 < context.braces ∨ context.groups ≠ []

instance Context.IsOpen.decidable (context : Context) : Decidable context.IsOpen :=
  inferInstanceAs (Decidable (_ ∨ _ ∨ _))

theorem Context.isOpen_iff (context : Context) :
    context.IsOpen ↔ context.classPart ≠ none ∨ context.depth ≠ 0 := by
  have groups : context.groups ≠ [] ↔ context.groups.length ≠ 0 :=
    not_congr List.length_eq_zero_iff.symm
  rw [IsOpen, groups, depth]
  apply or_congr_right
  omega

/-- What can be wrong with the text of a pattern. -/
def readingCauses : List Cause :=
  [.unclosedClass, .unclosedGroup, .descendingRange, .rangeBound]

theorem mem_readingCauses_of_range {error : ParseError} (ofRange : error.OfRange) :
    error.cause ∈ readingCauses := by
  rcases ofRange with cause | cause
  · simp [readingCauses, cause]
  · simp [readingCauses, cause]

/-- The state behind the `^` of an anchored expression, and at the start of any
other. -/
def start (anchored : Bool) : State :=
  if anchored then { position := 1, draft := Regex.Draft.push {} (.assertion .start) } else {}

/-- The expression when its body ends here. -/
def conclude (anchored : Bool) (last : State) : Except ParseError Regex :=
  if anchored then last.run ['$'] >>= State.finish else last.finish

def enclose (anchored : Bool) (body : Text) : Text :=
  if anchored then anchor body else body

theorem parse_enclose (anchored : Bool) (body : Text) :
    Regex.parse (enclose anchored body) = (start anchored).run body >>= conclude anchored := by
  cases anchored with
  | false => rfl
  | true =>
      have opened : State.step {} '^' = .ok (start true) := rfl
      have whole : enclose true body = '^' :: (body ++ ['$']) := rfl
      rw [whole, Regex.parse, State.run_cons_of_step opened, State.run_append]
      cases (start true).run body with
      | error error => rfl
      | ok last => rfl

theorem follows_start (anchored : Bool) (filling : Filling) :
    Follows {} filling [] (start anchored) := by
  cases anchored with
  | false => exact ⟨rfl, Or.inl ⟨rfl, Or.inl rfl, rfl⟩⟩
  | true => exact ⟨rfl, Or.inl ⟨rfl, Or.inl rfl, rfl⟩⟩

section

variable {context : Context} {filling : Filling} {awaited : List Token} {last : State}

private theorem finish_of_closed (idle : last.Idle) (groups : last.groups = []) :
    last.finish = .ok last.draft.regex := by
  obtain ⟨position, draft, _, pending⟩ := last
  simp only at groups
  subst groups
  rcases idle with nothing | parenthesis
  · simp only at nothing
    subst nothing
    rfl
  · simp only at parenthesis
    subst parenthesis
    rfl

private theorem finish_of_open (idle : last.Idle) (groups : last.groups ≠ []) :
    ∃ error, last.finish = .error error ∧ error.cause ∈ readingCauses := by
  obtain ⟨position, draft, opened, pending⟩ := last
  obtain ⟨innermost, outer, rfl⟩ := List.exists_cons_of_ne_nil groups
  refine ⟨⟨.unclosedGroup, ⟨innermost.start, innermost.start + 1⟩⟩, ?_, by simp [readingCauses]⟩
  rcases idle with nothing | parenthesis
  · simp only at nothing
    subst nothing
    rfl
  · simp only at parenthesis
    subst parenthesis
    rfl

private theorem finish_inClass {brackets : Regex.Brackets}
    (pending : last.pending = .brackets brackets) :
    ∃ error, last.finish = .error error ∧ error.cause ∈ readingCauses := by
  refine ⟨brackets.unclosed, ?_, ?_⟩
  · rw [State.finish, pending]
  · have cause : brackets.unclosed.cause = .unclosedClass := by
      unfold Regex.Brackets.unclosed
      split
      · rfl
      · rfl
    simp [readingCauses, cause]

theorem run_stop (idle : last.Idle) :
    ∃ next, last.run ['$'] = .ok next ∧ next.Idle ∧ next.groups = last.groups :=
  ⟨_, State.run_cons_of_step (State.step_of_idle idle (c := '$') (by decide) rfl) [],
    Or.inl rfl, rfl⟩

/-- A pattern is complete where nothing is open in the glob. -/
theorem Follows.conclude_of_closed (follows : Follows context filling awaited last)
    (closed : ¬ context.IsOpen) (anchored : Bool) :
    ∃ regex, conclude anchored last = .ok regex := by
  rw [Context.isOpen_iff, not_or, Decidable.not_not, Decidable.not_not] at closed
  obtain ⟨depth, ⟨_, idle, _⟩ | ⟨_, _, _, inside, _⟩⟩ := follows
  · have groups : last.groups = [] := List.length_eq_zero_iff.mp (depth.trans closed.2)
    cases anchored with
    | false => exact ⟨_, finish_of_closed idle groups⟩
    | true =>
        obtain ⟨next, ran, nextIdle, nextGroups⟩ := run_stop idle
        refine ⟨next.draft.regex, ?_⟩
        have closes := finish_of_closed nextIdle (nextGroups.trans groups)
        simp [conclude, ran, bind, Except.bind, closes]
  · rw [closed.1] at inside
    cases inside

/-- Within a class the `$` of an anchored expression is one more member. -/
theorem Follows.conclude_inClass (follows : Follows context filling awaited last)
    {part : ClassPart} (inside : context.classPart = some part) (anchored : Bool) :
    ∃ error, conclude anchored last = .error error ∧ error.cause ∈ readingCauses := by
  cases anchored with
  | false =>
      obtain ⟨_, ⟨outside, _⟩ | ⟨_, _, _, _, _, pending, _⟩⟩ := follows
      · rw [inside] at outside
        cases outside
      · exact finish_inClass pending
  | true =>
      have listed : context.read '$' [] = .member false '$' := by
        simp [Context.read, inside, Token.readMember]
      have stop : (Token.member false '$').pattern = ['$'] := rfl
      have readOn : ReadOn context filling awaited last (context.read '$' []) :=
        follows.step (by simp [listed]) (by simp [listed])
      rcases readOn with
        ⟨next, further, ran, continues⟩ | ⟨error, failed, ofRange, _⟩
      · rw [listed, stop] at ran
        rw [listed] at continues
        obtain ⟨_, ⟨outside, _⟩ | ⟨_, _, _, _, _, pending, _⟩⟩ := continues.follows
        · cases outside
        · obtain ⟨error, failed, cause⟩ := finish_inClass pending
          exact ⟨error, by simp [conclude, ran, bind, Except.bind, failed], cause⟩
      · rw [listed, stop] at failed
        exact ⟨error, by simp [conclude, failed, bind, Except.bind],
          mem_readingCauses_of_range ofRange⟩

theorem Follows.conclude_of_open (follows : Follows context filling awaited last)
    (opened : context.IsOpen) (anchored : Bool) :
    ∃ error, conclude anchored last = .error error ∧ error.cause ∈ readingCauses := by
  cases location : context.classPart with
  | some part => exact follows.conclude_inClass location anchored
  | none =>
      rw [Context.isOpen_iff] at opened
      have deep : context.depth ≠ 0 := opened.resolve_left fun inside => inside location
      obtain ⟨depth, ⟨_, idle, _⟩ | ⟨_, _, _, inside, _⟩⟩ := follows
      · have groups : last.groups ≠ [] := by
          intro none
          rw [none, List.length_nil] at depth
          exact deep depth.symm
        cases anchored with
        | false => exact finish_of_open idle groups
        | true =>
            obtain ⟨next, ran, nextIdle, nextGroups⟩ := run_stop idle
            rw [← nextGroups] at groups
            obtain ⟨error, failed, cause⟩ := finish_of_open nextIdle groups
            exact ⟨error, by simp [conclude, ran, bind, Except.bind, failed], cause⟩
      · rw [location] at inside
        cases inside

end

/-- The pattern of a glob without empty classes is an expression if nothing is left open
and no range is refused. -/
theorem parse_enclose_patternFrom (glob : Text) (anchored : Bool)
    (filled : classesFilled .filled (tokens {} glob) = true) :
    (∃ regex, Regex.parse (enclose anchored (patternFrom {} glob)) = .ok regex ∧
        ¬ (({} : Context).afterAll (tokens {} glob)).IsOpen ∧
        refusesRanges (tokens {} glob) = false) ∨
      ∃ error, Regex.parse (enclose anchored (patternFrom {} glob)) = .error error ∧
        error.cause ∈ readingCauses ∧
        ((({} : Context).afterAll (tokens {} glob)).IsOpen ∨
          refusesRanges (tokens {} glob) = true) := by
  have outside : refusesFrom {} .filled [] (tokens {} glob) = refusesRanges (tokens {} glob) := rfl
  rw [parse_enclose]
  rcases (follows_start anchored .filled).run (List.prefix_refl _) filled (by simp) with
    ⟨last, behind, further, ran, follows, accepted⟩ | ⟨error, failed, ofRange, refused⟩
  · rw [← patternFrom] at ran
    rw [outside] at accepted
    rw [ran]
    by_cases opened : (({} : Context).afterAll (tokens {} glob)).IsOpen
    · obtain ⟨error, failed, cause⟩ := follows.conclude_of_open opened anchored
      exact Or.inr ⟨error, failed, cause, Or.inl opened⟩
    · obtain ⟨regex, read⟩ := follows.conclude_of_closed opened anchored
      exact Or.inl ⟨regex, read, opened, accepted⟩
  · rw [← patternFrom] at failed
    rw [outside] at refused
    rw [failed]
    exact Or.inr ⟨error, rfl, mem_readingCauses_of_range ofRange, Or.inr refused⟩

theorem exists_invalid_iff (glob : Text) (anchored : Bool)
    (filled : classesFilled .filled (tokens {} glob) = true) :
    (∃ error, Regex.compile (enclose anchored (patternFrom {} glob)) = .error (.invalid error)) ↔
      (({} : Context).afterAll (tokens {} glob)).IsOpen ∨
      refusesRanges (tokens {} glob) = true ∨
      ∃ regex, Regex.parse (enclose anchored (patternFrom {} glob)) = .ok regex ∧
        Regex.nestingLimit < regex.depth := by
  simp only [Regex.compile_eq_invalid_iff, ← Regex.exists_overNested?_iff]
  rcases parse_enclose_patternFrom glob anchored filled with
    ⟨regex, parsed, closed, accepted⟩ | ⟨error, unread, _, wrong⟩
  · constructor
    · rintro ⟨_, unread | ⟨_, span, read, deep, _⟩⟩
      · cases parsed.symm.trans unread
      · exact Or.inr (Or.inr ⟨_, read, span, deep⟩)
    · rintro (opened | refused | ⟨_, read, span, deep⟩)
      · exact absurd opened closed
      · cases refused.symm.trans accepted
      · exact ⟨_, Or.inr ⟨_, span, read, deep, rfl⟩⟩
  · exact iff_of_true ⟨error, Or.inl unread⟩ (wrong.imp_right Or.inl)

theorem cause_mem_of_invalid {glob : Text} {anchored : Bool} {error : ParseError}
    (filled : classesFilled .filled (tokens {} glob) = true)
    (refused : Regex.compile (enclose anchored (patternFrom {} glob)) = .error (.invalid error)) :
    error.cause ∈ Cause.nestingTooDeep :: readingCauses := by
  rcases Regex.compile_eq_invalid_iff.mp refused with unread | ⟨_, _, _, _, rfl⟩
  · rcases parse_enclose_patternFrom glob anchored filled with
      ⟨_, parsed, _⟩ | ⟨_, failed, reading, _⟩
    · cases parsed.symm.trans unread
    · cases unread.symm.trans failed
      exact List.mem_cons_of_mem _ reading
  · exact List.mem_cons_self

private theorem escapePattern_ne_nil (inClass : Bool) (escaped : Char) :
    escapePattern inClass escaped ≠ [] := by
  unfold escapePattern
  repeat' split
  all_goals exact List.cons_ne_nil _ _

theorem Token.pattern_ne_nil (token : Token) : token.pattern ≠ [] := by
  cases token with
  | escape inClass escaped => exact escapePattern_ne_nil inClass escaped
  | member guarded c =>
      cases guarded with
      | false | true => exact List.cons_ne_nil _ _
  | literal c =>
      change literalPattern c ≠ []
      unfold literalPattern
      split
      · exact List.cons_ne_nil _ _
      · exact List.cons_ne_nil _ _
  | _ => exact List.cons_ne_nil _ _

theorem pattern?_eq (glob : Text) (anchored : Bool) :
    pattern? glob anchored =
      if glob = [] ∧ anchored = false then none
      else some (enclose anchored (patternFrom {} glob)) := by
  cases anchored with
  | true => simp [pattern?, enclose, anchor]
  | false =>
      cases glob with
      | nil => simp [pattern?, patternFrom, tokens_nil]
      | cons c rest =>
          have written : patternFrom {} (c :: rest) ≠ [] := by
            rw [patternFrom_cons]
            exact List.append_ne_nil_of_left_ne_nil (Token.pattern_ne_nil _) _
          simp [pattern?, enclose, written]

theorem compile_eq_ok_iff {glob : Text} {anchored : Bool} {compiled : CompiledRegex} :
    compile glob anchored = .ok compiled ↔
      ¬ (glob = [] ∧ anchored = false) ∧
        ∃ regex, Regex.parse (enclose anchored (patternFrom {} glob)) = .ok regex ∧
          regex.Accepted ∧ compiled = CompiledRegex.ofRegex regex := by
  unfold compile
  rw [pattern?_eq]
  by_cases nothing : glob = [] ∧ anchored = false
  · simp [nothing]
  · simp [nothing, Regex.mapError_eq_ok_iff, Regex.compile_eq_ok_iff]

theorem compile_eq_error_iff {glob : Text} {anchored : Bool} {cause : CompileError} :
    compile glob anchored = .error cause ↔
      (pattern? glob anchored = none ∧ cause = .empty) ∨
      ∃ pattern error, pattern? glob anchored = some pattern ∧
        Regex.compile pattern = .error error ∧ cause = .regex pattern error := by
  unfold compile
  cases pattern? glob anchored with
  | none => simp [eq_comm]
  | some pattern =>
      rw [Regex.mapError_eq_error_iff]
      simp

/-- The glob is refused for nothing but the size of its expression. -/
def TooLarge (glob : Text) (anchored : Bool) : Prop :=
  ∃ pattern, compile glob anchored = .error (.regex pattern .tooLarge)

/-- What can be read and is not nested too deep compiles, unless it is too large. -/
theorem compile_of_parse {glob : Text} {anchored : Bool} {regex : Regex}
    (written : ¬ (glob = [] ∧ anchored = false))
    (parsed : Regex.parse (enclose anchored (patternFrom {} glob)) = .ok regex)
    (shallow : regex.depth ≤ Regex.nestingLimit) :
    compile glob anchored = .ok (CompiledRegex.ofRegex regex) ∨ TooLarge glob anchored := by
  have notNested := (Regex.overNested?_eq_none_iff regex).mpr shallow
  by_cases small : regex.normal.size ≤ Regex.sizeLimit
  · exact Or.inl (compile_eq_ok_iff.mpr ⟨written, regex, parsed, ⟨notNested, small⟩, rfl⟩)
  · have refused := Regex.compile_eq_error_iff.mpr
      (Or.inr ⟨regex, parsed, Or.inr ⟨notNested, Nat.lt_of_not_le small, rfl⟩⟩)
    have pattern := pattern?_eq glob anchored
    rw [if_neg written] at pattern
    exact Or.inr ⟨_, compile_eq_error_iff.mpr (Or.inr ⟨_, _, pattern, refused, rfl⟩)⟩

end Glob

/-- The glob is refused for its size alone. -/
def GlobError.OfSize (error : GlobError) : Prop :=
  ∃ pattern, error.cause = .regex pattern .tooLarge

namespace Matcher

section

variable {glob pattern : Text} {anchored : Bool}

theorem ofGlob_eq_invalid_iff {error : ParseError} :
    ofGlob glob anchored = .error ⟨glob, .regex pattern (.invalid error)⟩ ↔
      Glob.pattern? (Glob.positive glob) anchored = some pattern ∧
        Regex.compile pattern = .error (.invalid error) := by
  rw [ofGlob_eq_error_iff]
  constructor
  · rintro ⟨cause, compiled, same⟩
    cases same
    rcases Glob.compile_eq_error_iff.mp compiled with ⟨_, same⟩ | ⟨_, _, written, refused, same⟩
    · cases same
    · cases same
      exact ⟨written, refused⟩
  · rintro ⟨written, refused⟩
    exact ⟨_, Glob.compile_eq_error_iff.mpr (Or.inr ⟨_, _, written, refused, rfl⟩), rfl⟩

private theorem exists_refused_of_pattern?_eq_none
    (empty : Glob.pattern? (Glob.positive glob) anchored = none) :
    ∃ error, ofGlob glob anchored = .error error ∧ ¬ error.OfSize := by
  refine ⟨⟨glob, .empty⟩, ofGlob_eq_error_iff.mpr ⟨.empty, ?_, rfl⟩, by simp [GlobError.OfSize]⟩
  exact Glob.compile_eq_error_iff.mpr (Or.inl ⟨empty, rfl⟩)

theorem exists_refused_iff (written : Glob.pattern? (Glob.positive glob) anchored = some pattern) :
    (∃ error, ofGlob glob anchored = .error error ∧ ¬ error.OfSize) ↔
      ∃ error, Regex.compile pattern = .error (.invalid error) := by
  constructor
  · rintro ⟨_, failed, notSize⟩
    obtain ⟨cause, compiled, rfl⟩ := ofGlob_eq_error_iff.mp failed
    rcases Glob.compile_eq_error_iff.mp compiled with ⟨none, _⟩ | ⟨_, error, found, refused, rfl⟩
    · cases written.symm.trans none
    · cases written.symm.trans found
      cases error with
      | invalid error => exact ⟨error, refused⟩
      | tooLarge => exact absurd ⟨pattern, rfl⟩ notSize
  · rintro ⟨error, refused⟩
    exact ⟨_, ofGlob_eq_invalid_iff.mpr ⟨written, refused⟩, by simp [GlobError.OfSize]⟩

/-- Only its size can keep a glob from having a matcher if its positive variant can be read
and is not nested too deep. -/
theorem ofGlob_of_parse {regex : Regex} (written : ¬ (Glob.positive glob = [] ∧ anchored = false))
    (parsed : Regex.parse (Glob.enclose anchored (Glob.patternFrom {} (Glob.positive glob))) =
      .ok regex)
    (shallow : regex.depth ≤ Regex.nestingLimit) :
    (∃ matcher, ofGlob glob anchored = .ok matcher) ∨
      ∃ error, ofGlob glob anchored = .error error ∧ error.OfSize := by
  rcases Glob.compile_of_parse written parsed shallow with built | ⟨pattern, refused⟩
  · obtain ⟨matcher, made, _⟩ := exists_ofGlob built
    exact Or.inl ⟨matcher, made⟩
  · exact Or.inr ⟨_, ofGlob_eq_error_iff.mpr ⟨_, refused, rfl⟩, pattern, rfl⟩

end

/-- Which globs have no matcher, if the size is not limited, and what can be wrong with
their patterns. -/
theorem ofGlob_refused_iff (glob : Text) (anchored : Bool)
    (filled : Glob.classesFilled .filled (Glob.tokens {} (Glob.positive glob)) = true) :
    let read := Glob.tokens {} (Glob.positive glob)
    ((∃ error, ofGlob glob anchored = .error error ∧ ¬ error.OfSize) ↔
      (Glob.positive glob = [] ∧ anchored = false) ∨
      (({} : Glob.Context).afterAll read).IsOpen ∨
      Glob.refusesRanges read = true ∨
      ∃ pattern regex, Glob.pattern? (Glob.positive glob) anchored = some pattern ∧
        Regex.parse pattern = .ok regex ∧ Regex.nestingLimit < regex.depth) ∧
    ∀ pattern error, ofGlob glob anchored = .error ⟨glob, .regex pattern (.invalid error)⟩ →
      error.cause ∈ Cause.nestingTooDeep :: Glob.readingCauses := by
  intro read
  have pattern := Glob.pattern?_eq (Glob.positive glob) anchored
  by_cases nothing : Glob.positive glob = [] ∧ anchored = false
  · rw [if_pos nothing] at pattern
    refine ⟨iff_of_true (exists_refused_of_pattern?_eq_none pattern) (Or.inl nothing), ?_⟩
    intro _ error failed
    cases pattern.symm.trans (ofGlob_eq_invalid_iff.mp failed).1
  rw [if_neg nothing] at pattern
  constructor
  · rw [exists_refused_iff pattern, Glob.exists_invalid_iff _ _ filled, pattern]
    simp only [nothing, false_or, Option.some.injEq, exists_and_left, exists_eq_left']
    rfl
  · intro _ error failed
    obtain ⟨same, refused⟩ := ofGlob_eq_invalid_iff.mp failed
    cases pattern.symm.trans same
    exact Glob.cause_mem_of_invalid filled refused

theorem ofGlob_refused_iff_descending :
    let glob := "src/\x7b!(a),[!0-9z-x]\x7d".toList
    Glob.positive glob = "src/\x7b*,[!0-9z-x]\x7d".toList ∧
      Glob.classesFilled .filled (Glob.tokens {} (Glob.positive glob)) = true ∧
      ∃ error, ofGlob glob true = .error error ∧ ¬ error.OfSize := by
  intro glob
  have filled : Glob.classesFilled .filled (Glob.tokens {} (Glob.positive glob)) = true := by
    decide +kernel
  refine ⟨by decide +kernel, filled, (ofGlob_refused_iff glob true filled).1.mpr ?_⟩
  exact Or.inr (Or.inr (Or.inl (by decide +kernel)))

end Matcher

end ShellGlob
