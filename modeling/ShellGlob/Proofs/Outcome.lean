import ShellGlob.Proofs.Glob.Refusal
import ShellGlob.Regex.Parser.Source

/-!
# One pattern decides the outcome

Making a matcher has three outcomes besides an error: the glob has no negations, it has
some with exclusions that compile, or none of its exclusions does.  All of them are told
by patterns alone (`Matcher.ofGlob_outcome`).  The pattern of the positive variant decides
whether there is a matcher, and is the text of its expression or what the error reports.
The patterns of the exclusions decide whether the matcher is negated.  One that is refused
is left out, and no error ever comes from it.
-/

namespace ShellGlob

namespace Regex

variable {pattern : Text}

/-- Whether the text compiles as a regular expression. -/
def accepts (pattern : Text) : Bool :=
  (Regex.compile pattern).isOk

theorem accepts_eq_true_iff :
    accepts pattern = true ↔ ∃ compiled, Regex.compile pattern = .ok compiled := by
  unfold accepts
  cases Regex.compile pattern with
  | error error => simp [Except.isOk, Except.toBool]
  | ok compiled => simp [Except.isOk, Except.toBool]

theorem accepts_eq_false_iff :
    accepts pattern = false ↔ ∃ error, Regex.compile pattern = .error error := by
  unfold accepts
  cases Regex.compile pattern with
  | error error => simp [Except.isOk, Except.toBool]
  | ok compiled => simp [Except.isOk, Except.toBool]

theorem source_of_compile {compiled : CompiledRegex}
    (accepted : Regex.compile pattern = .ok compiled) : compiled.source = pattern := by
  obtain ⟨regex, parsed, _, rfl⟩ := compile_eq_ok_iff.mp accepted
  exact source_of_parse parsed

end Regex

namespace Glob

/-- The pattern of a glob, if it compiles. -/
def accepted? (glob : Text) (anchored : Bool) : Option Text :=
  (pattern? glob anchored).filter Regex.accepts

/-- The patterns of the exclusions that compile, in the order of their negations. -/
def exclusionPatterns (glob : Text) : List Text :=
  (List.range (negations glob).length).filterMap fun index => accepted? (exclusion glob index) true

section

variable {glob : Text} {anchored : Bool}

/-- A glob compiles if its pattern does, and the expression has the pattern as its text. -/
theorem map_source_compile (glob : Text) (anchored : Bool) :
    (compile glob anchored).toOption.map CompiledRegex.source = accepted? glob anchored := by
  unfold compile accepted?
  cases pattern? glob anchored with
  | none => rfl
  | some pattern =>
      cases compiles : Regex.compile pattern with
      | error error =>
          have refused := Regex.accepts_eq_false_iff.mpr ⟨error, compiles⟩
          simp [compiles, Except.mapError, Except.toOption, Option.filter, refused]
      | ok compiled =>
          have accepted := Regex.accepts_eq_true_iff.mpr ⟨compiled, compiles⟩
          simp [compiles, Except.mapError, Except.toOption, Option.filter, accepted,
            Regex.source_of_compile compiles]

theorem exists_compile_eq_error_iff :
    (∃ cause, compile glob anchored = .error cause) ↔
      pattern? glob anchored = none ∨
        ∃ source, pattern? glob anchored = some source ∧ Regex.accepts source = false := by
  simp only [compile_eq_error_iff, Regex.accepts_eq_false_iff]
  constructor
  · rintro ⟨cause, ⟨nothing, _⟩ | ⟨source, error, written, refused, _⟩⟩
    · exact Or.inl nothing
    · exact Or.inr ⟨source, written, error, refused⟩
  · rintro (nothing | ⟨source, written, error, refused⟩)
    · exact ⟨.empty, Or.inl ⟨nothing, rfl⟩⟩
    · exact ⟨.regex source error, Or.inr ⟨source, error, written, refused, rfl⟩⟩

theorem map_source_exclusions (glob : Text) :
    (exclusions glob).map CompiledRegex.source = exclusionPatterns glob := by
  simp only [exclusions, exclusionPatterns, List.map_filterMap, map_source_compile]

theorem exclusionPatterns_ne_nil_iff :
    exclusionPatterns glob ≠ [] ↔
      ∃ index < (negations glob).length, ∃ pattern,
        pattern? (exclusion glob index) true = some pattern ∧ Regex.accepts pattern = true := by
  simp [exclusionPatterns, accepted?, List.filterMap_eq_nil_iff]

/-- What is left of a glob in a variant is empty only if the glob is. -/
theorem flatMap_source_of_resolveFrom_eq_nil {expansion : Option Nat} {index : Nat}
    {cutUp : List Piece} (nothing : resolveFrom expansion index cutUp = []) :
    cutUp.flatMap Piece.source = [] := by
  induction cutUp generalizing index with
  | nil => rfl
  | cons piece rest ih =>
      cases piece with
      | text content =>
          obtain ⟨first, later⟩ := List.append_eq_nil_iff.mp nothing
          exact List.append_eq_nil_iff.mpr ⟨first, ih later⟩
      | negation inner =>
          obtain ⟨first, _⟩ := List.append_eq_nil_iff.mp nothing
          unfold replacement at first
          split at first
          · cases first
          · cases first

theorem positive_eq_nil_iff : positive glob = [] ↔ glob = [] := by
  constructor
  · intro nothing
    rw [← flatMap_source_pieces glob]
    exact flatMap_source_of_resolveFrom_eq_nil nothing
  · intro nothing
    simp [nothing, positive, variant, pieces, resolveFrom]

private theorem pattern?_positive_eq_none_iff :
    pattern? (positive glob) anchored = none ↔ glob = [] ∧ anchored = false := by
  simp [pattern?_eq, positive_eq_nil_iff]

private theorem pattern?_of_compile_eq_error {cause : CompileError}
    (refused : compile glob anchored = .error cause) :
    cause.pattern? = pattern? glob anchored := by
  rcases compile_eq_error_iff.mp refused with ⟨nothing, rfl⟩ | ⟨pattern, error, written, _, rfl⟩
  · exact nothing.symm
  · exact written.symm

end

end Glob

namespace Matcher

/-- Whether there is a matcher of a glob, which error is reported otherwise, and of which
expressions the matcher is made. -/
theorem ofGlob_outcome (glob : Text) (anchored : Bool) :
    let pattern := Glob.pattern? (Glob.positive glob) anchored
    (Glob.negations glob = [] → pattern = Glob.pattern? glob anchored) ∧
    (pattern = none ↔ glob = [] ∧ anchored = false) ∧
    ((∃ error, ofGlob glob anchored = .error error) ↔
      pattern = none ∨ ∃ source, pattern = some source ∧ Regex.accepts source = false) ∧
    (∀ error, ofGlob glob anchored = .error error →
      error.glob = glob ∧ error.cause.pattern? = pattern) ∧
    ∀ matcher, ofGlob glob anchored = .ok matcher →
      some matcher.regex.source = pattern ∧
      (matcher.isNegated = true ↔
        ∃ index < (Glob.negations glob).length, ∃ source,
          Glob.pattern? (Glob.exclusion glob index) true = some source ∧
            Regex.accepts source = true) ∧
      ∀ negated, matcher = .negated negated →
        negated.anchored = anchored ∧
          negated.exclusions.map CompiledRegex.source = Glob.exclusionPatterns glob := by
  intro pattern
  refine ⟨?_, Glob.pattern?_positive_eq_none_iff, ?_, ?_, ?_⟩
  · intro plain
    exact congrArg (Glob.pattern? · anchored) (Glob.variant_of_negations_eq_nil plain none)
  · rw [← Glob.exists_compile_eq_error_iff]
    constructor
    · rintro ⟨error, failed⟩
      obtain ⟨cause, refused, _⟩ := ofGlob_eq_error_iff.mp failed
      exact ⟨cause, refused⟩
    · rintro ⟨cause, refused⟩
      exact ⟨_, ofGlob_eq_error_iff.mpr ⟨cause, refused, rfl⟩⟩
  · intro error failed
    obtain ⟨cause, refused, rfl⟩ := ofGlob_eq_error_iff.mp failed
    exact ⟨rfl, Glob.pattern?_of_compile_eq_error refused⟩
  · intro matcher built
    refine ⟨?_, ?_, ?_⟩
    · have accepted := Glob.map_source_compile (Glob.positive glob) anchored
      rw [(compile_of_ofGlob built).1] at accepted
      exact (Option.filter_eq_some_iff.mp accepted.symm).1.symm
    · rw [isNegated_of_ofGlob built, ← Glob.exclusionPatterns_ne_nil_iff,
        ← Glob.map_source_exclusions, ne_eq, ne_eq, List.map_eq_nil_iff]
    · rintro negated rfl
      obtain ⟨exclusions, sameMode⟩ := exclusions_of_negated built
      exact ⟨sameMode, exclusions ▸ Glob.map_source_exclusions glob⟩

end Matcher

end ShellGlob
