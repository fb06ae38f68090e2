import Mathlib
import ShellGlob.Matcher
import ShellGlob.Proofs.Regex.Occurrences

/-!
# Matchers

A glob has a matcher exactly if its positive variant compiles.  The matcher matches
a candidate if the positive expression leaves a part of it that no exclusion that
compiles matches (`Matcher.isMatch_iff_exists_part`): of an anchored glob that is the
whole candidate (`Matcher.isMatch_of_ofGlob`), of any other one it is an occurrence.
A glob without negations is its own positive variant, and has no exclusions.

Which occurrences there are is for the search to decide.  Without asking it, what a
glob with negations matches is bounded from both sides
(`Matcher.isMatch_bounds_of_negated`).
-/

namespace ShellGlob

namespace Glob

theorem resolveFrom_append (expansion : Option Nat) (index offset : Nat)
    (front rest : List Piece) :
    resolveFrom expansion index (front ++ rest) =
      resolveFrom expansion index front ++
        resolveFrom expansion (index + (negationsFrom offset front).length) rest := by
  induction front generalizing index offset with
  | nil => rfl
  | cons piece front ih =>
      cases piece with
      | text content =>
          rw [List.cons_append, resolveFrom, ih index _, resolveFrom, List.append_assoc]
          rfl
      | negation inner =>
          rw [List.cons_append, resolveFrom, ih (index + 1) _, resolveFrom, List.append_assoc,
            negationsFrom, List.length_cons, Nat.add_right_comm]
          rfl

/-- Where the expanded negation is none of them, all negations become stars. -/
theorem resolveFrom_of_elsewhere {expansion : Option Nat} {index offset : Nat}
    {cutUp : List Piece} (elsewhere : ∀ number, index ≤ number →
      number < index + (negationsFrom offset cutUp).length → expansion ≠ some number)
    (other : Nat) : resolveFrom expansion index cutUp = resolveFrom none other cutUp := by
  induction cutUp generalizing index offset other with
  | nil => rfl
  | cons piece rest ih =>
      cases piece with
      | text content =>
          rw [resolveFrom, resolveFrom, ih elsewhere]
      | negation inner =>
          let next := offset + Text.utf8Length (Piece.negation inner).source
          have count : (negationsFrom offset (.negation inner :: rest)).length =
              (negationsFrom next rest).length + 1 := rfl
          rw [count] at elsewhere
          have notThis : expansion ≠ some index := elsewhere index (Nat.le_refl _) (by omega)
          have notLater : ∀ number, index + 1 ≤ number →
              number < index + 1 + (negationsFrom next rest).length → expansion ≠ some number :=
            fun number least bound => elsewhere number (by omega) (by omega)
          rw [resolveFrom, resolveFrom, ih notLater (other + 1)]
          simp [notThis]

theorem resolveFrom_append_of_negationsFrom {front : List Piece} {offset : Nat}
    (plain : negationsFrom offset front = []) (expansion : Option Nat) (index : Nat)
    (rest : List Piece) :
    resolveFrom expansion index (front ++ rest) =
      front.flatMap Piece.source ++ resolveFrom expansion index rest := by
  induction front generalizing offset with
  | nil => rfl
  | cons piece front ih =>
      cases piece with
      | text content =>
          rw [List.cons_append, resolveFrom, List.flatMap_cons, ih plain, List.append_assoc]
          rfl
      | negation inner => simp [negationsFrom] at plain

/-- A glob without negations stands as it is before any other pieces. -/
theorem resolveFrom_append_of_negations {glob : Text} (plain : negations glob = [])
    (expansion : Option Nat) (index : Nat) (rest : List Piece) :
    resolveFrom expansion index (pieces glob ++ rest) =
      glob ++ resolveFrom expansion index rest := by
  rw [resolveFrom_append_of_negationsFrom plain, flatMap_source_pieces]

theorem resolveFrom_of_negations {glob : Text} (plain : negations glob = [])
    (expansion : Option Nat) (index : Nat) :
    resolveFrom expansion index (pieces glob) = glob := by
  have whole := resolveFrom_append_of_negations plain expansion index []
  rw [List.append_nil] at whole
  rw [whole]
  exact List.append_nil glob

theorem variant_of_negations_eq_nil {glob : Text} (plain : negations glob = [])
    (expansion : Option Nat) : variant glob expansion = glob :=
  resolveFrom_of_negations plain expansion 0

theorem mem_exclusions_iff {glob : Text} {compiled : CompiledRegex} :
    compiled ∈ exclusions glob ↔
      ∃ index < (negations glob).length,
        compile (exclusion glob index) true = .ok compiled := by
  unfold exclusions
  simp only [List.mem_filterMap, List.mem_range]
  apply exists_congr
  intro index
  apply and_congr_right
  intro _
  cases compile (exclusion glob index) true with
  | error error => simp [Except.toOption]
  | ok value => simp [Except.toOption]

theorem exclusions_of_negations_eq_nil {glob : Text} (plain : negations glob = []) :
    exclusions glob = [] := by
  simp [exclusions, plain]

end Glob

namespace NegatedGlob

theorem excludes_eq_false_iff {negated : NegatedGlob} {text : Text} :
    negated.excludes text = false ↔
      ∀ exclusion ∈ negated.exclusions, exclusion.isMatch text = false := by
  simp [excludes]

/-- A glob with negations matches by a part of the candidate that no exclusion matches. -/
theorem isMatch_iff_exists_part {negated : NegatedGlob} {candidate : Text} :
    negated.isMatch candidate = true ↔
      ∃ part ∈ negated.positive.parts negated.anchored candidate,
        ∀ exclusion ∈ negated.exclusions, exclusion.isMatch part = false := by
  simp only [← excludes_eq_false_iff]
  unfold isMatch
  cases negated.anchored with
  | true => simp [CompiledRegex.mem_parts_anchored, and_assoc]
  | false =>
      simp only [CompiledRegex.parts, Bool.false_eq_true, if_false, List.any_eq_true,
        Bool.not_eq_true', List.mem_map]
      constructor
      · rintro ⟨occurrence, found, unmatched⟩
        exact ⟨_, ⟨occurrence, found, rfl⟩, unmatched⟩
      · rintro ⟨_, ⟨occurrence, found, rfl⟩, unmatched⟩
        exact ⟨occurrence, found, unmatched⟩

end NegatedGlob

namespace Matcher

variable {glob : Text} {anchored : Bool} {matcher : Matcher}

/-- The matcher of a positive expression and exclusions. -/
def ofParts (anchored : Bool) (positive : CompiledRegex) (exclusions : List CompiledRegex) :
    Matcher :=
  if exclusions = [] then .plain positive else .negated ⟨positive, exclusions, anchored⟩

theorem regex_ofParts (positive : CompiledRegex) (exclusions : List CompiledRegex) :
    (ofParts anchored positive exclusions).regex = positive := by
  unfold ofParts
  split
  · rfl
  · rfl

/-- A glob without negations is its own positive variant, so that what compiles is the
positive variant of any glob. -/
theorem compile_eq_map (glob : Text) (anchored : Bool) :
    compile glob anchored = (Glob.compile (Glob.positive glob) anchored).map fun positive =>
      ofParts anchored positive (Glob.exclusions glob) := by
  unfold compile compileNegated?
  by_cases plain : Glob.negations glob = []
  · have itself : Glob.positive glob = glob := Glob.variant_of_negations_eq_nil plain none
    rw [if_pos plain, itself, Glob.exclusions_of_negations_eq_nil plain]
    cases Glob.compile glob anchored with
    | error | ok => rfl
  · rw [if_neg plain]
    cases Glob.compile (Glob.positive glob) anchored with
    | error => rfl
    | ok positive =>
        cases Glob.exclusions glob with
        | nil | cons => rfl

theorem exists_ofGlob {positive : CompiledRegex}
    (built : Glob.compile (Glob.positive glob) anchored = .ok positive) :
    ∃ matcher, ofGlob glob anchored = .ok matcher ∧ matcher.regex = positive := by
  refine ⟨ofParts anchored positive (Glob.exclusions glob), ?_, regex_ofParts _ _⟩
  rw [ofGlob, compile_eq_map, built]
  rfl

theorem compile_of_ofGlob (built : ofGlob glob anchored = .ok matcher) :
    Glob.compile (Glob.positive glob) anchored = .ok matcher.regex ∧
      matcher = ofParts anchored matcher.regex (Glob.exclusions glob) := by
  rw [ofGlob, compile_eq_map] at built
  cases positiveBuilt : Glob.compile (Glob.positive glob) anchored with
  | error error =>
      rw [positiveBuilt] at built
      cases built
  | ok positive =>
      rw [positiveBuilt] at built
      cases built
      rw [regex_ofParts]
      exact ⟨rfl, rfl⟩

/-- Only the positive variant can be refused. -/
theorem ofGlob_eq_error_iff {error : GlobError} :
    ofGlob glob anchored = .error error ↔
      ∃ cause, Glob.compile (Glob.positive glob) anchored = .error cause ∧
        error = ⟨glob, cause⟩ := by
  cases built : Glob.compile (Glob.positive glob) anchored with
  | error cause =>
      have failed : ofGlob glob anchored = .error ⟨glob, cause⟩ := by
        rw [ofGlob, compile_eq_map, built]
        rfl
      rw [failed]
      simp [eq_comm]
  | ok positive =>
      obtain ⟨matcher, made, _⟩ := exists_ofGlob built
      rw [made]
      simp

theorem isNegated_of_ofGlob (built : ofGlob glob anchored = .ok matcher) :
    matcher.isNegated = true ↔ Glob.exclusions glob ≠ [] := by
  rw [(compile_of_ofGlob built).2, ofParts]
  split
  · next none => simp [isNegated, none]
  · next some => simpa [isNegated] using some

/-- A glob with negations has the exclusions that compile, and at least one of them. -/
theorem exclusions_of_negated {negated : NegatedGlob}
    (built : ofGlob glob anchored = .ok (.negated negated)) :
    negated.exclusions = Glob.exclusions glob ∧ negated.anchored = anchored := by
  obtain ⟨_, parts⟩ := compile_of_ofGlob built
  unfold ofParts at parts
  split at parts
  · cases parts
  · have same := Matcher.negated.inj parts
    exact ⟨congrArg NegatedGlob.exclusions same, congrArg NegatedGlob.anchored same⟩

/-- A matcher matches by a part of the candidate that no exclusion matches, whether or
not the glob has any negations. -/
theorem isMatch_iff_exists_part (built : ofGlob glob anchored = .ok matcher)
    (candidate : Text) :
    matcher.isMatch candidate = true ↔
      ∃ part ∈ matcher.regex.parts anchored candidate,
        ∀ exclusion ∈ Glob.exclusions glob, exclusion.isMatch part = false := by
  rw [(compile_of_ofGlob built).2, regex_ofParts, ofParts]
  split
  · next none =>
      rw [none, isMatch, ← CompiledRegex.exists_mem_parts_iff anchored]
      simp
  · exact NegatedGlob.isMatch_iff_exists_part

/-- An anchored matcher matches what the positive expression matches and no
exclusion does. -/
theorem isMatch_of_ofGlob (built : ofGlob glob true = .ok matcher) (candidate : Text) :
    matcher.isMatch candidate = true ↔
      matcher.regex.isMatch candidate = true ∧
        ∀ exclusion ∈ Glob.exclusions glob, exclusion.isMatch candidate = false := by
  rw [isMatch_iff_exists_part built]
  simp [CompiledRegex.mem_parts_anchored, and_assoc]

/-- Without negations the expression of the glob itself decides. -/
theorem isMatch_of_plain (plain : Glob.negations glob = [])
    (built : ofGlob glob anchored = .ok matcher) :
    Glob.compile glob anchored = .ok matcher.regex ∧
      ∀ candidate, matcher.isMatch candidate = matcher.regex.isMatch candidate := by
  obtain ⟨compiled, parts⟩ := compile_of_ofGlob built
  rw [Glob.positive, Glob.variant_of_negations_eq_nil plain] at compiled
  rw [Glob.exclusions_of_negations_eq_nil plain, ofParts, if_pos rfl] at parts
  refine ⟨compiled, fun candidate => ?_⟩
  rw [parts]
  rfl

/-- What a glob with negations matches, its positive expression matches too, by a part
that no exclusion matches.  It matches whatever its positive expression matches if no
exclusion matches any part of that. -/
theorem isMatch_bounds_of_negated {negated : NegatedGlob}
    (built : ofGlob glob anchored = .ok (.negated negated)) (candidate : Text) :
    ((Matcher.negated negated).isMatch candidate = true →
      negated.positive.isMatch candidate = true ∧
        (anchored = true →
          ∀ exclusion ∈ negated.exclusions, exclusion.isMatch candidate = false) ∧
        (anchored = false →
          ∃ start stop, start ≤ stop ∧ stop ≤ candidate.length ∧
            negated.positive.regex.Spans candidate start stop ∧
            ∀ exclusion ∈ negated.exclusions,
              exclusion.isMatch (candidate.slice start stop) = false)) ∧
    (negated.positive.isMatch candidate = true →
      (∀ exclusion ∈ negated.exclusions, ∀ part, part <:+: candidate →
        exclusion.isMatch part = false) →
      (Matcher.negated negated).isMatch candidate = true) := by
  obtain ⟨_, rfl⟩ := exclusions_of_negated built
  constructor
  · intro matched
    obtain ⟨part, left, unmatched⟩ := NegatedGlob.isMatch_iff_exists_part.mp matched
    refine ⟨(CompiledRegex.exists_mem_parts_iff _).mp ⟨part, left⟩, ?_, ?_⟩
    · intro whole
      rw [whole, CompiledRegex.mem_parts_anchored] at left
      exact left.2 ▸ unmatched
    · intro within
      rw [within] at left
      obtain ⟨start, stop, forward, inside, spans, rfl⟩ :=
        CompiledRegex.exists_spans_of_mem_parts left
      exact ⟨start, stop, forward, inside, spans, unmatched⟩
  · intro matched unmatched
    obtain ⟨part, left⟩ := (CompiledRegex.exists_mem_parts_iff _).mpr matched
    have within := CompiledRegex.isInfix_of_mem_parts left
    exact NegatedGlob.isMatch_iff_exists_part.mpr
      ⟨part, left, fun exclusion member => unmatched exclusion member part within⟩

theorem isMatch_bounds_of_negated_withinCandidate :
    let glob := "\\bx!(b)".toList
    let candidate : Text := "a xc".toList
    ∃ negated, ofGlob glob false = .ok (.negated negated) ∧
      ∃ start stop, negated.positive.regex.Spans candidate start stop ∧
        ∀ exclusion ∈ negated.exclusions,
          exclusion.isMatch (candidate.slice start stop) = false := by
  intro glob candidate
  have negates : (ofGlob "\\bx!(b)".toList false).map (·.isNegated) = .ok true := by cbv
  have matched : (ofGlob "\\bx!(b)".toList false).map (·.isMatch "a xc".toList) = .ok true := by
    cbv
  cases built : ofGlob glob false with
  | error error =>
      rw [built] at negates
      cases negates
  | ok matcher =>
      rw [built] at negates matched
      cases matcher with
      | plain regex => cases negates
      | negated negated =>
          obtain ⟨sound, _⟩ := isMatch_bounds_of_negated built candidate
          obtain ⟨start, stop, _, _, spans, unmatched⟩ :=
            (sound (Except.ok.inj matched)).2.2 rfl
          exact ⟨negated, rfl, start, stop, spans, unmatched⟩

end Matcher

end ShellGlob
