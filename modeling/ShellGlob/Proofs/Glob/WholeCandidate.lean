import Mathlib
import ShellGlob.Proofs.Glob.Refusal

/-!
# Anchored globs match whole candidates

The `^` and the `$` of an anchored glob are written around its pattern without a group
in between.  They apply to all of it nevertheless: a `|` is written only within a brace
or a group, and where nothing is left open the pattern is items in a row
(`exists_reads_of_parse`).  So an anchored glob matches a candidate if and only if the
expression of the unanchored glob matches all of the candidate
(`Matcher.isMatch_iff_spans_whole`).

The unanchored expression is asked for any match over the whole candidate here, not for
the one that a search would prefer.
-/

namespace ShellGlob

open Regex (State Reads SpansItems)

namespace Glob

theorem Context.eq_of_not_isOpen {context : Context} (closed : ¬ context.IsOpen) :
    context = {} := by
  obtain ⟨classPart, braces, groups⟩ := context
  simp only [IsOpen, not_or, Decidable.not_not, Nat.not_lt, Nat.le_zero] at closed
  obtain ⟨rfl, rfl, rfl⟩ := closed
  rfl

/-- The pattern of a glob without empty classes is items in a row if it can be read
between the two assertions. -/
theorem exists_reads_of_parse {glob : Text} {regex : Regex}
    (filled : classesFilled .filled (tokens {} glob) = true)
    (parsed : Regex.parse (anchor (patternFrom {} glob)) = .ok regex) :
    ∃ items, Reads (patternFrom {} glob) items := by
  have enclosed : Regex.parse (enclose true (patternFrom {} glob)) = .ok regex := parsed
  have closed : ¬ (({} : Context).afterAll (tokens {} glob)).IsOpen := by
    rcases parse_enclose_patternFrom glob true filled with ⟨_, _, closed, _⟩ | ⟨_, failed, _⟩
    · exact closed
    · cases enclosed.symm.trans failed
  rw [parse_enclose] at enclosed
  cases ran : (start true).run (patternFrom {} glob) with
  | error error =>
      rw [ran] at enclosed
      cases enclosed
  | ok last =>
      exact (reads_of_leaves (Context.eq_of_not_isOpen closed) filled (Or.inl rfl) ran).2

end Glob

namespace Matcher

/-- No alternative of an anchored glob is anchored on its own, so the glob matches whole
candidates. -/
theorem isMatch_iff_spans_whole {glob : Text} {matcher : Matcher}
    (plain : Glob.negations glob = [])
    (filled : Glob.classesFilled .filled (Glob.tokens {} glob) = true)
    (built : ofGlob glob true = .ok matcher) :
    ∃ items, Reads ((Glob.pattern? glob false).getD []) items ∧
      Regex.parse ((Glob.pattern? glob false).getD []) = .ok (Regex.ofItems items) ∧
      matcher.regex.regex = Regex.anchored items ∧
      ∀ candidate, matcher.isMatch candidate = true ↔
        (Regex.ofItems items).Spans candidate 0 candidate.length := by
  obtain ⟨compiled, _⟩ := compile_of_ofGlob built
  rw [Glob.positive, Glob.variant_of_negations_eq_nil plain] at compiled
  obtain ⟨regex, parsed, _, same⟩ := Glob.compile_anchored_eq_ok_iff.mp compiled
  obtain ⟨items, reads⟩ := Glob.exists_reads_of_parse filled parsed
  have around : regex = Regex.anchored items :=
    Except.ok.inj (parsed.symm.trans (Regex.parse_anchored reads))
  have anchored : matcher.regex.regex = Regex.anchored items := by
    rw [same, ← around]
    rfl
  rw [Glob.getD_pattern?]
  refine ⟨items, reads, Regex.parse_of_reads reads, anchored, ?_⟩
  intro candidate
  rw [isMatch_of_ofGlob built, Glob.exclusions_of_negations_eq_nil plain,
    Regex.isMatch_of_anchored anchored, Regex.spans_ofItems]
  simp

theorem isMatch_iff_spans_whole_alternatives :
    let glob := "\x7ba,b|c\x7d*(d|[|)])".toList
    ∃ matcher items, ofGlob glob true = .ok matcher ∧
      Regex.parse "(a|b\\|c)(?:d|[|)])*".toList = .ok (Regex.ofItems items) ∧
      ∀ candidate, matcher.isMatch candidate = true ↔
        (Regex.ofItems items).Spans candidate 0 candidate.length := by
  intro glob
  have plain : Glob.negations glob = [] := by
    unfold glob
    cbv
  have filled : Glob.classesFilled .filled (Glob.tokens {} glob) = true := by
    unfold glob
    cbv
  have pattern : (Glob.pattern? glob false).getD [] = "(a|b\\|c)(?:d|[|)])*".toList := by
    unfold glob
    cbv
  have compiles : (ofGlob glob true).isOk = true := by
    unfold glob
    cbv
  obtain ⟨matcher, built⟩ := exists_of_isOk compiles
  obtain ⟨items, _, parsed, _, isWhole⟩ := isMatch_iff_spans_whole plain filled built
  rw [pattern] at parsed
  exact ⟨matcher, items, built, parsed, isWhole⟩

end Matcher

end ShellGlob
