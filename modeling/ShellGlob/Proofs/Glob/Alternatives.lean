import Mathlib
import ShellGlob.Proofs.Glob.Fragments
import ShellGlob.Proofs.Matcher

/-!
# Alternatives beside a negation

Braces are the union of their alternatives as long as these are regular
expressions.  A negation in one of them is not confined to it, for its exclusion
is the whole glob with the negation expanded, and so matches whatever the glob
matches through the other alternatives.

The positive expression does match what the glob with the other alternative in
place of the braces matches, but so does every exclusion.  As soon as there is
one, the glob matches none of it (`Braced.isMatch_iff_isNegated_of_sibling`).
-/

namespace ShellGlob.Glob

open Regex (State Extent Means MeansAny)

/-- Braces with two alternatives between two fragments. -/
structure Braced where
  before : Text
  first : Text
  second : Text
  behind : Text

namespace Braced

def text (glob : Braced) : Text :=
  glob.before ++ '{' :: (glob.first ++ ',' :: (glob.second ++ '}' :: glob.behind))

/-- The glob with the second alternative in place of the braces. -/
def sibling (glob : Braced) : Text :=
  glob.before ++ (glob.second ++ glob.behind)

def resolved (glob : Braced) (expansion : Option Nat) : Braced :=
  { glob with first := variant glob.first expansion }

/-- The fragments are self-contained, and nothing is read across a seam between
them.  Negations stand in the first alternative alone. -/
structure Apart (glob : Braced) : Prop where
  before : SelfContained {} glob.before
  first : ∀ expansion, SelfContained {} (variant glob.first expansion) ∧
    SelfContained { braces := 1 } (variant glob.first expansion)
  second : SelfContained {} glob.second
  behind : SelfContained {} glob.behind
  /-- Within braces the second alternative is read as outside of them. -/
  alike : tokens { braces := 1 } glob.second = tokens {} glob.second
  seams : tokens {} glob.sibling =
    tokens {} glob.before ++ (tokens {} glob.second ++ tokens {} glob.behind)
  cuts : pieces glob.text =
    pieces glob.before ++ .text ['{'] :: (pieces glob.first ++ .text [','] ::
      (pieces glob.second ++ .text ['}'] :: pieces glob.behind))
  plain : negations glob.before = [] ∧ negations glob.second = [] ∧ negations glob.behind = []
  plainSibling : negations glob.sibling = []

end Braced

/-- Only the first alternative differs in the variants. -/
theorem Braced.variant_text {glob : Braced} (apart : glob.Apart) (expansion : Option Nat) :
    variant glob.text expansion = (glob.resolved expansion).text := by
  obtain ⟨before, second, behind⟩ := apart.plain
  rw [variant, apart.cuts, resolveFrom_append_of_negations before, resolveFrom,
    resolveFrom_append expansion 0 0 (pieces glob.first), resolveFrom,
    resolveFrom_append_of_negations second, resolveFrom, resolveFrom_of_negations behind]
  rfl

private theorem selfContained_variant {context : Context} {glob inner : Text}
    (alone : pieces glob = [.negation inner]) (star : SelfContained context ['*'])
    (group : SelfContained context ('@' :: '(' :: (inner ++ [')']))) (expansion : Option Nat) :
    SelfContained context (variant glob expansion) := by
  have replaced : variant glob expansion = replacement (expansion = some 0) inner := by
    rw [variant, alone]
    exact List.append_nil _
  rw [replaced, replacement]
  split
  · exact group
  · exact star

/-- If the first alternative is a negation alone, a variant has one of two texts in its
place, so that everything that is asked of the fragments can be checked. -/
theorem Braced.apart_of_negation {glob : Braced} (inner : Text)
    (checked : pieces glob.first = [.negation inner] ∧
      (∀ written ∈ [['*'], '@' :: '(' :: (inner ++ [')'])],
        SelfContained {} written ∧ SelfContained { braces := 1 } written) ∧
      (SelfContained {} glob.before ∧ SelfContained {} glob.second ∧
        SelfContained {} glob.behind) ∧
      tokens { braces := 1 } glob.second = tokens {} glob.second ∧
      tokens {} glob.sibling =
        tokens {} glob.before ++ (tokens {} glob.second ++ tokens {} glob.behind) ∧
      pieces glob.text =
        pieces glob.before ++ .text ['{'] :: (pieces glob.first ++ .text [','] ::
          (pieces glob.second ++ .text ['}'] :: pieces glob.behind)) ∧
      (negations glob.before = [] ∧ negations glob.second = [] ∧ negations glob.behind = []) ∧
      negations glob.sibling = []) :
    glob.Apart := by
  obtain ⟨alone, contained, ⟨before, second, behind⟩, alike, seams, cuts, plain, plainSibling⟩ :=
    checked
  obtain ⟨star, group⟩ := List.forall_mem_cons.mp contained
  have group := List.forall_mem_singleton.mp group
  have first : ∀ expansion, SelfContained {} (variant glob.first expansion) ∧
      SelfContained { braces := 1 } (variant glob.first expansion) := fun expansion =>
    ⟨selfContained_variant alone star.1 group.1 expansion,
      selfContained_variant alone star.2 group.2 expansion⟩
  exact ⟨before, first, second, behind, alike, seams, cuts, plain, plainSibling⟩

theorem exists_run_of_parse_anchor {body : Text} {regex : Regex}
    (parsed : Regex.parse (anchor body) = .ok regex) :
    ∃ start last : State, start.Idle ∧ start.run body = .ok last := by
  obtain ⟨_, ran, _⟩ := Regex.exists_run_of_parse parsed
  obtain ⟨start, taken, ran⟩ := State.run_cons_eq_ok.mp ran
  obtain ⟨last, ranBody, _⟩ := State.run_append_eq_ok.mp ran
  cases taken
  exact ⟨_, last, Or.inl rfl, ranBody⟩

namespace Braced

variable {glob : Braced} {regex : Regex}

theorem Apart.patternFrom_sibling (apart : glob.Apart) :
    patternFrom {} glob.sibling = patternFrom {} glob.before ++
      (patternFrom {} glob.second ++ patternFrom {} glob.behind) := by
  simp only [patternFrom, apart.seams, List.flatMap_append]

theorem patternFrom_text (glob : Braced) (before : SelfContained {} glob.before)
    (first : SelfContained { braces := 1 } glob.first)
    (second : SelfContained { braces := 1 } glob.second) :
    patternFrom {} glob.text = patternFrom {} glob.before ++
      ('(' :: (patternFrom { braces := 1 } glob.first ++
        '|' :: (patternFrom { braces := 1 } glob.second ++
          ')' :: patternFrom {} glob.behind))) := by
  have opens : ∀ rest, patternFrom {} ('{' :: rest) = '(' :: patternFrom { braces := 1 } rest :=
    fun _ => patternFrom_braceOpen rfl
  have separates : ∀ rest, patternFrom { braces := 1 } (',' :: rest) =
      '|' :: patternFrom { braces := 1 } rest :=
    fun _ => patternFrom_comma rfl (by decide)
  have closes : ∀ rest, patternFrom { braces := 1 } ('}' :: rest) =
      ')' :: patternFrom {} rest :=
    fun _ => patternFrom_braceClose rfl (by decide)
  rw [text, before.patternFrom_append (by decide), opens, first.patternFrom_append (by decide),
    separates, second.patternFrom_append (by decide), closes]

/-- If the sibling is an expression, each of its fragments has a meaning. -/
theorem Apart.exists_means (apart : glob.Apart)
    (parsed : Regex.parse (anchor (patternFrom {} glob.sibling)) = .ok regex) :
    (∃ extent, Means (patternFrom {} glob.before) extent) ∧
      (∃ extent, Means (patternFrom {} glob.second) extent) ∧
      (∃ extent, Means (patternFrom {} glob.behind) extent) := by
  rw [apart.patternFrom_sibling] at parsed
  obtain ⟨start, last, idle, ran⟩ := exists_run_of_parse_anchor parsed
  obtain ⟨middle, ranBefore, ran⟩ := State.run_append_eq_ok.mp ran
  obtain ⟨later, ranSecond, ranBehind⟩ := State.run_append_eq_ok.mp ran
  obtain ⟨middleIdle, before⟩ := apart.before.means idle ranBefore
  obtain ⟨laterIdle, second⟩ := apart.second.means middleIdle ranSecond
  obtain ⟨_, behind⟩ := apart.behind.means laterIdle ranBehind
  exact ⟨before, second, behind⟩

/-- If a variant is an expression, the first alternative of it has a meaning. -/
theorem Apart.exists_meansAny (apart : glob.Apart) {expansion : Option Nat} {extent : Extent}
    (before : Means (patternFrom {} glob.before) extent)
    (parsed : Regex.parse (anchor (patternFrom {} (glob.resolved expansion).text)) = .ok regex) :
    ∃ firstExtent,
      MeansAny (patternFrom { braces := 1 } (variant glob.first expansion)) firstExtent := by
  obtain ⟨outside, within⟩ := apart.first expansion
  have second : SelfContained { braces := 1 } glob.second := apart.second.deeper apart.alike
  rw [patternFrom_text (glob.resolved expansion) apart.before within second] at parsed
  obtain ⟨start, last, idle, ran⟩ := exists_run_of_parse_anchor parsed
  obtain ⟨middle, ranBefore, ran⟩ := State.run_append_eq_ok.mp ran
  obtain ⟨items, reads, _⟩ := before
  obtain ⟨same, ranItems, middleIdle, _⟩ := reads start idle
  cases ranBefore.symm.trans ranItems
  obtain ⟨inGroup, group, opened, inGroupIdle, _⟩ := run_opening middleIdle (Or.inl rfl)
  obtain ⟨entered, taken, ran⟩ := State.run_cons_eq_ok.mp ran
  cases (State.run_cons_of_step taken []).symm.trans opened
  obtain ⟨later, ranFirst, _⟩ := State.run_append_eq_ok.mp ran
  exact (SelfContained.meansAny outside within inGroupIdle ranFirst).2

/-- The braces of a variant mean what one of the alternatives means. -/
theorem Apart.means_variant (apart : glob.Apart) {expansion : Option Nat}
    {before first second behind : Extent} (meansBefore : Means (patternFrom {} glob.before) before)
    (meansFirst :
      MeansAny (patternFrom { braces := 1 } (variant glob.first expansion)) first)
    (meansSecond : Means (patternFrom {} glob.second) second)
    (meansBehind : Means (patternFrom {} glob.behind) behind) :
    Means (patternFrom {} (glob.resolved expansion).text) (fun text start stop =>
      ∃ middle, before text start middle ∧
        ∃ later, (first text middle later ∨ second text middle later) ∧
          behind text later stop) := by
  have within : SelfContained { braces := 1 } glob.second := apart.second.deeper apart.alike
  have alike : patternFrom { braces := 1 } glob.second = patternFrom {} glob.second := by
    simp only [patternFrom, apart.alike]
  have braces := (meansFirst.or meansSecond.meansAny).capture
  have whole := meansBefore.append (braces.append meansBehind)
  rw [patternFrom_text (glob.resolved expansion) apart.before
    (apart.first expansion).2 within]
  simpa [resolved, alike] using whole

theorem Apart.isMatch_variant (apart : glob.Apart) {sibling compiled : CompiledRegex}
    (builtSibling : compile glob.sibling true = .ok sibling) {expansion : Option Nat}
    (built : compile (variant glob.text expansion) true = .ok compiled) {candidate : Text}
    (matched : sibling.isMatch candidate = true) : compiled.isMatch candidate = true := by
  rw [variant_text apart] at built
  obtain ⟨siblingRegex, parsedSibling, _, rfl⟩ := compile_anchored_eq_ok_iff.mp builtSibling
  obtain ⟨regex, parsed, _, rfl⟩ := compile_anchored_eq_ok_iff.mp built
  obtain ⟨⟨beforeExtent, before⟩, ⟨secondExtent, second⟩, ⟨behindExtent, behind⟩⟩ :=
    apart.exists_means parsedSibling
  obtain ⟨firstExtent, first⟩ := apart.exists_meansAny before parsed
  have meansVariant := apart.means_variant before first second behind
  obtain ⟨same, parsedAs, variantMatches⟩ := meansVariant.isMatch_anchored
  cases parsed.symm.trans parsedAs
  have meansSibling := before.append (second.append behind)
  rw [← apart.patternFrom_sibling] at meansSibling
  obtain ⟨sameSibling, siblingParsedAs, siblingMatches⟩ := meansSibling.isMatch_anchored
  cases parsedSibling.symm.trans siblingParsedAs
  obtain ⟨middle, beforeSpans, later, secondSpans, behindSpans⟩ :=
    (siblingMatches candidate).mp matched
  exact (variantMatches candidate).mpr
    ⟨middle, beforeSpans, later, Or.inr secondSpans, behindSpans⟩

/-- What the sibling matches, the positive expression matches, too, but so does every
exclusion: the glob matches none of it unless there is no exclusion. -/
theorem isMatch_iff_isNegated_of_sibling (apart : glob.Apart) {sibling whole : Matcher}
    (builtSibling : Matcher.ofGlob glob.sibling true = .ok sibling)
    (built : Matcher.ofGlob glob.text true = .ok whole) {candidate : Text}
    (matched : sibling.isMatch candidate = true) :
    whole.regex.isMatch candidate = true ∧
      (whole.isMatch candidate = true ↔ whole.isNegated = false) := by
  have siblingMatches := ((Matcher.isMatch_of_ofGlob builtSibling candidate).mp matched).1
  have compiledSibling := (Matcher.compile_of_ofGlob builtSibling).1
  rw [positive, variant_of_negations_eq_nil apart.plainSibling] at compiledSibling
  have positiveMatches : whole.regex.isMatch candidate = true :=
    apart.isMatch_variant compiledSibling (Matcher.compile_of_ofGlob built).1 siblingMatches
  have exclusionsMatch : ∀ exclusion ∈ exclusions glob.text,
      exclusion.isMatch candidate = true := by
    intro exclusion member
    obtain ⟨index, _, compiled⟩ := mem_exclusions_iff.mp member
    exact apart.isMatch_variant compiledSibling compiled siblingMatches
  refine ⟨positiveMatches, ?_⟩
  rw [Matcher.isMatch_of_ofGlob built, Bool.eq_false_iff, ne_eq,
    Matcher.isNegated_of_ofGlob built, Decidable.not_not]
  constructor
  · rintro ⟨_, unmatched⟩
    rw [List.eq_nil_iff_forall_not_mem]
    intro exclusion member
    have matchedToo := exclusionsMatch exclusion member
    rw [unmatched exclusion member] at matchedToo
    cases matchedToo
  · intro none
    simp [positiveMatches, none]

theorem isMatch_iff_isNegated_of_sibling_between :
    let glob : Braced := ⟨['a'], "!(b)".toList, ['c'], ['d']⟩
    glob.text = "a\x7b!(b),c\x7dd".toList ∧
      ∃ sibling whole, Matcher.ofGlob glob.sibling true = .ok sibling ∧
        Matcher.ofGlob glob.text true = .ok whole ∧
        sibling.isMatch "acd".toList = true ∧ whole.regex.isMatch "acd".toList = true ∧
        (whole.isMatch "acd".toList = true ↔ whole.isNegated = false) := by
  intro glob
  have apart : glob.Apart := apart_of_negation ['b'] (by decide +kernel)
  have found :
      (Matcher.ofGlob glob.sibling true).toOption.any (·.isMatch "acd".toList) = true := by
    cbv
  have builds : (Matcher.ofGlob glob.text true).isOk = true := by cbv
  obtain ⟨sibling, builtSibling, matched⟩ := exists_of_any found
  obtain ⟨whole, built⟩ := exists_of_isOk builds
  exact ⟨by decide, sibling, whole, builtSibling, built, matched,
    isMatch_iff_isNegated_of_sibling apart builtSibling built matched⟩

/-- An alternative loses its matches to the negation beside it. -/
theorem not_isMatch_of_sibling :
    let glob : Braced := ⟨[], "!(a)".toList, ['b'], []⟩
    glob.text = "\x7b!(a),b\x7d".toList ∧ glob.Apart ∧
      ∃ sibling whole, Matcher.ofGlob glob.sibling true = .ok sibling ∧
        Matcher.ofGlob glob.text true = .ok whole ∧
        sibling.isMatch ['b'] = true ∧ whole.isMatch ['b'] = false := by
  intro glob
  have apart : glob.Apart := apart_of_negation ['a'] (by decide +kernel)
  have found : (Matcher.ofGlob glob.sibling true).toOption.any (·.isMatch ['b']) = true := by
    cbv
  have missed : (Matcher.ofGlob glob.text true).toOption.any (!·.isMatch ['b']) = true := by
    cbv
  obtain ⟨sibling, builtSibling, matched⟩ := exists_of_any found
  obtain ⟨whole, built, unmatched⟩ := exists_of_any missed
  exact ⟨by decide, apart, sibling, whole, builtSibling, built, matched,
    by simpa using unmatched⟩

end Braced

end ShellGlob.Glob
