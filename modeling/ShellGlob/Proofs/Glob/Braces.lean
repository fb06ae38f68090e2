import Mathlib
import ShellGlob.Proofs.Glob.Refusal

/-!
# Braces are the union of their alternatives

Braces with alternatives that are read alike within them and on their own match what any
of the globs matches that have one alternative in the place of the braces
(`Braces.isMatch_iff_any`).  This holds of anchored globs and of others.

The alternatives are compiled together on one side and one by one on the other.  What
they have in common is what the fragments mean, for the pattern of each fragment stands
in all of these patterns.  Which match a search prefers may well differ, but not whether
there is one.
-/

namespace ShellGlob

open Regex (State Reads SpansItems Means MeansAny Extent)

namespace Regex

variable {pattern : Text} {extent : Extent}

/-- Whether the extent has the whole of a text, or a part of it. -/
def Extent.Matches (extent : Extent) (anchored : Bool) (text : Text) : Prop :=
  if anchored then extent text 0 text.length
  else ∃ start ≤ text.length, ∃ stop, extent text start stop

theorem Extent.matches_exists_iff {α : Type} {choices : List α} {extents : α → Extent}
    (anchored : Bool) (text : Text) :
    Extent.Matches (fun text start stop => ∃ choice ∈ choices, extents choice text start stop)
        anchored text ↔
      ∃ choice ∈ choices, (extents choice).Matches anchored text := by
  cases anchored with
  | true => exact Iff.rfl
  | false =>
      simp only [Matches, Bool.false_eq_true, if_false]
      constructor
      · rintro ⟨start, inside, stop, choice, member, spans⟩
        exact ⟨choice, member, start, inside, stop, spans⟩
      · rintro ⟨choice, member, start, inside, stop, spans⟩
        exact ⟨start, inside, stop, choice, member, spans⟩

/-- Anchored or not, a text that is items reads as an expression that matches what the
text means. -/
theorem Means.isMatch_enclose (means : Means pattern extent) (anchored : Bool) :
    ∃ regex, parse (Glob.enclose anchored pattern) = .ok regex ∧
      ∀ text, (CompiledRegex.ofRegex regex).isMatch text = true ↔ extent.Matches anchored text := by
  cases anchored with
  | true => exact means.isMatch_anchored
  | false =>
      obtain ⟨items, reads, spans⟩ := means
      refine ⟨ofItems items, parse_of_reads reads, fun text => ?_⟩
      have itself : (CompiledRegex.ofRegex (ofItems items)).regex = ofItems items := rfl
      simp only [CompiledRegex.isMatch_iff, itself, spans_ofItems, spans]
      exact Iff.rfl

end Regex

namespace Glob

/-- A fragment that leaves open what it finds open, and has no empty class. -/
structure Complete (fragment : Text) : Prop where
  leaves : ({} : Context).afterAll (tokens {} fragment) = {}
  filled : classesFilled .filled (tokens {} fragment) = true

instance Complete.decidable (fragment : Text) : Decidable (Complete fragment) :=
  decidable_of_iff (({} : Context).afterAll (tokens {} fragment) = {} ∧
      classesFilled .filled (tokens {} fragment) = true)
    ⟨fun ⟨leaves, filled⟩ => ⟨leaves, filled⟩, fun complete => ⟨complete.leaves, complete.filled⟩⟩

theorem Complete.means {fragment : Text} (complete : Complete fragment) {whole last : State}
    (idle : whole.Idle) (ran : whole.run (patternFrom {} fragment) = .ok last) :
    last.Idle ∧ Means (patternFrom {} fragment) (Regex.extentOf (patternFrom {} fragment)) := by
  obtain ⟨lastIdle, items, reads⟩ := reads_of_leaves complete.leaves complete.filled idle ran
  exact ⟨lastIdle, reads.means_extentOf⟩

/-- Braces with alternatives between two fragments. -/
structure Braces where
  before : Text
  alternatives : List Text
  behind : Text

namespace Braces

def text (braces : Braces) : Text :=
  braces.before ++ '{' :: ([','].intercalate braces.alternatives ++ '}' :: braces.behind)

/-- The glob with one alternative in the place of the braces. -/
def pick (braces : Braces) (alternative : Text) : Text :=
  braces.before ++ (alternative ++ braces.behind)

def picks (braces : Braces) : List Text :=
  braces.alternatives.map braces.pick

/-- The fragments are self-contained, each of them is written into the patterns as on its
own, and there is no negation. -/
structure Apart (braces : Braces) : Prop where
  written : braces.alternatives ≠ []
  before : Complete braces.before
  alternatives : ∀ alternative ∈ braces.alternatives, Complete alternative
  behind : Complete braces.behind
  inBraces : patternFrom {} braces.text =
    patternFrom {} braces.before ++
      '(' :: (['|'].intercalate (braces.alternatives.map (patternFrom {})) ++
        ')' :: patternFrom {} braces.behind)
  inPick : ∀ alternative ∈ braces.alternatives, patternFrom {} (braces.pick alternative) =
    patternFrom {} braces.before ++ (patternFrom {} alternative ++ patternFrom {} braces.behind)
  plain : negations braces.text = []
  plainPick : ∀ alternative ∈ braces.alternatives, negations (braces.pick alternative) = []

/-- What the glob with an alternative in the place of the braces means. -/
def extentOfPick (braces : Braces) (alternative : Text) : Extent := fun text start stop =>
  ∃ middle, Regex.extentOf (patternFrom {} braces.before) text start middle ∧
    ∃ later, Regex.extentOf (patternFrom {} alternative) text middle later ∧
      Regex.extentOf (patternFrom {} braces.behind) text later stop

/-- Each fragment has a meaning of its own. -/
structure Meaningful (braces : Braces) : Prop where
  before : Means (patternFrom {} braces.before) (Regex.extentOf (patternFrom {} braces.before))
  alternatives : ∀ alternative ∈ braces.alternatives,
    Means (patternFrom {} alternative) (Regex.extentOf (patternFrom {} alternative))
  behind : Means (patternFrom {} braces.behind) (Regex.extentOf (patternFrom {} braces.behind))

variable {braces : Braces} {anchored : Bool}

theorem Apart.means_of_compile (apart : braces.Apart) {alternative : Text}
    (member : alternative ∈ braces.alternatives) {compiled : CompiledRegex}
    (built : compile (braces.pick alternative) anchored = .ok compiled) :
    Means (patternFrom {} braces.before) (Regex.extentOf (patternFrom {} braces.before)) ∧
      Means (patternFrom {} alternative) (Regex.extentOf (patternFrom {} alternative)) ∧
      Means (patternFrom {} braces.behind) (Regex.extentOf (patternFrom {} braces.behind)) := by
  obtain ⟨_, regex, parsed, _⟩ := compile_eq_ok_iff.mp built
  rw [parse_enclose, apart.inPick alternative member] at parsed
  obtain ⟨last, ran, _⟩ := bind_eq_ok parsed
  have idle : (start anchored).Idle := by
    cases anchored with
    | false | true => exact Or.inl rfl
  obtain ⟨middle, ranBefore, ran⟩ := State.run_append_eq_ok.mp ran
  obtain ⟨later, ranAlternative, ranBehind⟩ := State.run_append_eq_ok.mp ran
  obtain ⟨middleIdle, before⟩ := apart.before.means idle ranBefore
  obtain ⟨laterIdle, means⟩ := (apart.alternatives alternative member).means middleIdle
    ranAlternative
  exact ⟨before, means, (apart.behind.means laterIdle ranBehind).2⟩

theorem Apart.meaningful (apart : braces.Apart)
    (built : ∀ alternative ∈ braces.alternatives,
      ∃ compiled, compile (braces.pick alternative) anchored = .ok compiled) :
    braces.Meaningful := by
  obtain ⟨first, member⟩ := List.exists_mem_of_ne_nil _ apart.written
  obtain ⟨compiled, builtFirst⟩ := built first member
  obtain ⟨before, _, behind⟩ := apart.means_of_compile member builtFirst
  refine ⟨before, fun alternative member => ?_, behind⟩
  obtain ⟨compiled, builtPick⟩ := built alternative member
  exact (apart.means_of_compile member builtPick).2.1

theorem Apart.means_pick (apart : braces.Apart) (meaningful : braces.Meaningful)
    {alternative : Text} (member : alternative ∈ braces.alternatives) :
    Means (patternFrom {} (braces.pick alternative)) (braces.extentOfPick alternative) := by
  rw [apart.inPick alternative member]
  exact meaningful.before.append
    ((meaningful.alternatives alternative member).append meaningful.behind)

/-- The braces mean what the globs with one alternative mean together. -/
theorem Apart.means_text (apart : braces.Apart) (meaningful : braces.Meaningful) :
    Means (patternFrom {} braces.text) (fun text start stop =>
      ∃ alternative ∈ braces.alternatives,
        braces.extentOfPick alternative text start stop) := by
  have written : braces.alternatives.map (patternFrom {}) ≠ [] := by
    simpa using apart.written
  have means : ∀ pattern ∈ braces.alternatives.map (patternFrom {}),
      Means pattern (Regex.extentOf pattern) := by
    simpa using meaningful.alternatives
  have choice := (Regex.meansAny_intercalate written means).capture
  have whole := meaningful.before.append (choice.append meaningful.behind)
  rw [apart.inBraces]
  have pattern : ∀ choices : Text, '(' :: (choices ++ ')' :: patternFrom {} braces.behind) =
      '(' :: (choices ++ [')']) ++ patternFrom {} braces.behind := by simp
  rw [pattern]
  apply whole.congr
  intro text start stop
  constructor
  · rintro ⟨middle, spansBefore, later, ⟨_, written, spans⟩, spansBehind⟩
    obtain ⟨alternative, member, rfl⟩ := List.mem_map.mp written
    exact ⟨alternative, member, middle, spansBefore, later, spans, spansBehind⟩
  · rintro ⟨alternative, member, middle, spansBefore, later, spans, spansBehind⟩
    exact ⟨middle, spansBefore, later, ⟨_, List.mem_map_of_mem member, spans⟩, spansBehind⟩

end Braces

theorem isMatch_of_means {glob : Text} {extent : Extent} {anchored : Bool} {matcher : Matcher}
    (plain : negations glob = []) (means : Means (patternFrom {} glob) extent)
    (built : Matcher.ofGlob glob anchored = .ok matcher) (candidate : Text) :
    matcher.isMatch candidate = true ↔ extent.Matches anchored candidate := by
  obtain ⟨compiled, same⟩ := Matcher.isMatch_of_plain plain built
  obtain ⟨_, regex, parsed, _, rest⟩ := compile_eq_ok_iff.mp compiled
  obtain ⟨regexRead, parsedAs, matched⟩ := means.isMatch_enclose anchored
  cases parsed.symm.trans parsedAs
  rw [same, rest]
  exact matched candidate

end Glob

namespace AnyOf

variable {globs : List Text} {anchored : Bool}

private theorem forall₂_of_mapM {matchers : List Matcher}
    (made : globs.mapM (Matcher.ofGlob · anchored) = .ok matchers) :
    List.Forall₂ (fun glob matcher => Matcher.ofGlob glob anchored = .ok matcher)
      globs matchers := by
  induction globs generalizing matchers with
  | nil =>
      rw [List.mapM_nil] at made
      cases made
      exact .nil
  | cons glob globs ih =>
      rw [List.mapM_cons] at made
      obtain ⟨matcher, madeFirst, made⟩ := bind_eq_ok made
      obtain ⟨others, madeRest, same⟩ := bind_eq_ok made
      cases same
      exact .cons madeFirst (ih madeRest)

/-- Each of the globs has a matcher, and a candidate is matched if one of them matches
it. -/
theorem isMatch_iff {any : AnyOf} (built : ofGlobs globs anchored = .ok any) :
    (∀ glob ∈ globs, ∃ matcher, Matcher.ofGlob glob anchored = .ok matcher) ∧
      ∀ candidate, any.isMatch candidate = true ↔ ∃ glob ∈ globs, ∃ matcher,
        Matcher.ofGlob glob anchored = .ok matcher ∧ matcher.isMatch candidate = true := by
  obtain ⟨matchers, mapped, same⟩ := bind_eq_ok built
  cases same
  unfold isMatch
  have made := forall₂_of_mapM mapped
  clear built mapped
  induction made with
  | nil => simp
  | cons made _ ih => simpa [made, ih.2] using ih.1

end AnyOf

namespace Glob.Braces

/-- Braces match what any of the globs matches that have one of the alternatives in their
place. -/
theorem isMatch_iff_any {braces : Braces} (apart : braces.Apart) {anchored : Bool}
    {whole : Matcher} {any : AnyOf}
    (built : Matcher.ofGlob braces.text anchored = .ok whole)
    (builtAny : AnyOf.ofGlobs braces.picks anchored = .ok any) (candidate : Text) :
    whole.isMatch candidate = true ↔ any.isMatch candidate = true := by
  obtain ⟨exists_matcher, anyMatches⟩ := AnyOf.isMatch_iff builtAny
  have compiles : ∀ alternative ∈ braces.alternatives,
      ∃ compiled, compile (braces.pick alternative) anchored = .ok compiled := by
    intro alternative member
    obtain ⟨matcher, made⟩ := exists_matcher _ (List.mem_map_of_mem member)
    exact ⟨_, (Matcher.isMatch_of_plain (apart.plainPick alternative member) made).1⟩
  have meaningful := apart.meaningful compiles
  have pickMatches : ∀ alternative ∈ braces.alternatives, ∀ matcher,
      Matcher.ofGlob (braces.pick alternative) anchored = .ok matcher →
        (matcher.isMatch candidate = true ↔
          (braces.extentOfPick alternative).Matches anchored candidate) := by
    intro alternative member matcher made
    exact isMatch_of_means (apart.plainPick alternative member)
      (apart.means_pick meaningful member) made candidate
  rw [isMatch_of_means apart.plain (apart.means_text meaningful) built,
    Regex.Extent.matches_exists_iff, anyMatches]
  constructor
  · rintro ⟨alternative, member, matched⟩
    obtain ⟨matcher, made⟩ := exists_matcher _ (List.mem_map_of_mem member)
    exact ⟨_, List.mem_map_of_mem member, matcher, made,
      (pickMatches alternative member matcher made).mpr matched⟩
  · rintro ⟨_, pick, matcher, made, matched⟩
    obtain ⟨alternative, member, rfl⟩ := List.mem_map.mp pick
    exact ⟨alternative, member, (pickMatches alternative member matcher made).mp matched⟩

theorem isMatch_iff_any_nested :
    let braces : Braces :=
      ⟨"src/".toList, ["\x7ba,[,]\x7d*".toList, [], "+(b|\\,)".toList], "?.\\]".toList⟩
    braces.text = "src/\x7b\x7ba,[,]\x7d*,,+(b|\\,)\x7d?.\\]".toList ∧
      ∃ whole any, Matcher.ofGlob braces.text false = .ok whole ∧
        AnyOf.ofGlobs braces.picks false = .ok any ∧
        ∀ candidate, whole.isMatch candidate = true ↔ any.isMatch candidate = true := by
  intro braces
  have apart : braces.Apart :=
    { written := by decide
      before := by decide +kernel
      alternatives := by decide +kernel
      behind := by decide +kernel
      inBraces := by decide +kernel
      inPick := by decide +kernel
      plain := by decide +kernel
      plainPick := by decide +kernel }
  obtain ⟨whole, built⟩ : ∃ whole, Matcher.ofGlob braces.text false = .ok whole :=
    exists_of_isOk (by cbv)
  obtain ⟨any, builtAny⟩ : ∃ any, AnyOf.ofGlobs braces.picks false = .ok any :=
    exists_of_isOk (by cbv)
  exact ⟨by decide, whole, any, built, builtAny, isMatch_iff_any apart built builtAny⟩

end Glob.Braces

end ShellGlob
