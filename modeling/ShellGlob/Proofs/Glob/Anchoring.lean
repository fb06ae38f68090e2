import ShellGlob.Proofs.Glob.PatternEnds
import ShellGlob.Proofs.Outcome

/-!
# A glob with and without anchors

The anchors of a glob are two characters around its pattern.  They neither repair a pattern
nor break one, so a glob has an anchored matcher exactly if it has an unanchored one, but
for the level that they add and for the size of its expression.  The two matchers have the
same exclusions, and the expression of the one is that of the other between the anchors
(`Matcher.ofGlob_anchored`).

The size does have a say.  Alternatives that start alike are small together, and the anchors
keep them apart (`Matcher.not_ofGlob_anchored_of_large`).
-/

namespace ShellGlob

namespace Glob

variable {glob : Text} {anchored : Bool} {compiled : CompiledRegex}

/-- The text of the expression of a glob. -/
theorem source_of_compile (built : compile glob anchored = .ok compiled) :
    compiled.source = enclose anchored (patternFrom {} glob) := by
  obtain ⟨_, regex, parsed, _, rfl⟩ := compile_eq_ok_iff.mp built
  exact Regex.source_of_parse parsed

end Glob

namespace Matcher

variable {glob : Text} {anchored : Bool} {matcher : Matcher}

/-- The expressions that must not match. -/
def exclusions : Matcher → List CompiledRegex
  | .plain _ => []
  | .negated matcher => matcher.exclusions

theorem exclusions_of_ofGlob (built : ofGlob glob anchored = .ok matcher) :
    matcher.exclusions = Glob.exclusions glob := by
  rw [(compile_of_ofGlob built).2, ofParts]
  split
  · next nothing => exact nothing.symm
  · rfl

/-- What anchors change about the matcher of a glob. -/
theorem ofGlob_anchored (glob : Text) (written : glob ≠ []) :
    (∀ anchored, ofGlob glob true = .ok anchored →
      (∃ unanchored, ofGlob glob false = .ok unanchored) ∨
        ∃ error, ofGlob glob false = .error error ∧ error.OfSize) ∧
    (∀ anchored unanchored, ofGlob glob true = .ok anchored →
      ofGlob glob false = .ok unanchored →
        anchored.isNegated = unanchored.isNegated ∧
        anchored.exclusions = unanchored.exclusions ∧
        anchored.regex.source = '^' :: (unanchored.regex.source ++ ['$'])) ∧
    ∀ unanchored, ofGlob glob false = .ok unanchored →
      unanchored.regex.regex.depth < Regex.nestingLimit →
        (∃ anchored, ofGlob glob true = .ok anchored) ∨
          ∃ error, ofGlob glob true = .error error ∧ error.OfSize := by
  have positiveWritten : Glob.positive glob ≠ [] := mt Glob.positive_eq_nil_iff.mp written
  refine ⟨?_, ?_, ?_⟩
  · intro anchored built
    obtain ⟨_, whole, parsedWhole, ⟨notNested, _⟩, _⟩ :=
      Glob.compile_eq_ok_iff.mp (compile_of_ofGlob built).1
    obtain ⟨regex, parsed, anchors⟩ := Glob.exists_anchors_of_anchored parsedWhole
    exact ofGlob_of_parse (fun nothing => positiveWritten nothing.1) parsed
      (Nat.le_trans anchors.depth.1 ((Regex.overNested?_eq_none_iff whole).mp notNested))
  · intro anchored unanchored built builtUnanchored
    have source := Glob.source_of_compile (compile_of_ofGlob built).1
    have sourceUnanchored := Glob.source_of_compile (compile_of_ofGlob builtUnanchored).1
    refine ⟨?_, ?_, ?_⟩
    · rw [Bool.eq_iff_iff, isNegated_of_ofGlob built, isNegated_of_ofGlob builtUnanchored]
    · rw [exclusions_of_ofGlob built, exclusions_of_ofGlob builtUnanchored]
    · rw [source, sourceUnanchored]
      rfl
  · intro unanchored built shallow
    obtain ⟨_, regex, parsed, _, same⟩ := Glob.compile_eq_ok_iff.mp (compile_of_ofGlob built).1
    obtain ⟨whole, parsedWhole, anchors⟩ := Regex.anchors_of_parse parsed
    rw [same] at shallow
    exact ofGlob_of_parse (fun nothing => positiveWritten nothing.1) parsedWhole
      (Nat.le_trans anchors.depth.2 shallow)

theorem ofGlob_anchored_negated :
    let glob := "src/!(a|b).[ch]".toList
    glob ≠ [] ∧ ∃ anchored unanchored, ofGlob glob true = .ok anchored ∧
      ofGlob glob false = .ok unanchored ∧ anchored.exclusions = unanchored.exclusions ∧
      anchored.isNegated = true ∧
      anchored.regex.source = '^' :: (unanchored.regex.source ++ ['$']) := by
  intro glob
  have written : glob ≠ [] := List.cons_ne_nil _ _
  obtain ⟨_, alike, fromUnanchored⟩ := ofGlob_anchored glob written
  have checked : (ofGlob "src/!(a|b).[ch]".toList false).toOption.any (fun matcher =>
      matcher.isNegated && decide (matcher.regex.regex.depth < Regex.nestingLimit)) = true := by
    cbv
  have accepted : (ofGlob "src/!(a|b).[ch]".toList true).isOk = true := by cbv
  obtain ⟨unanchored, builtUnanchored, holds⟩ := exists_of_any checked
  obtain ⟨negated, shallow⟩ := Bool.and_eq_true_iff.mp holds
  rcases fromUnanchored unanchored builtUnanchored (of_decide_eq_true shallow) with
    ⟨anchored, built⟩ | ⟨error, refused, _⟩
  · obtain ⟨sameKind, sameExclusions, source⟩ := alike anchored unanchored built builtUnanchored
    exact ⟨written, anchored, unanchored, built, builtUnanchored, sameExclusions,
      sameKind.trans negated, source⟩
  · rw [refused] at accepted
    cases accepted

end Matcher

/-- Two alternatives that share most of what they are made of.  Each starts with a class in
which a brace opens, so that the comma between them separates them. -/
def sharingGlob : Text :=
  let shared := "[]\x7b]".toList ++ (List.replicate 120 "\\w".toList).flatten
  shared ++ "ab,".toList ++ shared ++ ['c']

namespace Regex

/-- A class of a bracket and a parenthesis. -/
def openingClass : Atom :=
  .bracket false (.union (.literal (.plain ']')) (.literal (.plain '(')))

def openingCharacters : Unicode.CharacterSet :=
  .ofTable [(0x28, 0x28), (0x5d, 0x5d)] (by decide)

def wordRow : List Regex :=
  List.replicate 120 (.atom (.shorthand ⟨false, .word⟩))

/-- What the alternatives start with, and items behind it. -/
def sharing (items : List Regex) : List Regex :=
  .atom openingClass :: (wordRow ++ items)

def firstSharing : List Regex :=
  sharing [.atom (.literal (.plain 'a')), .atom (.literal (.plain 'b'))]

def lastSharing : List Regex :=
  sharing [.atom (.literal (.plain 'c'))]

private theorem characters_openingClass : openingClass.characters = openingCharacters := by
  unfold openingClass openingCharacters
  cbv

-- The union in the class is no structural recursion, so its value stands here before the
-- rest is evaluated.
private theorem alternatives_sharing (items : List Regex) :
    (ofItems (sharing items)).alternatives =
      ((Form.set openingCharacters).append
        (.choice (ofItems (wordRow ++ items)).alternatives)).branches := by
  have parts : ofItems (sharing items) =
    .concat (.atom openingClass) (ofItems (wordRow ++ items)) := rfl
  rw [parts, alternatives, alternatives, characters_openingClass]
  rfl

/-- The alternatives take little more than one of them. -/
theorem size_sharing_le :
    (ofBranches [ofItems firstSharing, ofItems lastSharing]).normal.size ≤ sizeLimit := by
  have parts : ofBranches [ofItems firstSharing, ofItems lastSharing] =
    .alternate (ofItems firstSharing) (ofItems lastSharing) := rfl
  rw [parts, normal, alternatives, firstSharing, lastSharing, alternatives_sharing,
    alternatives_sharing]
  decide +kernel

/-- Between the anchors each of the alternatives has everything for itself. -/
theorem lt_size_anchored_sharing :
    sizeLimit < (ofBranches [ofItems (.assertion .start :: firstSharing),
      ofItems (lastSharing ++ [.assertion .stop])]).normal.size := by
  have parts : ofBranches [ofItems (.assertion .start :: firstSharing),
      ofItems (lastSharing ++ [.assertion .stop])] =
    .alternate (.concat (.assertion .start) (ofItems firstSharing))
      (ofItems (sharing [.atom (.literal (.plain 'c')), .assertion .stop])) := rfl
  rw [parts, normal, alternatives, alternatives, firstSharing, alternatives_sharing,
    alternatives_sharing]
  decide +kernel

end Regex

namespace Matcher

/-- The alternatives are accepted together, but not between anchors, which keep them
apart. -/
theorem not_ofGlob_anchored_of_large :
    (∃ unanchored, ofGlob sharingGlob false = .ok unanchored ∧
        unanchored.regex.regex.depth < Regex.nestingLimit) ∧
      ¬ ∃ anchored, ofGlob sharingGlob true = .ok anchored := by
  constructor
  · have written : ¬ (Glob.positive sharingGlob = [] ∧ false = false) := by decide +kernel
    have parsed :
        Regex.parse (Glob.enclose false (Glob.patternFrom {} (Glob.positive sharingGlob))) =
          .ok (.ofBranches [.ofItems Regex.firstSharing, .ofItems Regex.lastSharing]) := by
      decide +kernel
    have shallow : (Regex.ofBranches
        [.ofItems Regex.firstSharing, .ofItems Regex.lastSharing]).depth < Regex.nestingLimit := by
      decide +kernel
    have notNested := (Regex.overNested?_eq_none_iff _).mpr (Nat.le_of_lt shallow)
    obtain ⟨unanchored, made, same⟩ := exists_ofGlob (Glob.compile_eq_ok_iff.mpr
      ⟨written, _, parsed, ⟨notNested, Regex.size_sharing_le⟩, rfl⟩)
    exact ⟨unanchored, made, same ▸ shallow⟩
  · have parsed :
        Regex.parse (Glob.enclose true (Glob.patternFrom {} (Glob.positive sharingGlob))) =
          .ok (.ofBranches [.ofItems (.assertion .start :: Regex.firstSharing),
            .ofItems (Regex.lastSharing ++ [.assertion .stop])]) := by
      decide +kernel
    rintro ⟨anchored, built⟩
    obtain ⟨_, _, parsedAs, ⟨_, small⟩, _⟩ := Glob.compile_eq_ok_iff.mp (compile_of_ofGlob built).1
    cases parsed.symm.trans parsedAs
    exact absurd small (Nat.not_le_of_lt Regex.lt_size_anchored_sharing)

end Matcher

end ShellGlob
