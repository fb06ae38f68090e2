import ShellGlob.Proofs.Glob.Anchoring
import ShellGlob.Proofs.Glob.NegatedAlternatives
import ShellGlob.Proofs.Glob.NegationMeaning
import ShellGlob.Proofs.Glob.Parentheses
import ShellGlob.Proofs.Glob.PlainText
import ShellGlob.Proofs.Regex.Runs

/-!
# A negation before plain text

An unanchored glob `!(a|b)s` looks at one part of each segment of a candidate: from the start
of the segment up to the end of the last `s` in it.  It matches if one of these parts is
neither `as` nor `bs` (`ofGlob_negatedSuffix`).

There are two limits to that, and both are the size of an expression: the glob is refused if
the positive variant is too large, and if the exclusion is, nothing is excluded.  Such a glob
is `not_ofGlob_negatedSuffix_of_large`.
-/

namespace ShellGlob.Glob

open Regex (OccursLast Reads ReadsAs characterItems ofBranches ofItems segmentStar)

/-- The character ends a segment. -/
def isSeparator (c : Char) : Bool :=
  c = '/' || c = '\\'

/-- A negation of texts before a text. -/
def notOneOfBefore (first : Text) (more : List Text) (suffix : Text) : Expression :=
  .negated .empty (anyOf first more) (.plain (literals suffix))

/-- One of the texts, and then the suffix. -/
def oneOfBefore (first : Text) (more : List Text) (suffix : Text) : Sequence :=
  .cons (.group .exactlyOne (anyOf first more)) (literals suffix)

section

variable {first : Text} {more : List Text} {suffix : Text}

theorem text_notOneOfBefore :
    (notOneOfBefore first more suffix).text = negating [] (first :: more) suffix := by
  simp [notOneOfBefore, Expression.text, Sequence.text, text_anyOf, text_literals, negating,
    listed, Piece.source]

private theorem enclosed_of_isPlain {text : Text} (plain : ∀ c ∈ text, isPlain c = true ∨ c = '|') :
    Enclosed text := by
  apply Enclosed.of_forall
  intro c member
  rcases plain c member with ordinary | rfl
  · have special := of_decide_eq_true ordinary
    simp only [List.mem_cons, List.not_mem_nil, or_false, not_or] at special
    simp [special]
  · decide

theorem mem_listed {texts : List Text} {c : Char} (member : c ∈ listed texts) :
    (∃ text ∈ texts, c ∈ text) ∨ c = '|' := by
  induction texts with
  | nil =>
      rw [listed, List.intercalate_nil] at member
      cases member
  | cons text rest ih =>
      by_cases alone : rest = []
      · rw [alone, listed, List.intercalate_singleton] at member
        exact Or.inl ⟨text, List.mem_cons_self, member⟩
      · rw [listed, List.intercalate_cons_of_ne_nil alone, List.append_assoc, List.mem_append,
          List.singleton_append, List.mem_cons] at member
        rcases member with here | bar | later
        · exact Or.inl ⟨text, List.mem_cons_self, here⟩
        · exact Or.inr bar
        · rcases ih later with ⟨other, inRest, within⟩ | bar
          · exact Or.inl ⟨other, List.mem_cons_of_mem _ inRest, within⟩
          · exact Or.inr bar

section

variable (plain : ∀ text ∈ first :: more, ∀ c ∈ text, isPlain c = true)
  (plainSuffix : ∀ c ∈ suffix, isPlain c = true)

include plainSuffix in
theorem written_star_suffix : (Sequence.cons .star (literals suffix)).Written {} := by
  rw [Sequence.Written, Part.Written, text_literals]
  refine ⟨trivial, ?_, written_literals rfl plainSuffix⟩
  intro star
  have special := plainSuffix '*' (List.mem_of_mem_head? star)
  cases special

include plain plainSuffix

theorem written_oneOfBefore : (oneOfBefore first more suffix).Written {} := by
  rw [oneOfBefore, Sequence.Written, Part.Written]
  exact ⟨written_anyOf rfl plain, trivial, written_literals rfl plainSuffix⟩

theorem written_notOneOfBefore : (notOneOfBefore first more suffix).Written := by
  have inner : Enclosed ((anyOf first more).text '|') := by
    rw [text_anyOf]
    apply enclosed_of_isPlain
    intro c member
    rcases mem_listed member with ⟨text, isText, within⟩ | bar
    · exact Or.inl (plain text isText c within)
    · exact Or.inr bar
  have behind : Enclosed (literals suffix).text := by
    rw [text_literals]
    exact enclosed_of_isPlain fun c member => Or.inl (plainSuffix c member)
  obtain ⟨-, stands, suffixWritten⟩ := written_star_suffix plainSuffix
  refine ⟨⟨?_, ?_, id⟩, ⟨written_anyOf rfl plain, inner⟩, stands, suffixWritten, behind⟩
  · rw [Sequence.Written]
    trivial
  · rw [Sequence.text]
    exact .nil

theorem positive_notOneOfBefore :
    positive (negating [] (first :: more) suffix) =
      (Sequence.cons .star (literals suffix)).text := by
  rw [← text_notOneOfBefore, positive,
    Expression.variant_text (written_notOneOfBefore plain plainSuffix)]
  rfl

private theorem exclusion_notOneOfBefore :
    exclusion (negating [] (first :: more) suffix) 0 = (oneOfBefore first more suffix).text := by
  rw [← text_notOneOfBefore, exclusion,
    Expression.variant_text (written_notOneOfBefore plain plainSuffix)]
  rfl

private theorem length_negations_notOneOfBefore :
    (negations (negating [] (first :: more) suffix)).length = 1 := by
  rw [← text_notOneOfBefore,
    Expression.length_negations_text (written_notOneOfBefore plain plainSuffix)]
  rfl

end

private theorem matches_oneOfBefore (text : Text) :
    (oneOfBefore first more suffix).Matches text ↔
      ∃ value ∈ first :: more, text = value ++ suffix := by
  simp only [oneOfBefore, Sequence.Matches, Sequence.Spans, Part.Spans, Multiplicity.Spans,
    spans_anyOf, spans_literals, List.drop_zero, Nat.zero_add]
  constructor
  · rintro ⟨_, ⟨value, member, rfl, front, rfl⟩, length, back⟩
    rw [List.drop_left] at back
    refine ⟨value, member, ?_⟩
    rw [List.length_append, Nat.add_left_cancel_iff] at length
    rw [back.eq_of_length length.symm]
  · rintro ⟨value, member, rfl⟩
    refine ⟨_, ⟨value, member, rfl, List.prefix_append _ _⟩, List.length_append, ?_⟩
    rw [List.drop_left]

theorem patternFrom_of_written {sequence : Sequence} (written : sequence.Written {}) :
    patternFrom {} sequence.text = sequence.pattern := by
  have translated := Sequence.patternFrom_text rfl sequence written Detached.nil
  rwa [List.append_nil, patternFrom_nil, List.append_nil] at translated

/-- The items of one of the texts and the suffix. -/
def itemsBefore (first : Text) (more : List Text) (suffix : Text) : List Regex :=
  .group false (ofBranches ((first :: more).map fun text => ofItems (characterItems text))) ::
    characterItems suffix

private theorem depth_itemsBefore (first : Text) (more : List Text) (suffix : Text) :
    (ofItems (itemsBefore first more suffix)).depth ≤ 4 := by
  have branches : ∀ branch ∈ (first :: more).map fun text => ofItems (characterItems text),
      branch.depth ≤ 1 := by
    intro branch member
    obtain ⟨text, _, rfl⟩ := List.mem_map.mp member
    exact Regex.depth_ofItems_le (Regex.depth_characterItems text)
  apply Regex.depth_ofItems_le
  rw [itemsBefore, List.forall_mem_cons]
  refine ⟨Nat.succ_le_succ (Regex.depth_ofBranches_le branches), fun item member => ?_⟩
  exact Nat.le_trans (Regex.depth_characterItems suffix item member) (Nat.zero_le 3)

private theorem reads_star_suffix (plainSuffix : ∀ c ∈ suffix, isPlain c = true) :
    Reads (Sequence.cons .star (literals suffix)).pattern
      (segmentStar :: characterItems suffix) := by
  rw [Sequence.pattern]
  exact Reads.cons Regex.readsAs_star (reads_literals plainSuffix)

private theorem depth_star_suffix (suffix : Text) :
    (ofItems (segmentStar :: characterItems suffix)).depth ≤ 4 := by
  apply Regex.depth_ofItems_le
  rw [List.forall_mem_cons]
  refine ⟨by decide, fun item member => ?_⟩
  exact Nat.le_trans (Regex.depth_characterItems suffix item member) (Nat.zero_le 3)

theorem parse_star_suffix (plainSuffix : ∀ c ∈ suffix, isPlain c = true) :
    Regex.parse (enclose false (patternFrom {} (Sequence.cons .star (literals suffix)).text)) =
      .ok (ofItems (segmentStar :: characterItems suffix)) := by
  rw [patternFrom_of_written (written_star_suffix plainSuffix)]
  exact Regex.parse_of_reads (reads_star_suffix plainSuffix)

/-- A star before a plain text compiles into a greedy run. -/
theorem form_of_compile_star_suffix {compiled : CompiledRegex} (given : suffix ≠ [])
    (plainSuffix : ∀ c ∈ suffix, isPlain c = true)
    (built : compile (Sequence.cons .star (literals suffix)).text false = .ok compiled) :
    compiled.form = .greedyRun Regex.segmentCharacters (.literal suffix) ∧
      compiled.form.size ≤ Regex.sizeLimit := by
  obtain ⟨_, _, parsed, ⟨_, small⟩, rfl⟩ := compile_eq_ok_iff.mp built
  cases parsed.symm.trans (parse_star_suffix plainSuffix)
  exact ⟨Regex.normal_star_characterItems given, small⟩

section

variable (plain : ∀ text ∈ first :: more, ∀ c ∈ text, isPlain c = true)
  (plainSuffix : ∀ c ∈ suffix, isPlain c = true)

include plain plainSuffix

private theorem reads_oneOfBefore :
    Reads (oneOfBefore first more suffix).pattern (itemsBefore first more suffix) := by
  rw [oneOfBefore, Sequence.pattern, Part.pattern]
  exact Reads.cons (readsBranches_anyOf plain).group (reads_literals plainSuffix)

/-- Only its size can keep the exclusion from being compiled. -/
theorem compile_oneOfBefore :
    (∃ compiled, compile (oneOfBefore first more suffix).text true = .ok compiled) ∨
      TooLarge (oneOfBefore first more suffix).text true := by
  have parsed : Regex.parse (enclose true (patternFrom {} (oneOfBefore first more suffix).text)) =
      .ok (Regex.anchored (itemsBefore first more suffix)) := by
    rw [patternFrom_of_written (written_oneOfBefore plain plainSuffix)]
    exact Regex.parse_anchored (reads_oneOfBefore plain plainSuffix)
  have shallow := Nat.le_trans (Regex.depth_anchored (itemsBefore first more suffix)).2
    (Nat.succ_le_succ (depth_itemsBefore first more suffix))
  rcases compile_of_parse (by simp) parsed (Nat.le_trans shallow (by decide)) with built | large
  · exact Or.inl ⟨_, built⟩
  · exact Or.inr large

/-- The exclusion forbids the alternatives before the suffix, if it is not too large. -/
theorem not_excluded_iff (text : Text) :
    (∀ excluded ∈ exclusions (negating [] (first :: more) suffix),
        excluded.isMatch text = false) ↔
      (¬ TooLarge (exclusion (negating [] (first :: more) suffix) 0) true →
        ∀ value ∈ first :: more, text ≠ value ++ suffix) := by
  have excluding : ∀ compiled, compiled ∈ exclusions (negating [] (first :: more) suffix) ↔
      compile (oneOfBefore first more suffix).text true = .ok compiled := by
    intro compiled
    simp only [mem_exclusions_iff, length_negations_notOneOfBefore plain plainSuffix,
      Nat.lt_one_iff, exists_eq_left, exclusion_notOneOfBefore plain plainSuffix]
  simp only [excluding, exclusion_notOneOfBefore plain plainSuffix]
  rcases compile_oneOfBefore plain plainSuffix with ⟨compiled, built⟩ | large
  · have matched := Sequence.isMatch_of_compile (written_oneOfBefore plain plainSuffix) built text
    rw [matches_oneOfBefore] at matched
    have notLarge : ¬ TooLarge (oneOfBefore first more suffix).text true := by
      rintro ⟨pattern, refused⟩
      cases built.symm.trans refused
    simp only [built, Except.ok.injEq, forall_eq', notLarge, not_false_eq_true, true_implies]
    rw [← Bool.not_eq_true, matched]
    simp
  · refine iff_of_true ?_ (fun notLarge => absurd large notLarge)
    intro excluded built
    obtain ⟨pattern, refused⟩ := large
    cases built.symm.trans refused

end

end

theorem contains_segmentCharacters (c : Char) :
    Regex.segmentCharacters.contains c = !isSeparator c := by
  rw [Regex.segmentCharacters, Regex.Atom.contains_characters, Bool.eq_iff_iff,
    accepts_segmentCharacter]
  simp [isSeparator]

private theorem contains_segmentCharacters_of_isPlain {c : Char} (plain : isPlain c = true)
    (notSlash : c ≠ '/') : Regex.segmentCharacters.contains c = true := by
  have special := of_decide_eq_true plain
  simp only [List.mem_cons, not_or] at special
  simp [contains_segmentCharacters, isSeparator, notSlash, special.1]

private theorem not_contains_segmentCharacters :
    (fun c => !Regex.segmentCharacters.contains c) = isSeparator := by
  funext c
  rw [contains_segmentCharacters, Bool.not_not]

/-- An unanchored negation of plain texts before a plain text compares them with one part of
each segment that has the text in it, from the start of the segment to the end of the last
such text.  Only its size can keep the glob from having a matcher. -/
theorem ofGlob_negatedSuffix (alternatives : List Text) (suffix : Text)
    (given : alternatives ≠ []) (givenSuffix : suffix ≠ [])
    (plain : ∀ alternative ∈ alternatives, ∀ c ∈ alternative, isPlain c = true)
    (plainSuffix : ∀ c ∈ suffix, isPlain c = true ∧ c ≠ '/') :
    let glob := negating [] alternatives suffix
    ((∃ matcher, Matcher.ofGlob glob false = .ok matcher) ∨
      ∃ error, Matcher.ofGlob glob false = .error error ∧ error.OfSize) ∧
    ∀ matcher, Matcher.ofGlob glob false = .ok matcher →
      ∀ candidate, matcher.isMatch candidate = true ↔
        ∃ run ∈ candidate.splitOnP isSeparator, ∃ front, OccursLast suffix run front ∧
          (¬ TooLarge (exclusion glob 0) true →
            ∀ alternative ∈ alternatives, front ++ suffix ≠ alternative ++ suffix) := by
  intro glob
  obtain ⟨first, more, rfl⟩ := List.exists_cons_of_ne_nil given
  have plainCharacters : ∀ c ∈ suffix, isPlain c = true := fun c member => (plainSuffix c member).1
  have positiveText : positive glob = (Sequence.cons .star (literals suffix)).text :=
    positive_notOneOfBefore plain plainCharacters
  constructor
  · have written : positive glob ≠ [] := by
      rw [positiveText]
      exact List.cons_ne_nil _ _
    apply Matcher.ofGlob_of_parse (fun nothing => written nothing.1)
    · rw [positiveText]
      exact parse_star_suffix plainCharacters
    · exact Nat.le_trans (depth_star_suffix suffix) (by decide)
  · intro matcher made candidate
    have built := (Matcher.compile_of_ofGlob made).1
    rw [positiveText] at built
    have form := (form_of_compile_star_suffix givenSuffix plainCharacters built).1
    have isAllowed : ∀ c ∈ suffix, Regex.segmentCharacters.contains c = true :=
      fun c member => contains_segmentCharacters_of_isPlain (plainSuffix c member).1
        (plainSuffix c member).2
    have parts := Regex.exists_occurrence_iff givenSuffix isAllowed candidate fun part =>
      ¬ TooLarge (exclusion glob 0) true →
        ∀ alternative ∈ first :: more, part ≠ alternative ++ suffix
    rw [not_contains_segmentCharacters] at parts
    rw [Matcher.isMatch_iff_exists_part made, ← parts]
    simp only [CompiledRegex.parts, Bool.false_eq_true, if_false, List.mem_map,
      not_excluded_iff plain plainCharacters, CompiledRegex.occurrences, form,
      exists_exists_and_eq_and, glob]

theorem ofGlob_negatedSuffix_twoAlternatives :
    let alternatives : List Text := [['a'], ['b']]
    let suffix : Text := ['.', 'c']
    negating [] alternatives suffix = "!(a|b).c".toList ∧
      ∃ matcher, Matcher.ofGlob "!(a|b).c".toList false = .ok matcher ∧
        ∀ candidate, matcher.isMatch candidate = true ↔
          ∃ run ∈ candidate.splitOnP isSeparator, ∃ front, OccursLast suffix run front ∧
            ∀ alternative ∈ alternatives, front ++ suffix ≠ alternative ++ suffix := by
  intro alternatives suffix
  have text : negating [] alternatives suffix = "!(a|b).c".toList := by decide +kernel
  have notLarge : ¬ TooLarge (exclusion "!(a|b).c".toList 0) true := by
    have compiles : (compile (exclusion "!(a|b).c".toList 0) true).isOk = true := by cbv
    rintro ⟨pattern, refused⟩
    rw [refused] at compiles
    cases compiles
  have builds : (Matcher.ofGlob "!(a|b).c".toList false).isOk = true := by cbv
  obtain ⟨_, matched⟩ := ofGlob_negatedSuffix alternatives suffix (List.cons_ne_nil _ _)
    (List.cons_ne_nil _ _) (by simp [alternatives, isPlain]) (by simp [suffix, isPlain])
  rw [text] at matched
  obtain ⟨matcher, made⟩ := exists_of_isOk builds
  have decides := matched matcher made
  simp only [notLarge, not_false_eq_true, true_implies] at decides
  exact ⟨text, matcher, made, decides⟩

private theorem utf8Length_replicate (count : Nat) :
    Text.utf8Length (List.replicate count 'x') = count := by
  induction count with
  | zero => rfl
  | succ count ih =>
      have width : 'x'.utf8Size = 1 := rfl
      rw [List.replicate_succ, Text.utf8Length, ih, width, Nat.add_comm]

theorem not_ofGlob_of_longSuffix {count : Nat} (given : count ≠ 0)
    (large : Regex.sizeLimit < Regex.stateSize * count) :
    ¬ ∃ matcher, Matcher.ofGlob (negating [] [['a']] (List.replicate count 'x')) false =
      .ok matcher := by
  have plainSuffix : ∀ c ∈ List.replicate count 'x', isPlain c = true := by
    intro c member
    rw [List.eq_of_mem_replicate member]
    rfl
  have positiveText : positive (negating [] [['a']] (List.replicate count 'x')) = _ :=
    positive_notOneOfBefore (by simp [isPlain]) plainSuffix
  rintro ⟨matcher, made⟩
  have built := (Matcher.compile_of_ofGlob made).1
  rw [positiveText] at built
  obtain ⟨form, small⟩ := form_of_compile_star_suffix (by simpa using given) plainSuffix built
  -- The suffix alone is too large.
  have suffixSize : Regex.stateSize * count ≤ matcher.regex.form.size := by
    rw [form, Regex.Form.greedyRun, Regex.Form.size]
    refine Nat.le_trans (Nat.le_of_eq ?_) (Nat.le_add_left _ _)
    rw [Regex.Form.size, utf8Length_replicate]
  exact absurd large (Nat.not_lt_of_le (Nat.le_trans suffixSize small))

/-- A negation before a long plain text is too large for a matcher. -/
theorem not_ofGlob_negatedSuffix_of_large :
    let alternatives : List Text := [['a']]
    let suffix : Text := List.replicate 340000 'x'
    alternatives ≠ [] ∧ suffix ≠ [] ∧
      (∀ alternative ∈ alternatives, ∀ c ∈ alternative, isPlain c = true) ∧
      (∀ c ∈ suffix, isPlain c = true ∧ c ≠ '/') ∧
      ¬ ∃ matcher, Matcher.ofGlob (negating [] alternatives suffix) false = .ok matcher := by
  intro alternatives suffix
  have written : suffix ≠ [] := by
    intro nothing
    have length := congrArg List.length nothing
    rw [List.length_replicate] at length
    cases length
  refine ⟨List.cons_ne_nil _ _, written, by simp [alternatives, isPlain], ?_, ?_⟩
  · intro c member
    rw [List.eq_of_mem_replicate member]
    decide
  · exact not_ofGlob_of_longSuffix (by decide) (by decide)

end ShellGlob.Glob
