import Mathlib
import ShellGlob.Proofs.Glob.Refusal

/-!
# The language of a glob

A syntax tree without word boundaries stands for a language: concatenation,
alternatives and repetition are those of languages, whatever text is around a
word (`Sequence.spans_iff`).  The matcher of the text of a written tree decides
this language, unless its regular expression is nested too deep or too large
(`Sequence.ofGlob_decides_language`).  Small globs can be too large in this sense.
-/

namespace ShellGlob.Glob

open Regex (Reads ReadsAs Repeated)
open scoped Computability

/-- The words of one character of the given kind. -/
def singleWords (accepts : Char → Prop) : Language Char :=
  {word | ∃ c, word = [c] ∧ accepts c}

/-- The words of characters of the given kind. -/
def wordsOver (allowed : Char → Prop) : Language Char :=
  {word | ∀ c ∈ word, allowed c}

def Multiplicity.language (once : Language Char) : Multiplicity → Language Char
  | .zeroOrOne => 1 + once
  | .zeroOrMore => once∗
  | .oneOrMore => once * once∗
  | .exactlyOne => once

mutual

/-- The language of a part.  A word boundary looks at the text around it, and has
no language. -/
def Part.language : Part → Language Char
  | .single value => singleWords value.Accepts
  | .boundary _ => 0
  | .star => wordsOver fun c => c ≠ '/' ∧ c ≠ '\\'
  | .tree _ => wordsOver fun c => c ≠ '\n'
  | .braces choice => choice.language
  | .group multiplicity choice => multiplicity.language choice.language

def Sequence.language : Sequence → Language Char
  | .empty => 1
  | .cons first rest => first.language * rest.language

def Choice.language : Choice → Language Char
  | .last branch => branch.language
  | .more branch rest => branch.language + rest.language

end

mutual

/-- There is no word boundary in the part. -/
def Part.BoundaryFree : Part → Prop
  | .boundary _ => False
  | .braces choice | .group _ choice => choice.BoundaryFree
  | .single _ | .star | .tree _ => True

def Sequence.BoundaryFree : Sequence → Prop
  | .empty => True
  | .cons first rest => first.BoundaryFree ∧ rest.BoundaryFree

def Choice.BoundaryFree : Choice → Prop
  | .last branch => branch.BoundaryFree
  | .more branch rest => branch.BoundaryFree ∧ rest.BoundaryFree

end

/-- The text from `start` to `stop` is a word of the language. -/
def HasWord (language : Language Char) (text : Text) (start stop : Nat) : Prop :=
  ∃ word ∈ language, word <+: text.drop start ∧ stop = start + word.length

section

variable {language other : Language Char} {text : Text} {start stop : Nat}

theorem append_isPrefix_drop_iff {first second : Text} :
    first ++ second <+: text.drop start ↔
      first <+: text.drop start ∧ second <+: text.drop (start + first.length) := by
  constructor
  · intro isPrefix
    obtain ⟨behind, whole⟩ := isPrefix
    refine ⟨⟨second ++ behind, by rw [← whole, List.append_assoc]⟩, behind, ?_⟩
    rw [← List.drop_drop, ← whole, List.append_assoc, List.drop_left]
  · rintro ⟨⟨behind, whole⟩, more, rest⟩
    refine ⟨more, ?_⟩
    rw [← List.drop_drop, ← whole, List.drop_left] at rest
    rw [List.append_assoc, rest, whole]

theorem hasWord_one : HasWord 1 text start stop ↔ start = stop := by
  constructor
  · rintro ⟨word, rfl, _, rfl⟩
    rfl
  · rintro rfl
    exact ⟨[], Language.nil_mem_one, List.nil_prefix, rfl⟩

theorem hasWord_add : HasWord (language + other) text start stop ↔
    HasWord language text start stop ∨ HasWord other text start stop := by
  constructor
  · rintro ⟨word, inFirst | inSecond, found⟩
    · exact Or.inl ⟨word, inFirst, found⟩
    · exact Or.inr ⟨word, inSecond, found⟩
  · rintro (⟨word, member, found⟩ | ⟨word, member, found⟩)
    · exact ⟨word, Or.inl member, found⟩
    · exact ⟨word, Or.inr member, found⟩

theorem hasWord_mul : HasWord (language * other) text start stop ↔
    ∃ middle, HasWord language text start middle ∧ HasWord other text middle stop := by
  constructor
  · rintro ⟨word, product, isPrefix, rfl⟩
    obtain ⟨first, inFirst, second, inSecond, rfl⟩ := Language.mem_mul.mp product
    obtain ⟨firstPrefix, secondPrefix⟩ := append_isPrefix_drop_iff.mp isPrefix
    exact ⟨start + first.length, ⟨first, inFirst, firstPrefix, rfl⟩,
      second, inSecond, secondPrefix, by rw [List.length_append, Nat.add_assoc]⟩
  · rintro ⟨middle, ⟨first, inFirst, firstPrefix, rfl⟩, second, inSecond, secondPrefix, rfl⟩
    exact ⟨first ++ second, Language.append_mem_mul inFirst inSecond,
      append_isPrefix_drop_iff.mpr ⟨firstPrefix, secondPrefix⟩,
      by rw [List.length_append, Nat.add_assoc]⟩

theorem hasWord_kstar : HasWord language∗ text start stop ↔
    Repeated (HasWord language text) start stop := by
  constructor
  · rintro ⟨word, star, isPrefix, rfl⟩
    obtain ⟨words, rfl, members⟩ := Language.mem_kstar.mp star
    -- The induction is on the words; the star itself would tie it to all of them at once.
    clear star
    induction words generalizing start with
    | nil => exact .done start
    | cons first words ih =>
        rw [List.flatten_cons] at isPrefix ⊢
        obtain ⟨firstPrefix, restPrefix⟩ := append_isPrefix_drop_iff.mp isPrefix
        have later : ∀ word ∈ words, word ∈ language :=
          fun word member => members word (List.mem_cons_of_mem first member)
        have rest := ih later restPrefix
        rw [List.length_append, ← Nat.add_assoc]
        exact .more ⟨first, members first List.mem_cons_self, firstPrefix, rfl⟩ rest
  · intro repeated
    induction repeated with
    | done place => exact ⟨[], Language.nil_mem_kstar language, List.nil_prefix, rfl⟩
    | more step _ ih =>
        obtain ⟨first, inFirst, firstPrefix, rfl⟩ := step
        obtain ⟨rest, star, restPrefix, rfl⟩ := ih
        obtain ⟨words, rfl, members⟩ := Language.mem_kstar.mp star
        refine ⟨first ++ words.flatten, ?_,
          append_isPrefix_drop_iff.mpr ⟨firstPrefix, restPrefix⟩,
          by rw [List.length_append, Nat.add_assoc]⟩
        exact Language.mem_kstar.mpr
          ⟨first :: words, rfl, List.forall_mem_cons.mpr ⟨inFirst, members⟩⟩

private theorem hasWord_all : HasWord language text 0 text.length ↔ text ∈ language := by
  constructor
  · rintro ⟨word, member, isPrefix, length⟩
    rw [List.drop_zero] at isPrefix
    have same := isPrefix.eq_of_length (by omega)
    exact same ▸ member
  · intro member
    exact ⟨text, member, List.prefix_refl text, (Nat.zero_add _).symm⟩

theorem hasWord_singleWords {accepts : Char → Prop} :
    HasWord (singleWords accepts) text start stop ↔
      oneCharacter accepts text start stop := by
  have singleton : ∀ c, [c] <+: text.drop start ↔ text[start]? = some c := by
    intro c
    rw [← List.head?_drop]
    cases text.drop start with
    | nil => simp
    | cons d rest => simp [List.cons_prefix_cons, eq_comm]
  constructor
  · rintro ⟨word, ⟨c, rfl, accepted⟩, isPrefix, rfl⟩
    exact ⟨rfl, c, (singleton c).mp isPrefix, accepted⟩
  · rintro ⟨rfl, c, found, accepted⟩
    exact ⟨[c], ⟨c, rfl, accepted⟩, (singleton c).mpr found, rfl⟩

/-- Words of characters of a kind are words of words of a single one. -/
theorem wordsOver_eq_kstar (allowed : Char → Prop) :
    wordsOver allowed = (singleWords allowed)∗ := by
  ext word
  rw [Language.mem_kstar]
  constructor
  · intro all
    refine ⟨word.map fun c => [c], ?_, ?_⟩
    · rw [← List.flatMap_def, List.flatMap_singleton']
    · intro single member
      obtain ⟨c, inWord, rfl⟩ := List.mem_map.mp member
      exact ⟨c, rfl, all c inWord⟩
  · rintro ⟨words, rfl, members⟩ c inWords
    obtain ⟨single, member, inSingle⟩ := List.mem_flatten.mp inWords
    obtain ⟨d, rfl, isAllowed⟩ := members single member
    rw [List.mem_singleton] at inSingle
    exact inSingle ▸ isAllowed

private theorem hasWord_wordsOver {allowed : Char → Prop} :
    HasWord (wordsOver allowed) text start stop ↔ Stretch text allowed start stop := by
  have once : HasWord (singleWords allowed) text = oneCharacter allowed text :=
    funext fun _ => funext fun _ => propext hasWord_singleWords
  rw [wordsOver_eq_kstar, hasWord_kstar, once, repeated_iff_stretch]

private theorem hasWord_language {once : Nat → Nat → Prop}
    (same : ∀ start stop, once start stop ↔ HasWord language text start stop)
    (multiplicity : Multiplicity) (start stop : Nat) :
    multiplicity.Spans once start stop ↔
      HasWord (multiplicity.language language) text start stop := by
  have equal : once = HasWord language text :=
    funext fun start => funext fun stop => propext (same start stop)
  rw [equal]
  cases multiplicity with
  | zeroOrOne => rw [Multiplicity.language, hasWord_add, hasWord_one, Multiplicity.Spans]
  | zeroOrMore => rw [Multiplicity.language, hasWord_kstar, Multiplicity.Spans]
  | oneOrMore =>
      rw [Multiplicity.language, hasWord_mul, Multiplicity.Spans]
      simp only [hasWord_kstar]
  | exactlyOne => rw [Multiplicity.language, Multiplicity.Spans]

end

mutual

theorem Part.spans_iff (part : Part) (free : part.BoundaryFree) (text : Text)
    (start stop : Nat) :
    part.Spans text start stop ↔ HasWord part.language text start stop := by
  cases part with
  | single value =>
      rw [Part.Spans, Part.language]
      exact hasWord_singleWords.symm
  | boundary negated =>
      rw [Part.BoundaryFree] at free
      exact free.elim
  | star =>
      rw [Part.Spans, Part.language]
      exact hasWord_wordsOver.symm
  | tree slash =>
      rw [Part.Spans, Part.language]
      exact hasWord_wordsOver.symm
  | braces choice =>
      rw [Part.BoundaryFree] at free
      rw [Part.Spans, Part.language]
      exact Choice.spans_iff choice free text start stop
  | group multiplicity choice =>
      rw [Part.BoundaryFree] at free
      rw [Part.Spans, Part.language]
      exact hasWord_language (Choice.spans_iff choice free text) multiplicity start stop

theorem Sequence.spans_iff (sequence : Sequence) (free : sequence.BoundaryFree)
    (text : Text) (start stop : Nat) :
    sequence.Spans text start stop ↔ HasWord sequence.language text start stop := by
  cases sequence with
  | empty => rw [Sequence.Spans, Sequence.language, hasWord_one]
  | cons first rest =>
      rw [Sequence.BoundaryFree] at free
      rw [Sequence.Spans, Sequence.language, hasWord_mul]
      apply exists_congr
      intro middle
      exact and_congr (Part.spans_iff first free.1 text start middle)
        (Sequence.spans_iff rest free.2 text middle stop)

theorem Choice.spans_iff (choice : Choice) (free : choice.BoundaryFree) (text : Text)
    (start stop : Nat) :
    choice.Spans text start stop ↔ HasWord choice.language text start stop := by
  cases choice with
  | last branch =>
      rw [Choice.BoundaryFree] at free
      rw [Choice.Spans, Choice.language]
      exact Sequence.spans_iff branch free text start stop
  | more branch rest =>
      rw [Choice.BoundaryFree] at free
      rw [Choice.Spans, Choice.language, hasWord_add]
      exact or_congr (Sequence.spans_iff branch free.1 text start stop)
        (Choice.spans_iff rest free.2 text start stop)

end

theorem Sequence.matches_iff {glob : Sequence} (free : glob.BoundaryFree) (text : Text) :
    glob.Matches text ↔ text ∈ glob.language := by
  rw [Sequence.Matches, Sequence.spans_iff glob free, hasWord_all]

/-- The matcher of a written tree decides its language.  Only the size of its regular
expression can keep a tree that is not nested too deep from having a matcher. -/
theorem Sequence.ofGlob_decides_language (glob : Sequence) (written : glob.Written {})
    (free : glob.BoundaryFree) (plain : negations glob.text = [])
    (shallow : ∀ regex, Regex.parse (anchor (patternFrom {} glob.text)) = .ok regex →
      regex.depth ≤ Regex.nestingLimit) :
    ((∃ matcher, Matcher.ofGlob glob.text true = .ok matcher) ∨
      ∃ error, Matcher.ofGlob glob.text true = .error error ∧ error.OfSize) ∧
    ∀ matcher, Matcher.ofGlob glob.text true = .ok matcher →
      ∀ candidate, matcher.isMatch candidate = true ↔ candidate ∈ glob.language := by
  constructor
  · have itself : positive glob.text = glob.text := variant_of_negations_eq_nil plain none
    obtain ⟨regex, parsed, _⟩ := glob.exists_parse_anchored written
    apply Matcher.ofGlob_of_parse (by simp) _ (shallow regex parsed)
    rw [itself]
    exact parsed
  · intro matcher made candidate
    obtain ⟨built, same⟩ := Matcher.isMatch_of_plain plain made
    rw [same, Sequence.isMatch_of_compile written built, Sequence.matches_iff free]

theorem Sequence.ofGlob_decides_language_nested :
    let inside := ['!', 'a', '-', 'c']
    let alternatives : Choice :=
      .more (.cons .star (.cons (.single (.charClass inside)) .empty))
        (.last (.cons (.tree false) (.cons (.single (.escape '*')) .empty)))
    let glob : Sequence :=
      .cons (.tree true) (.cons (.group .oneOrMore
        (.more (.cons (.braces alternatives) .empty)
          (.last (.cons (.single (.escape 'd')) .empty))))
        (.cons (.single (.literal '.')) .empty))
    glob.text = "**/+(\x7b*[!a-c],**\\*\x7d|\\d).".toList ∧
      ∃ matcher, Matcher.ofGlob glob.text true = .ok matcher ∧
        ∀ candidate, matcher.isMatch candidate = true ↔ candidate ∈ glob.language := by
  intro inside alternatives glob
  have stays : EscapesAll [']'] inside :=
    .plain (by decide) (by decide) (.plain (by decide) (by decide)
      (.plain (by decide) (by decide) (.plain (by decide) (by decide) .nil)))
  have classWritten : ∀ context, (Single.charClass inside).Written context :=
    fun context => ⟨stays, true, .range (.plain 'a') (.plain 'c'), by decide +kernel⟩
  have written : glob.Written {} := by
    simp only [glob, alternatives, Sequence.Written, Part.Written, Choice.Written,
      classWritten, Sequence.text, Part.text]
    simp [Part.Meets, Single.text, Single.Written]
  have free : glob.BoundaryFree := by
    simp only [glob, alternatives, Sequence.BoundaryFree, Part.BoundaryFree,
      Choice.BoundaryFree, and_self]
  have plain : negations glob.text = [] := by decide +kernel
  have text : glob.text = "**/+(\x7b*[!a-c],**\\*\x7d|\\d).".toList := by decide +kernel
  have shallow : ∀ regex, Regex.parse (anchor (patternFrom {} glob.text)) = .ok regex →
      regex.depth ≤ Regex.nestingLimit := by
    have checked : ((Regex.parse (anchor (patternFrom {} glob.text))).toOption.all
        fun regex => decide (regex.depth ≤ Regex.nestingLimit)) = true := by decide +kernel
    intro regex parsed
    rw [parsed] at checked
    exact of_decide_eq_true checked
  have builds : (Matcher.ofGlob glob.text true).isOk = true := by
    rw [text]
    cbv
  obtain ⟨_, decides⟩ := Sequence.ofGlob_decides_language glob written free plain shallow
  obtain ⟨matcher, made⟩ := exists_of_isOk builds
  exact ⟨text, matcher, made, decides matcher made⟩

/-- Word characters, one after the other. -/
def wordCharacters : Nat → Sequence
  | 0 => .empty
  | count + 1 => .cons (.single (.escape 'w')) (wordCharacters count)

def wordItems (count : Nat) : List Regex :=
  List.replicate count (.atom (.shorthand ⟨false, .word⟩))

theorem wordCharacters_written (count : Nat) : (wordCharacters count).Written {} := by
  induction count with
  | zero => simp [wordCharacters, Sequence.Written]
  | succ count ih =>
      simp [wordCharacters, Sequence.Written, Part.Written, Single.Written, Part.Meets, ih]

theorem wordCharacters_boundaryFree (count : Nat) : (wordCharacters count).BoundaryFree := by
  induction count with
  | zero => simp [wordCharacters, Sequence.BoundaryFree]
  | succ count ih =>
      simp [wordCharacters, Sequence.BoundaryFree, Part.BoundaryFree, ih]

theorem reads_wordCharacters (count : Nat) :
    Reads (wordCharacters count).pattern (wordItems count) := by
  induction count with
  | zero =>
      rw [wordCharacters, Sequence.pattern]
      exact Reads.nil
  | succ count ih =>
      have known : Regex.Operand.ofEscaped? 'w' = some (.shorthand ⟨false, .word⟩) := rfl
      have word : ReadsAs ['\\', 'w'] (.atom (.shorthand ⟨false, .word⟩)) :=
        Regex.readsAs_escaped known (by decide)
      rw [wordCharacters, Sequence.pattern, Part.pattern]
      exact Reads.cons word ih

theorem parse_wordCharacters (count : Nat) :
    Regex.parse (anchor (patternFrom {} (wordCharacters count).text)) =
      .ok (Regex.anchored (wordItems count)) := by
  have translated :=
    Sequence.patternFrom_text rfl (wordCharacters count) (wordCharacters_written count) Detached.nil
  rw [patternFrom_nil, List.append_nil, List.append_nil] at translated
  rw [translated]
  exact Regex.parse_anchored (reads_wordCharacters count)

/-- A glob without any nesting may be too large for a matcher. -/
theorem Sequence.not_ofGlob_of_large :
    let glob := wordCharacters 300
    glob.Written {} ∧ glob.BoundaryFree ∧ negations glob.text = [] ∧
      (∃ regex, Regex.parse (anchor (patternFrom {} glob.text)) = .ok regex ∧
        regex.depth ≤ Regex.nestingLimit) ∧
      ¬ ∃ matcher, Matcher.ofGlob glob.text true = .ok matcher := by
  intro glob
  have parsed := parse_wordCharacters 300
  have plain : negations glob.text = [] := by decide +kernel
  refine ⟨wordCharacters_written 300, wordCharacters_boundaryFree 300, plain,
    ⟨_, parsed, by decide +kernel⟩, ?_⟩
  rintro ⟨matcher, made⟩
  have itself : positive glob.text = glob.text := variant_of_negations_eq_nil plain none
  have built := (Matcher.compile_of_ofGlob made).1
  rw [itself] at built
  obtain ⟨regex, parsedAs, ⟨_, small⟩, _⟩ := compile_anchored_eq_ok_iff.mp built
  cases parsed.symm.trans parsedAs
  have large : Regex.sizeLimit < (Regex.anchored (wordItems 300)).normal.size := by
    decide +kernel
  exact absurd small (Nat.not_le_of_lt large)

end ShellGlob.Glob
