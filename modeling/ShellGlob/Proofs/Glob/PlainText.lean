import ShellGlob.Proofs.Glob.Translation
import ShellGlob.Proofs.Regex.Enclosing
import ShellGlob.Proofs.Regex.GreedyRun

/-!
# Plain text

A text without any special characters is written by the characters one after the other
(`literals`), and a choice between such texts by the texts (`anyOf`).  Their patterns read as
just these characters, which are one literal in the normal form.  So what a star and a plain
text compile into is a greedy run before a literal (`normal_star_characterItems`).
-/

namespace ShellGlob.Regex

/-- The characters of a text, each of them an item. -/
def characterItems (text : Text) : List Regex :=
  text.map fun c => .atom (.literal (.ofCharacter c))

/-- A star outside of classes. -/
def segmentStar : Regex :=
  .repetition .star true
    (.atom (.bracket true (.union (.literal (.plain '/')) (.literal (.escaped '\\')))))

/-- The characters that are no separators. -/
def segmentCharacters : Unicode.CharacterSet :=
  (Atom.bracket true (.union (.literal (.plain '/')) (.literal (.escaped '\\')))).characters

theorem readsAs_star : ReadsAs Glob.Part.star.pattern segmentStar :=
  Glob.readsAs_segmentCharacter.repeated (by simp) .star

variable {levels : Nat}

/-- Items in a row are one level above the items. -/
theorem depth_ofItems_le {items : List Regex} (shallow : ∀ item ∈ items, item.depth ≤ levels) :
    (ofItems items).depth ≤ levels + 1 := by
  induction items with
  | nil => exact Nat.zero_le _
  | cons item rest ih =>
      rw [List.forall_mem_cons] at shallow
      obtain ⟨here, later⟩ := shallow
      have restShallow := ih later
      match rest with
      | [] => exact Nat.le_succ_of_le here
      | [last] =>
          have lastShallow := later last List.mem_cons_self
          simp only [ofItems, depth]
          split
          · omega
          · omega
      | next :: other :: rest =>
          have nested : (ofItems (next :: other :: rest)).isConcat = true := rfl
          rw [depth_ofItems_cons (List.cons_ne_nil _ _), if_pos nested]
          omega

theorem depth_ofBranches_le {branches : List Regex}
    (shallow : ∀ branch ∈ branches, branch.depth ≤ levels) :
    (ofBranches branches).depth ≤ levels + 1 := by
  induction branches with
  | nil => exact Nat.zero_le _
  | cons branch rest ih =>
      rw [List.forall_mem_cons] at shallow
      obtain ⟨here, later⟩ := shallow
      have restShallow := ih later
      match rest with
      | [] => exact Nat.le_succ_of_le here
      | [last] =>
          have lastShallow := later last List.mem_cons_self
          simp only [ofBranches, depth]
          split
          · omega
          · omega
      | next :: other :: rest =>
          have parts : ofBranches (branch :: next :: other :: rest) =
            .alternate branch (ofBranches (next :: other :: rest)) := rfl
          have alternates : (ofBranches (next :: other :: rest)).isAlternate = true := rfl
          rw [parts, depth, if_pos alternates]
          omega

theorem depth_characterItems (text : Text) : ∀ item ∈ characterItems text, item.depth ≤ 0 := by
  intro item member
  obtain ⟨c, _, rfl⟩ := List.mem_map.mp member
  exact Nat.le_refl 0

/-- Two parts in a row have the form of the one after the other, if that is no alternation. -/
private theorem normal_concat_of_branches {first rest : Regex} {form : Form}
    (single : (first.normal.append rest.normal).branches = [form]) :
    (concat first rest).normal = form := by
  have branches : (concat first rest).alternatives = [form] := single
  rw [normal, branches]
  rfl

private theorem normal_character (c : Char) :
    (Regex.atom (.literal (.ofCharacter c))).normal = .literal [c] := by
  have characters : (Atom.literal (.ofCharacter c)).characters = .single c := by
    rw [Atom.characters, Literal.value_ofCharacter]
  have single : Form.ofCharacters (.single c) = .literal [c] := by
    simp [Form.ofCharacters, Unicode.CharacterSet.single, Unicode.CharacterSet.between,
      Unicode.Ranges.between]
  rw [normal, alternatives, characters, single]
  rfl

private theorem normal_characterItems {text : Text} (written : text ≠ []) :
    (ofItems (characterItems text)).normal = .literal text := by
  induction text with
  | nil => exact absurd rfl written
  | cons c rest ih =>
      cases rest with
      | nil => exact normal_character c
      | cons d rest =>
          have parts : ofItems (characterItems (c :: d :: rest)) =
            .concat (.atom (.literal (.ofCharacter c))) (ofItems (characterItems (d :: rest))) :=
            rfl
          rw [parts]
          apply normal_concat_of_branches
          rw [normal_character, ih (List.cons_ne_nil _ _)]
          rfl

private theorem ranges_segmentCharacters : segmentCharacters.ranges =
    [(0, 46), (48, 91), (93, 0x10FFFF)] := by
  cbv

private theorem normal_segmentStar :
    segmentStar.normal = .repetition .star true (.set segmentCharacters) := by
  have several : Form.ofCharacters segmentCharacters = .set segmentCharacters := by
    rw [Form.ofCharacters, ranges_segmentCharacters]
  have parts : segmentStar.normal =
    .choice (Form.repeated .star true (.choice [Form.ofCharacters segmentCharacters])).branches :=
    rfl
  rw [parts, several]
  rfl

theorem normal_star_characterItems {text : Text} (written : text ≠ []) :
    (ofItems (segmentStar :: characterItems text)).normal =
      Form.greedyRun segmentCharacters (.literal text) := by
  obtain ⟨c, rest, rfl⟩ := List.exists_cons_of_ne_nil written
  have parts : ofItems (segmentStar :: characterItems (c :: rest)) =
    .concat segmentStar (ofItems (characterItems (c :: rest))) := rfl
  rw [parts]
  apply normal_concat_of_branches
  rw [normal_segmentStar, normal_characterItems written]
  rfl

end ShellGlob.Regex

namespace ShellGlob.Glob

open Regex (Reads ReadsAs ReadsBranches characterItems ofItems)

/-- The character is ordinary wherever it stands outside of classes. -/
def isPlain (c : Char) : Bool :=
  c ∉ ['\\', '*', '?', '+', '@', '!', '[', ']', '{', '}', '(', ')', '|']

/-- The characters one after the other. -/
def literals : Text → Sequence
  | [] => .empty
  | c :: rest => .cons (.single (.literal c)) (literals rest)

/-- The choice between texts. -/
def anyOf (first : Text) : List Text → Choice
  | [] => .last (literals first)
  | next :: rest => .more (literals first) (anyOf next rest)

@[simp]
theorem literals_nil : literals [] = .empty :=
  rfl

@[simp]
theorem literals_cons (c : Char) (rest : Text) :
    literals (c :: rest) = .cons (.single (.literal c)) (literals rest) :=
  rfl

@[simp]
theorem anyOf_nil (first : Text) : anyOf first [] = .last (literals first) :=
  rfl

@[simp]
theorem anyOf_cons (first next : Text) (rest : List Text) :
    anyOf first (next :: rest) = .more (literals first) (anyOf next rest) :=
  rfl

section

variable {context : Context} {text : Text}

theorem text_literals (text : Text) : (literals text).text = text := by
  induction text with
  | nil => rw [literals_nil, Sequence.text]
  | cons c rest ih => simp [Sequence.text, Part.text, Single.text, ih]

theorem text_anyOf (first : Text) (more : List Text) :
    (anyOf first more).text '|' = ['|'].intercalate (first :: more) := by
  induction more generalizing first with
  | nil => simp [Choice.text, text_literals, List.intercalate]
  | cons next rest ih =>
      rw [anyOf_cons, Choice.text, text_literals, ih, List.intercalate_cons_cons]
      simp

theorem written_literals (outside : context.braces = 0) (plain : ∀ c ∈ text, isPlain c = true) :
    (literals text).Written context := by
  induction text with
  | nil =>
      rw [literals_nil, Sequence.Written]
      trivial
  | cons c rest ih =>
      rw [List.forall_mem_cons] at plain
      have ordinary := of_decide_eq_true plain.1
      simp only [List.mem_cons, List.not_mem_nil, or_false, not_or] at ordinary
      rw [literals_cons, Sequence.Written, Part.Written]
      refine ⟨⟨?_, fun inBraces => absurd outside inBraces, fun _ => ?_⟩, trivial, ih plain.2⟩
      · simp [ordinary]
      · simp [ordinary]

theorem written_anyOf (outside : context.braces = 0) {first : Text} {more : List Text}
    (plain : ∀ text ∈ first :: more, ∀ c ∈ text, isPlain c = true) :
    (anyOf first more).Written context := by
  induction more generalizing first with
  | nil =>
      rw [anyOf_nil, Choice.Written]
      exact written_literals outside (plain first List.mem_cons_self)
  | cons next rest ih =>
      rw [List.forall_mem_cons] at plain
      rw [anyOf_cons, Choice.Written]
      exact ⟨written_literals outside plain.1, ih plain.2⟩

theorem spans_literals (value text : Text) (start stop : Nat) :
    (literals value).Spans text start stop ↔
      stop = start + value.length ∧ value <+: text.drop start := by
  induction value generalizing start with
  | nil =>
      rw [literals_nil, Sequence.Spans]
      simp [eq_comm]
  | cons c rest ih =>
      simp only [literals_cons, Sequence.Spans, Part.Spans, Single.Accepts, ih]
      constructor
      · rintro ⟨_, ⟨rfl, _, found, rfl⟩, rfl, here⟩
        obtain ⟨bound, same⟩ := List.getElem?_eq_some_iff.mp found
        refine ⟨by simp only [List.length_cons]; omega, ?_⟩
        rw [List.drop_eq_getElem_cons bound, same]
        exact List.cons_prefix_cons.mpr ⟨rfl, here⟩
      · rintro ⟨rfl, here⟩
        have found : text[start]? = some c := by
          obtain ⟨tail, whole⟩ := here
          rw [← List.head?_drop, ← whole]
          rfl
        obtain ⟨bound, same⟩ := List.getElem?_eq_some_iff.mp found
        rw [List.drop_eq_getElem_cons bound, List.cons_prefix_cons] at here
        exact ⟨_, ⟨rfl, c, found, rfl⟩, by simp only [List.length_cons]; omega, here.2⟩

theorem spans_anyOf (first : Text) (more : List Text) (text : Text) (start stop : Nat) :
    (anyOf first more).Spans text start stop ↔
      ∃ value ∈ first :: more, stop = start + value.length ∧ value <+: text.drop start := by
  induction more generalizing first with
  | nil => simp [Choice.Spans, spans_literals]
  | cons next rest ih =>
      rw [anyOf_cons, Choice.Spans, spans_literals, ih]
      simp only [List.mem_cons, exists_eq_or_imp]

theorem reads_literals (plain : ∀ c ∈ text, isPlain c = true) :
    Reads (literals text).pattern (characterItems text) := by
  induction text with
  | nil =>
      rw [literals_nil, Sequence.pattern]
      exact Reads.nil
  | cons c rest ih =>
      rw [List.forall_mem_cons] at plain
      have ordinary := of_decide_eq_true plain.1
      simp only [List.mem_cons, List.not_mem_nil, or_false, not_or] at ordinary
      rw [literals_cons, Sequence.pattern, Part.pattern, Single.pattern]
      exact Reads.cons (readsAs_literalPattern (by simp [ordinary])) (ih plain.2)

theorem readsBranches_anyOf {first : Text} {more : List Text}
    (plain : ∀ text ∈ first :: more, ∀ c ∈ text, isPlain c = true) :
    ReadsBranches (anyOf first more).pattern
      ((first :: more).map fun text => ofItems (characterItems text)) := by
  induction more generalizing first with
  | nil =>
      rw [anyOf_nil, Choice.pattern]
      exact (reads_literals (plain first List.mem_cons_self)).readsBranches
  | cons next rest ih =>
      rw [List.forall_mem_cons] at plain
      rw [anyOf_cons, Choice.pattern]
      exact (reads_literals plain.1).readsBranches.append (ih plain.2)

end

end ShellGlob.Glob
