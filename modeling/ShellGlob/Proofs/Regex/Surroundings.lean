import ShellGlob.Proofs.Regex.Anchored
import ShellGlob.Proofs.Regex.Parts

/-!
# What stands around a text

An expression without the assertions for the two ends of a text (`EndFree`) sees little of
what stands around a part of a text: only whether a word character does.  So what it
matches in a text it also matches where other text surrounds that one, as long as no word
character is next to it (`spans_surrounded`).
-/

namespace ShellGlob.Regex

/-- The assertions of the expression are among the allowed ones. -/
def Asserts (allowed : Assertion → Prop) : Regex → Prop
  | .empty | .atom _ => True
  | .assertion value => allowed value
  | .group _ body | .repetition _ _ body => body.Asserts allowed
  | .concat first rest | .alternate first rest => first.Asserts allowed ∧ rest.Asserts allowed

/-- No part is an assertion for an end of the text. -/
abbrev EndFree (regex : Regex) : Prop :=
  regex.Asserts fun value => value ≠ .start ∧ value ≠ .stop

private theorem asserts_ofItems_iff {allowed : Assertion → Prop} {items : List Regex} :
    (ofItems items).Asserts allowed ↔ ∀ item ∈ items, item.Asserts allowed := by
  induction items with
  | nil => simp [ofItems, Asserts]
  | cons item rest ih =>
      cases rest with
      | nil => simp [ofItems]
      | cons next rest =>
          rw [List.forall_mem_cons, ← ih]
          rfl

theorem asserts_ofBranches_iff {allowed : Assertion → Prop} {branches : List Regex} :
    (ofBranches branches).Asserts allowed ↔ ∀ branch ∈ branches, branch.Asserts allowed := by
  induction branches with
  | nil => simp [ofBranches, Asserts]
  | cons branch rest ih =>
      cases rest with
      | nil => simp [ofBranches]
      | cons next rest =>
          rw [List.forall_mem_cons, ← ih]
          rfl

theorem hereditary_endFree : Hereditary EndFree EndFree where
  atom _ := trivial
  boundary negated := by
    cases negated with
    | false | true => exact ⟨by decide, by decide⟩
  ofItems parts := asserts_ofItems_iff.mpr parts
  group _ parts := asserts_ofBranches_iff.mpr parts
  repeatItem operator part := by
    unfold repeatItem
    split
    · exact part
    · exact part

section

variable {front text behind : Text} {place start stop : Nat}

private theorem any_getLast?_append {accepts : Char → Bool}
    (quiet : front.getLast?.any accepts = false) :
    (front ++ text).getLast?.any accepts = text.getLast?.any accepts := by
  rcases List.eq_nil_or_concat text with rfl | ⟨rest, last, rfl⟩
  · simpa using quiet
  · simp

private theorem any_head?_append {accepts : Char → Bool}
    (quiet : behind.head?.any accepts = false) :
    (text ++ behind).head?.any accepts = text.head?.any accepts := by
  cases text with
  | nil => simpa using quiet
  | cons c rest => rfl

/-- A place is a boundary of a word or not, whatever surrounds the text. -/
theorem isBoundary_surrounded (quietFront : front.getLast?.any Unicode.isWordCharacter = false)
    (quietBehind : behind.head?.any Unicode.isWordCharacter = false)
    (inside : place ≤ text.length) :
    (Place.ofPosition (front ++ (text ++ behind)) (front.length + place)).isBoundary =
      (Place.ofPosition text place).isBoundary := by
  obtain ⟨before, after, rfl, rfl⟩ : ∃ before after, text = before ++ after ∧
      place = before.length :=
    ⟨text.take place, text.drop place, (List.take_append_drop place text).symm,
      (List.length_take_of_le inside).symm⟩
  have surrounded :
      front ++ (before ++ after ++ behind) = (front ++ before) ++ (after ++ behind) := by
    simp
  rw [surrounded, ← List.length_append, Place.ofPosition_append, Place.ofPosition_append,
    Place.isBoundary, Place.isBoundary, any_getLast?_append quietFront,
    any_head?_append quietBehind]

private theorem holds_surrounded (quietFront : front.getLast?.any Unicode.isWordCharacter = false)
    (quietBehind : behind.head?.any Unicode.isWordCharacter = false)
    (inside : place ≤ text.length) {value : Assertion} (endFree : (assertion value).EndFree) :
    value.holds (.ofPosition (front ++ (text ++ behind)) (front.length + place)) =
      value.holds (.ofPosition text place) := by
  have same := isBoundary_surrounded quietFront quietBehind inside
  cases value with
  | start => exact absurd rfl endFree.1
  | stop => exact absurd rfl endFree.2
  | boundary => exact same
  | noBoundary => simp only [Assertion.holds, same]

private theorem getElem?_surrounded (inside : place < text.length) :
    (front ++ (text ++ behind))[front.length + place]? = text[place]? := by
  rw [List.getElem?_append_right (Nat.le_add_right _ _), Nat.add_sub_cancel_left,
    List.getElem?_append_left inside]

theorem Repeated.shift {once other : Nat → Nat → Prop} {bound distance : Nat}
    (within : ∀ start stop, start ≤ bound → once start stop → stop ≤ bound)
    (shifted : ∀ start stop, start ≤ bound → once start stop →
      other (distance + start) (distance + stop))
    (repeated : Repeated once start stop) (inside : start ≤ bound) :
    Repeated other (distance + start) (distance + stop) := by
  induction repeated with
  | done place => exact .done _
  | more step _ ih => exact .more (shifted _ _ inside step) (ih (within _ _ inside step))

/-- What is matched in a text is matched where it stands in a larger one. -/
theorem spans_surrounded (quietFront : front.getLast?.any Unicode.isWordCharacter = false)
    (quietBehind : behind.head?.any Unicode.isWordCharacter = false) {regex : Regex}
    (endFree : regex.EndFree) (inside : start ≤ text.length)
    (spans : regex.Spans text start stop) :
    regex.Spans (front ++ (text ++ behind)) (front.length + start) (front.length + stop) := by
  induction regex generalizing start stop with
  | empty => exact congrArg (front.length + ·) spans
  | atom value =>
      obtain ⟨rfl, accepted⟩ := spans
      refine ⟨rfl, ?_⟩
      have found : start < text.length := by
        obtain ⟨c, here, _⟩ := (Option.any_eq_true _ _).mp accepted
        exact (List.getElem?_eq_some_iff.mp here).1
      rw [getElem?_surrounded found]
      exact accepted
  | assertion value =>
      obtain ⟨rfl, holds⟩ := spans
      refine ⟨rfl, ?_⟩
      rw [holds_surrounded quietFront quietBehind inside endFree]
      exact holds
  | group capturing body ih => exact ih endFree inside spans
  | repetition operator greedy body ih =>
      have within : ∀ start stop, start ≤ text.length → body.Spans text start stop →
          stop ≤ text.length :=
        fun _ _ inside spans => stop_le_of_spans spans inside
      have shifted : ∀ start stop, start ≤ text.length → body.Spans text start stop →
          body.Spans (front ++ (text ++ behind)) (front.length + start) (front.length + stop) :=
        fun _ _ inside spans => ih endFree inside spans
      cases operator with
      | optional =>
          rcases spans with rfl | spans
          · exact Or.inl rfl
          · exact Or.inr (shifted _ _ inside spans)
      | star => exact Repeated.shift within shifted spans inside
      | plus =>
          obtain ⟨middle, first, rest⟩ := spans
          exact ⟨_, shifted _ _ inside first,
            Repeated.shift within shifted rest (within _ _ inside first)⟩
  | concat first rest ihFirst ihRest =>
      obtain ⟨middle, firstSpans, restSpans⟩ := spans
      exact ⟨_, ihFirst endFree.1 inside firstSpans,
        ihRest endFree.2 (stop_le_of_spans firstSpans inside) restSpans⟩
  | alternate first rest ihFirst ihRest =>
      rcases spans with firstSpans | restSpans
      · exact Or.inl (ihFirst endFree.1 inside firstSpans)
      · exact Or.inr (ihRest endFree.2 inside restSpans)

end

end ShellGlob.Regex
