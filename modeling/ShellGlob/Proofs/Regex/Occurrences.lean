import ShellGlob.Proofs.Regex.Anchored

/-!
# What the occurrences are

Of all parts of a text that an expression matches, the occurrences are some.
Each of them is such a part, read within the whole text (`spans_of_mem_occurrences`),
and there is one as soon as there is any such part (`occurrences_eq_nil_iff`).
Nothing is said of which parts are passed over.

An anchored expression is asked for a match of the whole text only, so a glob leaves
its exclusions either the whole candidate or the occurrences to judge
(`CompiledRegex.parts`).
-/

namespace ShellGlob

namespace Regex

theorem start_le_of_spans {regex : Regex} {text : Text} {start stop : Nat}
    (spans : regex.Spans text start stop) : start ≤ stop := by
  rw [← spans_normal, ← Marked.spans_ofForm] at spans
  exact Marked.start_le_of_spans spans

/-- An occurrence is the preferred match from a place at or behind the first one. -/
theorem exists_of_mem_occurrencesFrom {ends : List (Option Nat)} {position resume : Nat}
    {occurrence : Occurrence} (member : occurrence ∈ occurrencesFrom position resume ends) :
    ∃ index, occurrence.start = position + index ∧ ends[index]? = some (some occurrence.stop) := by
  induction ends generalizing position resume with
  | nil => cases member
  | cons found rest ih =>
      have later {resume : Nat} (member : occurrence ∈ occurrencesFrom (position + 1) resume rest) :
          ∃ index, occurrence.start = position + index ∧
            (found :: rest)[index]? = some (some occurrence.stop) := by
        obtain ⟨index, place, reported⟩ := ih member
        exact ⟨index + 1, by omega, reported⟩
      cases found with
      | none => exact later member
      | some stop =>
          rw [occurrencesFrom] at member
          split at member
          · exact later member
          · rcases List.mem_cons.mp member with rfl | member
            · exact ⟨0, rfl, rfl⟩
            · exact later member

/-- Before the first occurrence nothing is passed over. -/
theorem occurrencesFrom_eq_nil_iff {ends : List (Option Nat)} {position resume : Nat}
    (arrived : resume ≤ position) :
    occurrencesFrom position resume ends = [] ↔ ∀ found ∈ ends, found = none := by
  induction ends generalizing position with
  | nil => simp [occurrencesFrom]
  | cons found rest ih =>
      cases found with
      | none => simp [occurrencesFrom, ih (Nat.le_succ_of_le arrived)]
      | some stop => simp [occurrencesFrom, Nat.not_lt_of_le arrived]

end Regex

namespace CompiledRegex

variable {compiled : CompiledRegex} {candidate : Text}

theorem spans_of_mem_occurrences {occurrence : Regex.Occurrence}
    (member : occurrence ∈ compiled.occurrences candidate) :
    occurrence.start ≤ occurrence.stop ∧ occurrence.stop ≤ candidate.length ∧
      compiled.regex.Spans candidate occurrence.start occurrence.stop := by
  obtain ⟨start, place, reported⟩ := Regex.exists_of_mem_occurrencesFrom member
  rw [Nat.zero_add] at place
  subst place
  have inside : occurrence.start < (compiled.form.preferredEnds candidate).length :=
    (List.getElem?_eq_some_iff.mp reported).1
  rw [Regex.Form.length_preferredEnds] at inside
  have spans := (Regex.Form.answers_preferredEnds reported).sound _ rfl
  rw [compiled.form_eq, Regex.spans_normal] at spans
  exact ⟨Regex.start_le_of_spans spans, Regex.stop_le_of_spans spans (by omega), spans⟩

theorem occurrences_eq_nil_iff :
    compiled.occurrences candidate = [] ↔ compiled.isMatch candidate = false := by
  rw [occurrences, Regex.Form.occurrences, Regex.occurrencesFrom_eq_nil_iff (Nat.le_refl 0),
    isMatch, Regex.Form.isMatch, List.any_eq_false]
  apply forall₂_congr
  intro found _
  cases found with
  | none => simp
  | some stop => simp

/-- The parts of a candidate that an expression leaves to be judged. -/
def parts (compiled : CompiledRegex) (anchored : Bool) (candidate : Text) : List Text :=
  if anchored then
    if compiled.isMatch candidate then [candidate] else []
  else
    (compiled.occurrences candidate).map (·.text candidate)

variable {anchored : Bool} {part : Text}

theorem mem_parts_anchored :
    part ∈ compiled.parts true candidate ↔
      compiled.isMatch candidate = true ∧ part = candidate := by
  cases matched : compiled.isMatch candidate with
  | false => simp [parts, matched]
  | true => simp [parts, matched]

theorem exists_spans_of_mem_parts (member : part ∈ compiled.parts false candidate) :
    ∃ start stop, start ≤ stop ∧ stop ≤ candidate.length ∧
      compiled.regex.Spans candidate start stop ∧ part = candidate.slice start stop := by
  obtain ⟨occurrence, found, rfl⟩ := List.mem_map.mp member
  obtain ⟨forward, inside, spans⟩ := spans_of_mem_occurrences found
  exact ⟨occurrence.start, occurrence.stop, forward, inside, spans, rfl⟩

/-- A part is left if and only if the expression matches. -/
theorem parts_eq_nil_iff (anchored : Bool) :
    compiled.parts anchored candidate = [] ↔ compiled.isMatch candidate = false := by
  cases anchored with
  | true =>
      cases matched : compiled.isMatch candidate with
      | false => simp [parts, matched]
      | true => simp [parts, matched]
  | false =>
      rw [← occurrences_eq_nil_iff]
      exact List.map_eq_nil_iff

theorem exists_mem_parts_iff (anchored : Bool) :
    (∃ part, part ∈ compiled.parts anchored candidate) ↔ compiled.isMatch candidate = true := by
  rw [← Bool.not_eq_false, ← parts_eq_nil_iff anchored]
  constructor
  · rintro ⟨part, member⟩
    exact List.ne_nil_of_mem member
  · exact List.exists_mem_of_ne_nil _

theorem isInfix_of_mem_parts (member : part ∈ compiled.parts anchored candidate) :
    part <:+: candidate := by
  cases anchored with
  | true => exact (mem_parts_anchored.mp member).2 ▸ List.infix_rfl
  | false =>
      obtain ⟨start, stop, _, _, _, rfl⟩ := exists_spans_of_mem_parts member
      exact (List.drop_suffix start _).isInfix.trans (List.take_prefix stop candidate).isInfix

end CompiledRegex

end ShellGlob
