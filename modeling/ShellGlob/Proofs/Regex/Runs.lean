import ShellGlob.Proofs.Regex.GreedyRun

/-!
# Runs of a text

A set of characters cuts a text into runs at the characters that it does not accept.  A
greedy run before a literal takes from each of the runs of the text that has the literal in
it the part up to the end of the last one, and nothing else (`exists_occurrence_iff`).
-/

namespace ShellGlob.Regex

open Glob (Stretch)
open Unicode (CharacterSet)

/-- Behind `front` the literal occurs in the text for the last time. -/
structure OccursLast (literal text front : Text) : Prop where
  occurs : front ++ literal <+: text
  last : ∀ other, other ++ literal <+: text → other.length ≤ front.length

section

variable {separates : Char → Bool} {text run : Text}

/-- The first run, and each run behind a character that separates. -/
theorem exists_splitOnP (separates : Char → Bool) (text : Text) :
    ∃ more, text.splitOnP separates = text.takeWhile (!separates ·) :: more ∧
      ∀ run, run ∈ more ↔ ∃ before c, text[before]? = some c ∧ separates c = true ∧
        run = (text.drop (before + 1)).takeWhile (!separates ·) := by
  induction text with
  | nil => exact ⟨[], List.splitOnP_nil, by simp⟩
  | cons c rest ih =>
      obtain ⟨more, split, members⟩ := ih
      rw [List.splitOnP_cons_eq_if_modifyHead, split]
      cases here : separates c with
      | true =>
          refine ⟨rest.takeWhile (!separates ·) :: more, by simp [here], ?_⟩
          intro run
          rw [List.mem_cons, members]
          constructor
          · rintro (rfl | ⟨before, d, found, isSeparator, rfl⟩)
            · exact ⟨0, c, rfl, here, rfl⟩
            · exact ⟨before + 1, d, found, isSeparator, rfl⟩
          · rintro ⟨before, d, found, isSeparator, rfl⟩
            cases before with
            | zero => exact .inl rfl
            | succ before => exact .inr ⟨before, d, found, isSeparator, rfl⟩
      | false =>
          refine ⟨more, by simp [here], ?_⟩
          intro run
          rw [members]
          constructor
          · rintro ⟨before, d, found, isSeparator, rfl⟩
            exact ⟨before + 1, d, found, isSeparator, rfl⟩
          · rintro ⟨before, d, found, isSeparator, rfl⟩
            cases before with
            | zero =>
                cases found
                cases here.symm.trans isSeparator
            | succ before => exact ⟨before, d, found, isSeparator, rfl⟩

private theorem mem_splitOnP_iff :
    run ∈ text.splitOnP separates ↔ ∃ place ≤ text.length,
      (∀ before c, place = before + 1 → text[before]? = some c → separates c = true) ∧
        run = (text.drop place).takeWhile (!separates ·) := by
  obtain ⟨more, split, members⟩ := exists_splitOnP separates text
  rw [split, List.mem_cons, members]
  constructor
  · rintro (rfl | ⟨before, c, found, isSeparator, rfl⟩)
    · exact ⟨0, Nat.zero_le _, by simp, rfl⟩
    · refine ⟨before + 1, (List.getElem?_eq_some_iff.mp found).1, ?_, rfl⟩
      rintro _ d ⟨⟩ foundToo
      cases found.symm.trans foundToo
      exact isSeparator
  · rintro ⟨place, inside, starts, rfl⟩
    cases place with
    | zero => exact .inl rfl
    | succ before =>
        have found := List.getElem?_eq_getElem inside
        exact .inr ⟨before, _, found, starts before _ rfl found, rfl⟩

end

section

variable {characters : CharacterSet} {literal text front : Text} {start place stop : Nat}

theorem isPrefix_takeWhile_iff (accepts : Char → Bool) (front text : Text) :
    front <+: text.takeWhile accepts ↔ front <+: text ∧ ∀ c ∈ front, accepts c = true := by
  induction text generalizing front with
  | nil =>
      rw [List.takeWhile_nil, List.prefix_nil]
      exact ⟨by rintro rfl; simp, And.left⟩
  | cons c rest ih =>
      cases front with
      | nil => simp
      | cons d front =>
          cases accepted : accepts c with
          | true =>
              rw [List.takeWhile_cons_of_pos accepted, List.cons_prefix_cons, List.cons_prefix_cons,
                ih, List.forall_mem_cons, and_assoc]
              refine and_congr_right ?_
              rintro rfl
              simp [accepted]
          | false =>
              rw [List.takeWhile_cons_of_neg (by simp [accepted]), List.prefix_nil,
                List.cons_prefix_cons, List.forall_mem_cons]
              refine iff_of_false (List.cons_ne_nil _ _) ?_
              rintro ⟨⟨rfl, -⟩, acceptedToo, -⟩
              cases accepted.symm.trans acceptedToo

/-- A literal in a run is reached from the start of the run. -/
theorem reached_of_isPrefix
    (occurs : front ++ literal <+: (text.drop start).takeWhile characters.contains) :
    Stretch text (characters.contains · = true) start (start + front.length) ∧
      literal <+: text.drop (start + front.length) := by
  obtain ⟨whole, accepted⟩ := (isPrefix_takeWhile_iff _ _ _).mp occurs
  refine ⟨stretch_of_isPrefix (fun c member => accepted c (List.mem_append_left _ member))
    ((List.prefix_append front literal).trans whole), ?_⟩
  obtain ⟨tail, split⟩ := whole
  rw [← List.drop_drop, ← split, List.append_assoc, List.drop_left]
  exact List.prefix_append _ _

/-- What is reached from the start of a run is in the run, and so is a literal there. -/
theorem isPrefix_of_reached (isAllowed : ∀ c ∈ literal, characters.contains c = true)
    (inside : place ≤ text.length)
    (reached : Stretch text (characters.contains · = true) start place)
    (here : literal <+: text.drop place) :
    ∃ front, front.length = place - start ∧
      front ++ literal <+: (text.drop start).takeWhile characters.contains := by
  have forward := reached.1
  have length : ((text.drop start).take (place - start)).length = place - start := by
    simp
    omega
  refine ⟨_, length, (isPrefix_takeWhile_iff _ _ _).mpr ⟨?_, ?_⟩⟩
  · obtain ⟨tail, split⟩ := here
    have cut := List.take_append_drop (place - start) (text.drop start)
    rw [List.drop_drop, Nat.add_sub_cancel' forward, ← split, ← List.append_assoc] at cut
    exact ⟨tail, cut⟩
  · intro c member
    rcases List.mem_append.mp member with inFront | inLiteral
    · obtain ⟨index, bound, rfl⟩ := List.mem_iff_getElem.mp inFront
      rw [length] at bound
      obtain ⟨c, found, accepted⟩ := reached.2 (start + index) (by omega) (by omega)
      rw [← List.getElem?_drop] at found
      have same := List.getElem?_eq_getElem (l := (text.drop start).take (place - start))
        (i := index) (by omega)
      rw [List.getElem?_take_of_lt bound, found] at same
      exact Option.some.inj same ▸ accepted
    · exact isAllowed c inLiteral

private theorem text_of_isPrefix (occurs : front ++ literal <+: text.drop start) :
    (Occurrence.mk start (start + front.length + literal.length)).text text =
      front ++ literal := by
  rw [Occurrence.text, Text.slice, List.drop_take, List.prefix_iff_eq_take.mp occurs]
  congr 1
  simp
  omega

/-- Where the literal occurs for the last time in a run, a search from its start ends. -/
theorem OccursLast.endsLast (isAllowed : ∀ c ∈ literal, characters.contains c = true)
    (inside : start ≤ text.length)
    (occurs : OccursLast literal ((text.drop start).takeWhile characters.contains) front) :
    Form.EndsLast characters (.literal literal) text start
      (start + front.length + literal.length) (start + front.length) := by
  obtain ⟨reached, here⟩ := reached_of_isPrefix occurs.occurs
  have found : (Form.literal literal).endAt text (start + front.length) =
      some (start + front.length + literal.length) := by
    rw [Form.endAt_literal (stretch_inside inside reached), if_pos here]
  refine ⟨reached, found, fun later beyond stretch => ?_⟩
  have laterInside := stretch_inside inside stretch
  rw [Form.endAt_literal laterInside, if_neg]
  intro hereToo
  obtain ⟨other, length, occursToo⟩ := isPrefix_of_reached isAllowed laterInside stretch hereToo
  have := occurs.last other occursToo
  omega

theorem exists_occursLast (isAllowed : ∀ c ∈ literal, characters.contains c = true)
    (inside : start ≤ text.length)
    (ends : Form.EndsLast characters (.literal literal) text start stop place) :
    ∃ front, stop = start + front.length + literal.length ∧
      OccursLast literal ((text.drop start).takeWhile characters.contains) front := by
  have placeInside := stretch_inside inside ends.reached
  have forward := ends.reached.1
  have found := ends.found
  rw [Form.endAt_literal placeInside] at found
  split at found
  · next here =>
      obtain rfl := Option.some.inj found
      obtain ⟨front, length, occurs⟩ := isPrefix_of_reached isAllowed placeInside ends.reached here
      refine ⟨front, by omega, occurs, fun other occursToo => ?_⟩
      obtain ⟨reached, hereToo⟩ := reached_of_isPrefix occursToo
      apply Nat.le_of_not_lt
      intro longer
      have nothing := ends.last (start + other.length) (by omega) reached
      rw [Form.endAt_literal (stretch_inside inside reached), if_pos hereToo] at nothing
      cases nothing
  · cases found

/-- The texts of the occurrences are what the runs have up to the end of the last literal. -/
theorem exists_occurrence_iff (written : literal ≠ [])
    (isAllowed : ∀ c ∈ literal, characters.contains c = true) (text : Text)
    (holds : Text → Prop) :
    (∃ occurrence ∈ (Form.greedyRun characters (.literal literal)).occurrences text,
        holds (occurrence.text text)) ↔
      ∃ run ∈ text.splitOnP (!characters.contains ·), ∃ front, OccursLast literal run front ∧
        holds (front ++ literal) := by
  have accepts : (fun c => !!characters.contains c) = characters.contains := by simp
  constructor
  · rintro ⟨⟨start, stop⟩, member, left⟩
    obtain ⟨starts, found⟩ := (Form.mem_occurrences_greedyRun written isAllowed _).mp member
    have inside : start ≤ text.length := by
      apply Nat.le_of_not_lt
      intro outside
      cases (Form.endAt_outside _ outside).symm.trans found
    obtain ⟨place, ends⟩ := (Form.endAt_greedyRun_eq_some_iff inside).mp found
    obtain ⟨front, rfl, occurs⟩ := exists_occursLast isAllowed inside ends
    refine ⟨_, mem_splitOnP_iff.mpr ⟨start, inside, ?_, rfl⟩, front, ?_, ?_⟩
    · intro before c here inText
      simpa using starts before c here inText
    · rwa [accepts]
    · rwa [text_of_isPrefix (occurs.occurs.trans (List.takeWhile_prefix _))] at left
  · rintro ⟨_, member, front, occurs, left⟩
    obtain ⟨start, inside, starts, rfl⟩ := mem_splitOnP_iff.mp member
    rw [accepts] at occurs
    refine ⟨⟨start, start + front.length + literal.length⟩,
      (Form.mem_occurrences_greedyRun written isAllowed _).mpr ⟨?_, ?_⟩, ?_⟩
    · intro before c here inText
      simpa using starts before c here inText
    · exact (Form.endAt_greedyRun_eq_some_iff inside).mpr ⟨_, occurs.endsLast isAllowed inside⟩
    · rwa [text_of_isPrefix (occurs.occurs.trans (List.takeWhile_prefix _))]

end

end ShellGlob.Regex
