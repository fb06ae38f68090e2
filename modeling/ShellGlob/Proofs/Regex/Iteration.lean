import ShellGlob.Proofs.Regex.Occurrences
import ShellGlob.Text.Bytes

/-!
# Iterating over occurrences

An iteration over the occurrences of an expression asks a search for one after the other
and goes on behind each, behind an empty one a character later (`Searcher.next`).  It
counts in bytes, so it could fail: a search needs an offset within the text, and a text
cannot be cut within a character.

Whatever the search prefers among matches from one place, if only it misses no earlier
place, the iteration does not fail, ends, reports matches in order, and passes over none
but those that start within another one (`iteration_adequate`).  With the search of
compiled expressions it reports `CompiledRegex.occurrences`.
-/

namespace ShellGlob

namespace Regex

/-- A search for matches of an expression in a text, by offsets in bytes.  From the offset
of a place it finds one of the matches that start first. -/
structure Searcher (text : Text) where
  Matches : (start stop : Nat) → Prop
  find : (position : Nat) → Option Occurrence
  forward {start stop : Nat} : Matches start stop → start ≤ stop
  bounded {start stop : Nat} : Matches start stop → text.IsBoundary start ∧ text.IsBoundary stop
  sound {position : Nat} {found : Occurrence} :
    text.IsBoundary position → find position = some found →
      position ≤ found.start ∧ Matches found.start found.stop
  leftmost {position start stop : Nat} {found : Occurrence} :
    text.IsBoundary position → find position = some found → position ≤ start →
      Matches start stop → found.start ≤ start
  complete {position start stop : Nat} :
    text.IsBoundary position → find position = none → position ≤ start → ¬ Matches start stop

/-- What can go wrong. -/
inductive Fault where
  /-- A search from an offset that is not that of a place. -/
  | search
  /-- A cut at such an offset. -/
  | slice
  deriving DecidableEq

namespace Searcher

variable {text : Text}

/-- The next occurrence from a position, and the position at which the iteration goes
on. -/
def next (searcher : Searcher text) :
    (position : Option Nat) → Except Fault (Option (Occurrence × Option Nat))
  | none => .ok none
  | some position =>
      match text.fromByte? position, searcher.find position with
      | none, _ => .error .search
      | some _, none => .ok none
      | some _, some found =>
          if found.start = found.stop then
            match text.fromByte? found.stop with
            | none => .error .slice
            | some behind =>
                .ok (some (found, behind.head?.map fun c => found.stop + c.utf8Size))
          else .ok (some (found, some found.stop))

/-- From a position the iteration reports these occurrences and ends. -/
inductive Yields (searcher : Searcher text) : (position : Option Nat) → List Occurrence → Prop where
  | done {position : Option Nat} : searcher.next position = .ok none → Yields searcher position []
  | item {position later : Option Nat} {found : Occurrence} {rest : List Occurrence} :
      searcher.next position = .ok (some (found, later)) → Yields searcher later rest →
      Yields searcher position (found :: rest)

/-- What the iteration reports are matches, in order and without repetition.  It reports
all but those that start within one that is reported. -/
structure Enumerates (searcher : Searcher text) (items : List Occurrence) : Prop where
  yields : searcher.Yields (some 0) items
  unique : ∀ others, searcher.Yields (some 0) others → others = items
  count : items.length ≤ text.length + 1
  areMatches : ∀ item ∈ items, searcher.Matches item.start item.stop
  ordered : items.Pairwise fun one other => one.stop ≤ other.start ∧ one ≠ other
  covers : ∀ start stop, searcher.Matches start stop →
    ∃ item ∈ items, (item.start ≤ start ∧ start < item.stop) ∨
      (item.start = start ∧ item.stop = start)

end Searcher

/-- An occurrence that is given by places, by its offsets in bytes. -/
def Occurrence.inBytes (text : Text) (occurrence : Occurrence) : Occurrence :=
  ⟨text.offset occurrence.start, text.offset occurrence.stop⟩

/-- The offset at which the iteration goes on, unless the place lies behind the text. -/
def resumeAt (text : Text) (place : Nat) : Option Nat :=
  if place ≤ text.length then some (text.offset place) else none

namespace Searcher

variable {text : Text} {searcher : Searcher text} {place : Nat} {found : Occurrence}

theorem Yields.unique {position : Option Nat} {items others : List Occurrence}
    (yields : searcher.Yields position items) (yieldsOthers : searcher.Yields position others) :
    others = items := by
  induction yields generalizing others with
  | done exhausted =>
      cases yieldsOthers with
      | done => rfl
      | item reported => cases exhausted.symm.trans reported
  | item reported _ ih =>
      cases yieldsOthers with
      | done exhausted => cases exhausted.symm.trans reported
      | item reportedOther yieldsRest =>
          cases reported.symm.trans reportedOther
          rw [ih yieldsRest]

theorem next_of_find_eq_none (inside : place ≤ text.length)
    (nothing : searcher.find (text.offset place) = none) :
    searcher.next (some (text.offset place)) = .ok none := by
  simp [next, Text.fromByte?_offset inside, nothing]

/-- The three ways of going on lead to the place where the occurrence resumes. -/
theorem next_of_find_eq_some (inside : place ≤ text.length) (forward : found.start ≤ found.stop)
    (bounded : found.stop ≤ text.length)
    (finds : searcher.find (text.offset place) = some (found.inBytes text)) :
    searcher.next (some (text.offset place)) =
      .ok (some (found.inBytes text, resumeAt text found.resume)) := by
  obtain ⟨start, stop⟩ := found
  simp only [Occurrence.inBytes, Occurrence.resume] at forward bounded finds ⊢
  rcases Nat.lt_or_eq_of_le forward with nonempty | rfl
  · have apart : text.offset start ≠ text.offset stop :=
      Nat.ne_of_lt (Text.offset_lt_of_lt nonempty bounded)
    have resume : max stop (start + 1) = stop := Nat.max_eq_left nonempty
    simp [next, Text.fromByte?_offset inside, finds, apart, resume, resumeAt, bounded]
  · have resume : max start (start + 1) = start + 1 := Nat.max_eq_right (Nat.le_succ _)
    rw [resume, resumeAt]
    by_cases further : start + 1 ≤ text.length
    · have here : text[start]? = some text[start] := List.getElem?_eq_getElem further
      simp [next, Text.fromByte?_offset inside, finds, Text.fromByte?_offset bounded, further, here,
        Text.offset_succ here]
    · have behind : text.drop start = [] := List.drop_eq_nil_of_le (by omega)
      simp [next, Text.fromByte?_offset inside, finds, Text.fromByte?_offset bounded, further,
        behind]

/-- The iteration finds nothing from a place, or goes on behind a first match. -/
inductive Step (searcher : Searcher text) (place : Nat) : Prop where
  | exhausted :
      searcher.next (some (text.offset place)) = .ok none →
      (∀ start stop, place ≤ start → start ≤ text.length →
        ¬ searcher.Matches (text.offset start) stop) →
      Step searcher place
  | found (item : Occurrence) :
      searcher.next (some (text.offset place)) =
        .ok (some (item.inBytes text, resumeAt text item.resume)) →
      place ≤ item.start → item.start ≤ item.stop → item.stop ≤ text.length →
      searcher.Matches (text.offset item.start) (text.offset item.stop) →
      (∀ start stop, place ≤ start → start ≤ text.length →
        searcher.Matches (text.offset start) stop → item.start ≤ start) →
      Step searcher place

theorem step (searcher : Searcher text) (inside : place ≤ text.length) : searcher.Step place := by
  have boundary := Text.isBoundary_offset inside
  cases finds : searcher.find (text.offset place) with
  | none =>
      refine .exhausted (next_of_find_eq_none inside finds) ?_
      intro start stop behind startInside
      exact searcher.complete boundary finds ((Text.offset_le_iff inside startInside).mpr behind)
  | some inBytes =>
      obtain ⟨behind, matched⟩ := searcher.sound boundary finds
      obtain ⟨⟨start, startInside, atStart⟩, stop, stopInside, atStop⟩ := searcher.bounded matched
      have forward := searcher.forward matched
      obtain ⟨_, _⟩ := inBytes
      simp only at behind matched atStart atStop forward
      subst atStart atStop
      rw [Text.offset_le_iff inside startInside] at behind
      rw [Text.offset_le_iff startInside stopInside] at forward
      refine .found ⟨start, stop⟩ (next_of_find_eq_some inside forward stopInside finds) behind
        forward stopInside matched ?_
      intro other otherStop otherBehind otherInside otherMatched
      rw [← Text.offset_le_iff startInside otherInside]
      exact searcher.leftmost boundary finds
        ((Text.offset_le_iff inside otherInside).mpr otherBehind)
        otherMatched

/-- What the iteration reports from a place on. -/
structure Reports (searcher : Searcher text) (place : Nat) (items : List Occurrence) : Prop where
  yields : searcher.Yields (resumeAt text place) (items.map (·.inBytes text))
  count : items.length ≤ text.length + 1 - place
  behind : ∀ item ∈ items, place ≤ item.start ∧ item.start ≤ item.stop ∧ item.stop ≤ text.length
  areMatches : ∀ item ∈ items, searcher.Matches (text.offset item.start) (text.offset item.stop)
  ordered : items.Pairwise fun one other => one.resume ≤ other.start
  covers : ∀ start stop, place ≤ start → start ≤ text.length →
    searcher.Matches (text.offset start) stop →
      ∃ item ∈ items, item.start ≤ start ∧ start < item.resume

private theorem reports_nil (searcher : Searcher text) (outside : text.length < place) :
    searcher.Reports place [] where
  yields := by
    rw [resumeAt, if_neg (Nat.not_le_of_lt outside)]
    exact .done rfl
  count := Nat.zero_le _
  behind := by simp
  areMatches := by simp
  ordered := .nil
  covers start stop from_ inside :=
    absurd (Nat.lt_of_lt_of_le outside from_) (Nat.not_lt_of_le inside)

theorem exists_reports (searcher : Searcher text) (place : Nat) :
    ∃ items, searcher.Reports place items := by
  by_cases inside : place ≤ text.length
  · have position : resumeAt text place = some (text.offset place) := if_pos inside
    cases searcher.step inside with
    | exhausted ends nothing =>
        refine ⟨[], ?_, Nat.zero_le _, by simp, by simp, .nil, ?_⟩
        · rw [position]
          exact .done ends
        · intro start stop behind startInside matched
          exact absurd matched (nothing start stop behind startInside)
    | found item goesOn behind forward bounded matched first =>
        have further : place < item.resume :=
          Nat.lt_of_lt_of_le (Nat.lt_succ_of_le behind) (Nat.le_max_right _ _)
        obtain ⟨rest, reports⟩ := exists_reports searcher item.resume
        refine ⟨item :: rest, ?_, ?_, ?_, ?_, ?_, ?_⟩
        · rw [position]
          exact .item goesOn reports.yields
        · have := reports.count
          simp only [List.length_cons]
          omega
        · intro other member
          rcases List.mem_cons.mp member with rfl | later
          · exact ⟨behind, forward, bounded⟩
          · obtain ⟨otherBehind, within⟩ := reports.behind other later
            exact ⟨by omega, within⟩
        · exact List.forall_mem_cons.mpr ⟨matched, reports.areMatches⟩
        · exact List.pairwise_cons.mpr
            ⟨fun other member => (reports.behind other member).1, reports.ordered⟩
        · intro start stop startBehind startInside startMatched
          have from_ := first start stop startBehind startInside startMatched
          rcases Nat.lt_or_ge start item.resume with within | later
          · exact ⟨item, by simp, from_, within⟩
          · obtain ⟨other, member, covered⟩ :=
              reports.covers start stop later startInside startMatched
            exact ⟨other, List.mem_cons_of_mem _ member, covered⟩
  · exact ⟨[], reports_nil searcher (Nat.lt_of_not_le inside)⟩
termination_by text.length + 1 - place

theorem Reports.enumerates {items : List Occurrence} (reports : searcher.Reports 0 items) :
    searcher.Enumerates (items.map (·.inBytes text)) := by
  have yields : searcher.Yields (some 0) (items.map (·.inBytes text)) := reports.yields
  refine ⟨yields, fun others => yields.unique, ?_, ?_, ?_, ?_⟩
  · rw [List.length_map]
    exact reports.count
  · intro item member
    obtain ⟨place, placed, rfl⟩ := List.mem_map.mp member
    exact reports.areMatches place placed
  · rw [List.pairwise_map]
    refine reports.ordered.imp_of_mem ?_
    intro one other oneMember otherMember before
    obtain ⟨_, _, oneInside⟩ := reports.behind one oneMember
    obtain ⟨_, forward, otherInside⟩ := reports.behind other otherMember
    have startInside := Nat.le_trans forward otherInside
    have least : one.stop ≤ one.resume ∧ one.start < one.resume :=
      ⟨Nat.le_max_left _ _, Nat.lt_of_lt_of_le (Nat.lt_succ_self _) (Nat.le_max_right _ _)⟩
    constructor
    · exact (Text.offset_le_iff oneInside startInside).mpr (Nat.le_trans least.1 before)
    · intro same
      have starts : text.offset one.start = text.offset other.start :=
        congrArg Occurrence.start same
      exact Nat.ne_of_lt (Text.offset_lt_of_lt (by omega) startInside) starts
  · intro start stop matched
    obtain ⟨⟨place, inside, rfl⟩, _⟩ := searcher.bounded matched
    obtain ⟨item, member, from_, within⟩ :=
      reports.covers place stop (Nat.zero_le _) inside matched
    obtain ⟨_, forward, itemInside⟩ := reports.behind item member
    refine ⟨_, List.mem_map_of_mem member, ?_⟩
    have startInside := Nat.le_trans forward itemInside
    rcases Nat.lt_or_ge place item.stop with before | atStop
    · exact Or.inl ⟨(Text.offset_le_iff startInside inside).mpr from_,
        Text.offset_lt_of_lt before itemInside⟩
    · -- Behind the end only an empty occurrence lets the iteration go on later.
      have bothEnds : item.start = place ∧ item.stop = place := by
        simp only [Occurrence.resume] at within
        omega
      exact Or.inr ⟨congrArg text.offset bothEnds.1, congrArg text.offset bothEnds.2⟩

end Searcher

namespace Form

variable {form : Form} {text : Text} {position start stop : Nat}

theorem getElem?_drop_zipIdx (ends : List (Option Nat)) (position index : Nat) :
    (ends.zipIdx.drop position)[index]? =
      ends[position + index]?.map fun found => (found, position + index) := by
  simp [List.getElem?_drop, List.getElem?_zipIdx]

/-- What is found is the preferred match from the first place that has one. -/
theorem first_of_find?_eq_some (finds : form.find? text position = some (start, stop)) :
    position ≤ start ∧ (form.preferredEnds text)[start]? = some (some stop) ∧
      ∀ earlier, position ≤ earlier → earlier < start →
        (form.preferredEnds text)[earlier]? = some none := by
  obtain ⟨front, ⟨found, place⟩, behind, cut, reported, passedOver⟩ :=
    List.findSome?_eq_some_iff.mp finds
  have entries := getElem?_drop_zipIdx (form.preferredEnds text) position
  rw [cut] at entries
  have here := entries front.length
  rw [List.getElem?_append_right (Nat.le_refl _), Nat.sub_self, List.getElem?_cons_zero] at here
  obtain ⟨_, atPlace, same⟩ := Option.map_eq_some_iff.mp here.symm
  cases same
  obtain ⟨_, rfl, same⟩ := Option.map_eq_some_iff.mp reported
  cases same
  refine ⟨Nat.le_add_right _ _, atPlace, ?_⟩
  intro earlier behind before
  have inFront : earlier - position < front.length := by omega
  have there := entries (earlier - position)
  rw [List.getElem?_append_left inFront, List.getElem?_eq_getElem inFront,
    Nat.add_sub_cancel' behind] at there
  obtain ⟨other, atEarlier, same⟩ := Option.map_eq_some_iff.mp there.symm
  have notFound := passedOver _ (List.getElem_mem inFront)
  rw [← same, Option.map_eq_none_iff] at notFound
  rw [atEarlier, notFound]

theorem none_of_find?_eq_none (finds : form.find? text position = none)
    (behind : position ≤ start) :
    (form.preferredEnds text)[start]? ≠ some (some stop) := by
  intro reported
  have entry := getElem?_drop_zipIdx (form.preferredEnds text) position (start - position)
  rw [Nat.add_sub_cancel' behind, reported] at entry
  have notFound := List.findSome?_eq_none_iff.mp finds _ (List.mem_of_getElem? entry)
  cases notFound

end Form

/-- Matches that start before the place of resumption are passed over. -/
theorem occurrencesFrom_append {front : List (Option Nat)} {position resume : Nat}
    (passedOver : ∀ index stop, front[index]? = some (some stop) → position + index < resume)
    (rest : List (Option Nat)) :
    occurrencesFrom position resume (front ++ rest) =
      occurrencesFrom (position + front.length) resume rest := by
  induction front generalizing position with
  | nil => rfl
  | cons found front ih =>
      have later := @ih (position + 1) fun index stop reported => by
        have := passedOver (index + 1) stop reported
        omega
      rw [Nat.add_assoc, Nat.add_comm 1] at later
      cases found with
      | none => exact later
      | some stop =>
          have here : position < resume := passedOver 0 stop rfl
          rw [List.cons_append, occurrencesFrom, if_pos here]
          exact later

namespace Form

variable {form : Form} {text : Text} {position start stop : Nat}

private theorem occurrencesFrom_of_find?_eq_none (finds : form.find? text position = none) :
    occurrencesFrom 0 position (form.preferredEnds text) = [] := by
  have passedOver : ∀ index stop, (form.preferredEnds text)[index]? = some (some stop) →
      0 + index < position := by
    intro index stop reported
    apply Nat.lt_of_not_le
    intro behind
    exact none_of_find?_eq_none finds (by omega) reported
  have whole := occurrencesFrom_append passedOver []
  rwa [List.append_nil] at whole

theorem occurrencesFrom_of_find?_eq_some (finds : form.find? text position = some (start, stop)) :
    occurrencesFrom 0 position (form.preferredEnds text) =
      ⟨start, stop⟩ ::
        occurrencesFrom 0 (⟨start, stop⟩ : Occurrence).resume (form.preferredEnds text) := by
  obtain ⟨behind, reported, passedOver⟩ := first_of_find?_eq_some finds
  obtain ⟨inside, atStart⟩ := List.getElem?_eq_some_iff.mp reported
  have cut : (form.preferredEnds text).drop start =
      some stop :: (form.preferredEnds text).drop (start + 1) := by
    rw [List.drop_eq_getElem_cons inside, atStart]
  have inFront : ∀ bound index found, ((form.preferredEnds text).take bound)[index]? = some found →
      index < bound ∧ (form.preferredEnds text)[index]? = some found := by
    intro bound index found reported
    rw [List.getElem?_take] at reported
    split at reported
    · next within => exact ⟨within, reported⟩
    · cases reported
  have beforeStart : ∀ index stop, ((form.preferredEnds text).take start)[index]? =
      some (some stop) → 0 + index < position := by
    intro index _ found
    obtain ⟨earlier, found⟩ := inFront _ _ _ found
    apply Nat.lt_of_not_le
    intro later
    cases found.symm.trans (passedOver index (by omega) earlier)
  have upToStart : ∀ index later, ((form.preferredEnds text).take (start + 1))[index]? =
      some (some later) → 0 + index < (⟨start, stop⟩ : Occurrence).resume := by
    intro index _ found
    obtain ⟨earlier, _⟩ := inFront _ _ _ found
    simp only [Occurrence.resume]
    omega
  have before := occurrencesFrom_append beforeStart ((form.preferredEnds text).drop start)
  have within := occurrencesFrom_append upToStart ((form.preferredEnds text).drop (start + 1))
  rw [List.take_append_drop, List.length_take_of_le (by omega), Nat.zero_add] at before within
  rw [before, cut, occurrencesFrom, if_neg (Nat.not_lt_of_le behind), within]

end Form

end Regex

namespace CompiledRegex

open Regex (Searcher Occurrence)

/-- The search for a compiled expression, by offsets in bytes. -/
def findFrom? (compiled : CompiledRegex) (text : Text) (position : Nat) : Option Occurrence :=
  (text.fromByte? position).bind fun behind =>
    (compiled.form.find? text (text.length - behind.length)).map fun found =>
      (⟨found.1, found.2⟩ : Occurrence).inBytes text

variable {compiled : CompiledRegex} {text : Text} {place : Nat}

theorem findFrom?_offset (compiled : CompiledRegex) (inside : place ≤ text.length) :
    compiled.findFrom? text (text.offset place) =
      (compiled.form.find? text place).map fun found =>
        (⟨found.1, found.2⟩ : Occurrence).inBytes text := by
  rw [findFrom?, Text.fromByte?_offset inside, Option.bind_some, List.length_drop,
    Nat.sub_sub_self inside]

/-- What is found from a place is a match, and none starts earlier. -/
theorem spans_of_find?_eq_some {start stop : Nat}
    (finds : compiled.form.find? text place = some (start, stop)) :
    place ≤ start ∧ start ≤ text.length ∧ compiled.regex.Spans text start stop ∧
      ∀ earlier other, place ≤ earlier → compiled.regex.Spans text earlier other →
        start ≤ earlier := by
  obtain ⟨behind, reported, passedOver⟩ := Regex.Form.first_of_find?_eq_some finds
  have inside : start < (compiled.form.preferredEnds text).length :=
    (List.getElem?_eq_some_iff.mp reported).1
  rw [Regex.Form.length_preferredEnds] at inside
  have spans := (Regex.Form.answers_preferredEnds reported).sound _ rfl
  rw [compiled.form_eq, Regex.spans_normal] at spans
  refine ⟨behind, Nat.le_of_lt_succ inside, spans, ?_⟩
  intro earlier other earlierBehind otherSpans
  apply Nat.le_of_not_lt
  intro before
  have answers := Regex.Form.answers_preferredEnds (passedOver earlier earlierBehind before)
  rw [compiled.form_eq] at answers
  exact answers.complete rfl other ((Regex.spans_normal _ _ _ _).mpr otherSpans)

private theorem not_spans_of_find?_eq_none (finds : compiled.form.find? text place = none)
    {start stop : Nat} (behind : place ≤ start) (inside : start ≤ text.length) :
    ¬ compiled.regex.Spans text start stop := by
  intro spans
  have reported : start < (compiled.form.preferredEnds text).length := by
    rw [Regex.Form.length_preferredEnds]
    omega
  have answers := Regex.Form.answers_preferredEnds (List.getElem?_eq_getElem reported)
  cases found : (compiled.form.preferredEnds text)[start] with
  | none =>
      apply answers.complete found stop
      rw [compiled.form_eq, Regex.spans_normal]
      exact spans
  | some other =>
      exact Regex.Form.none_of_find?_eq_none finds behind
        ((List.getElem?_eq_getElem reported).trans (congrArg some found))

/-- The search for a compiled expression, by offsets in bytes. -/
def searcher (compiled : CompiledRegex) (text : Text) : Searcher text where
  Matches start stop := ∃ occurrence : Occurrence, occurrence.start ≤ text.length ∧
    compiled.regex.Spans text occurrence.start occurrence.stop ∧
    occurrence.inBytes text = ⟨start, stop⟩
  find := compiled.findFrom? text
  forward := by
    rintro _ _ ⟨occurrence, inside, spans, same⟩
    cases same
    have bounded := Regex.stop_le_of_spans spans inside
    exact (Text.offset_le_iff inside bounded).mpr (Regex.start_le_of_spans spans)
  bounded := by
    rintro _ _ ⟨occurrence, inside, spans, same⟩
    cases same
    exact ⟨Text.isBoundary_offset inside,
      Text.isBoundary_offset (Regex.stop_le_of_spans spans inside)⟩
  sound := by
    rintro _ _ ⟨place, inside, rfl⟩ finds
    rw [compiled.findFrom?_offset inside] at finds
    obtain ⟨⟨start, stop⟩, found, rfl⟩ := Option.map_eq_some_iff.mp finds
    obtain ⟨behind, startInside, spans, _⟩ := spans_of_find?_eq_some found
    exact ⟨(Text.offset_le_iff inside startInside).mpr behind,
      ⟨start, stop⟩, startInside, spans, rfl⟩
  leftmost := by
    rintro _ _ _ _ ⟨place, inside, rfl⟩ finds behind ⟨occurrence, occurrenceInside, spans, same⟩
    cases same
    rw [compiled.findFrom?_offset inside] at finds
    obtain ⟨⟨start, stop⟩, found, rfl⟩ := Option.map_eq_some_iff.mp finds
    obtain ⟨_, startInside, _, first⟩ := spans_of_find?_eq_some found
    rw [Text.offset_le_iff inside occurrenceInside] at behind
    exact (Text.offset_le_iff startInside occurrenceInside).mpr (first _ _ behind spans)
  complete := by
    rintro _ _ _ ⟨place, inside, rfl⟩ finds behind ⟨occurrence, occurrenceInside, spans, same⟩
    cases same
    rw [compiled.findFrom?_offset inside] at finds
    rw [Text.offset_le_iff inside occurrenceInside] at behind
    exact not_spans_of_find?_eq_none (Option.map_eq_none_iff.mp finds) behind occurrenceInside spans

/-- From a place on the iteration reports the occurrences at or behind it. -/
theorem yields_occurrencesFrom (compiled : CompiledRegex) (text : Text) (place : Nat) :
    (compiled.searcher text).Yields (Regex.resumeAt text place)
      ((Regex.occurrencesFrom 0 place (compiled.form.preferredEnds text)).map
        (·.inBytes text)) := by
  by_cases inside : place ≤ text.length
  · have position : Regex.resumeAt text place = some (text.offset place) := if_pos inside
    have finds := compiled.findFrom?_offset inside
    rw [position]
    cases found : compiled.form.find? text place with
    | none =>
        rw [found] at finds
        rw [Regex.Form.occurrencesFrom_of_find?_eq_none found]
        exact .done (Searcher.next_of_find_eq_none inside finds)
    | some ends =>
        obtain ⟨start, stop⟩ := ends
        rw [found] at finds
        obtain ⟨behind, startInside, spans, _⟩ := spans_of_find?_eq_some found
        have further : place < (⟨start, stop⟩ : Occurrence).resume :=
          Nat.lt_of_lt_of_le (Nat.lt_succ_of_le behind) (Nat.le_max_right _ _)
        rw [Regex.Form.occurrencesFrom_of_find?_eq_some found]
        exact .item
          (Searcher.next_of_find_eq_some inside (Regex.start_le_of_spans spans)
            (Regex.stop_le_of_spans spans startInside) finds)
          (yields_occurrencesFrom compiled text _)
  · have passedOver : ∀ index stop,
        (compiled.form.preferredEnds text)[index]? = some (some stop) → 0 + index < place := by
      intro index stop reported
      have within := (List.getElem?_eq_some_iff.mp reported).1
      rw [Regex.Form.length_preferredEnds] at within
      omega
    have nothing := Regex.occurrencesFrom_append passedOver []
    rw [List.append_nil] at nothing
    rw [Regex.resumeAt, if_neg inside, nothing]
    exact .done rfl
termination_by text.length + 1 - place

end CompiledRegex

namespace Regex

/-- Iterating over occurrences does not fail, always goes on, and reports all matches but
those within others.  For compiled expressions it reports their occurrences. -/
theorem iteration_adequate (text : Text) :
    (∀ searcher : Searcher text,
      (∀ position, text.IsBoundary position →
        ∃ found, searcher.next (some position) = .ok found ∧
          ∀ item later, found = some (item, some later) →
            text.IsBoundary later ∧ position < later) ∧
      ∃ items, searcher.Enumerates items) ∧
    ∀ compiled : CompiledRegex,
      (compiled.searcher text).Enumerates ((compiled.occurrences text).map (·.inBytes text)) := by
  refine ⟨fun searcher => ⟨?_, ?_⟩, fun compiled => ?_⟩
  · rintro _ ⟨place, inside, rfl⟩
    cases searcher.step inside with
    | exhausted ends => exact ⟨none, ends, by simp⟩
    | found item goesOn behind =>
        refine ⟨_, goesOn, ?_⟩
        intro reported later same
        have resumes : resumeAt text item.resume = some later :=
          congrArg Prod.snd (Option.some.inj same)
        unfold resumeAt at resumes
        split at resumes
        · next bounded =>
            cases resumes
            have further : place < item.resume :=
              Nat.lt_of_lt_of_le (Nat.lt_succ_of_le behind) (Nat.le_max_right _ _)
            exact ⟨Text.isBoundary_offset bounded, Text.offset_lt_of_lt further bounded⟩
        · cases resumes
  · obtain ⟨items, reports⟩ := searcher.exists_reports 0
    exact ⟨_, reports.enumerates⟩
  · obtain ⟨items, reports⟩ := (compiled.searcher text).exists_reports 0
    have enumerates := reports.enumerates
    have same := enumerates.unique _ (compiled.yields_occurrencesFrom text 0)
    exact same ▸ enumerates

/-- An empty occurrence is passed by a character, which may take several bytes. -/
example :
    let text := "\u00e9x".toList
    (Regex.compile "x*".toList).toOption.map
        (fun compiled => (compiled.occurrences text).map (·.inBytes text)) =
      some [⟨0, 0⟩, ⟨2, 3⟩, ⟨3, 3⟩] := by
  cbv

end Regex

end ShellGlob
