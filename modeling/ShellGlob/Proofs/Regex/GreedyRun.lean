import ShellGlob.Proofs.Glob.Syntax
import ShellGlob.Regex.SearchAdequacy

/-!
# A greedy run before a form

A greedy repetition of a set of characters is tried as long as it can be before what comes
behind it.  So among the places that the run reaches, the search takes the last one from
which the rest has a match, and there the match that the rest prefers
(`preferredEnds_greedyRun`).

The pass over the text keeps exactly that: the mark behind the set is the preferred end
from the next place, and the rest is marked as if nothing stood before it.
-/

namespace ShellGlob.Regex

open Glob (Stretch)
open Unicode (CharacterSet)

variable {characters : CharacterSet} {rest : Form}

/-- As many characters of the set as possible, and the form behind them. -/
def Form.greedyRun (characters : CharacterSet) (rest : Form) : Form :=
  .concat (.repetition .star true (.set characters)) rest

/-- The run with its mark, and the form behind it with its own. -/
def Marked.greedyRun (characters : CharacterSet) (mark : Option Nat) (rest : Marked) : Marked :=
  .concat (.repetition .star true (.atom characters mark)) rest

/-- Going on with the run is preferred, and where it goes on the mark is the end. -/
theorem Marked.step_greedyRun (characters : CharacterSet) (place : Place) (mark : Option Nat)
    (rest : Marked) (done : Option Nat) :
    let moved := (greedyRun characters mark rest).step place
    let found := (if place.after.any characters.contains then mark else none).or
      ((rest.step place).1.stop done)
    moved.1.stop done = found ∧
      moved.2 (.closed done) = greedyRun characters found ((rest.step place).2 (.closed done)) := by
  generalize isFound : (if place.after.any characters.contains then mark else none) = found
  have front : Outlook.choose true (.closed found) .pass = .through found none := by
    simp [Outlook.choose, Outlook.orElse, Outlook.pass]
  have again : ∀ sequel : Outlook, (Outlook.choose true .pass sequel).stop found =
      found.or (sequel.stop found) := by
    intro sequel
    rw [Outlook.choose, if_pos rfl, Outlook.stop_orElse, Outlook.stop_pass]
  simp only [greedyRun, step, isFound, front, again, Outlook.stop_andThen]
  simp [Outlook.stop, Outlook.andThen]

namespace Form

/-- What is found first of a list of places. -/
def firstEnd (form : Form) (places : List Place) : Option Nat :=
  (form.scan places).1.head?.join

theorem scan_cons (form : Form) (place : Place) (places : List Place) :
    (form.scan (place :: places)).1 = form.firstEnd (place :: places) :: (form.scan places).1 :=
  rfl

/-- The mark behind the set is the preferred end from the next place. -/
theorem scan_greedyRun (characters : CharacterSet) (rest : Form) (places : List Place) :
    ((greedyRun characters rest).scan places).2 =
      Marked.greedyRun characters ((greedyRun characters rest).firstEnd places)
        (rest.scan places).2 := by
  induction places with
  | nil => rfl
  | cons place places ih =>
      have moved := Marked.step_greedyRun characters place
        ((greedyRun characters rest).firstEnd places) (rest.scan places).2 (some place.position)
      simp only [← ih] at moved
      rw [← moved.1] at moved
      exact moved.2

theorem firstEnd_greedyRun (characters : CharacterSet) (rest : Form) (place : Place)
    (places : List Place) :
    (greedyRun characters rest).firstEnd (place :: places) =
      (if place.after.any characters.contains then (greedyRun characters rest).firstEnd places
        else none).or (rest.firstEnd (place :: places)) := by
  have moved := Marked.step_greedyRun characters place
    ((greedyRun characters rest).firstEnd places) (rest.scan places).2 (some place.position)
  simp only [← scan_greedyRun] at moved
  exact moved.1

theorem getElem?_scan (form : Form) (places : List Place) (index : Nat) :
    (form.scan places).1[index]?.join = form.firstEnd (places.drop index) := by
  induction places generalizing index with
  | nil => simp [firstEnd, scan]
  | cons place places ih =>
      cases index with
      | zero => exact congrArg Option.join List.head?_eq_getElem?.symm
      | succ index => rw [scan_cons, List.getElem?_cons_succ, ih, List.drop_succ_cons]

/-- The preferred end from a place of the text. -/
def endAt (form : Form) (text : Text) (start : Nat) : Option Nat :=
  (form.preferredEnds text)[start]?.join

private theorem answers_endAt (form : Form) {text : Text} {start : Nat}
    (inside : start ≤ text.length) :
    Answers (form.Spans text start) (form.endAt text start) := by
  have bound : start < (form.preferredEnds text).length := by
    rw [length_preferredEnds]
    omega
  have reported := List.getElem?_eq_getElem bound
  rw [endAt, reported]
  exact answers_preferredEnds reported

theorem endAt_greedyRun (characters : CharacterSet) (rest : Form) {text : Text} {start : Nat}
    (inside : start ≤ text.length) :
    (greedyRun characters rest).endAt text start =
      (if text[start]?.any characters.contains then
        (greedyRun characters rest).endAt text (start + 1) else none).or
          (rest.endAt text start) := by
  have first : (Place.all text).drop start =
      Place.ofPosition text start :: (Place.all text).drop (start + 1) := by
    have bound : start < (Place.all text).length := by
      simp [Place.all_eq_map]
      omega
    rw [List.drop_eq_getElem_cons bound]
    simp [Place.all_eq_map]
  simp only [endAt, preferredEnds, getElem?_scan, first]
  exact firstEnd_greedyRun characters rest _ _

end Form

section

variable {text : Text} {allowed : Char → Prop} {start place : Nat}

theorem stretch_refl (text : Text) (allowed : Char → Prop) (start : Nat) :
    Stretch text allowed start start :=
  ⟨Nat.le_refl start, fun _ above below => absurd below (Nat.not_lt_of_le above)⟩

theorem stretch_of_lt (stretch : Stretch text allowed start place) (further : start < place) :
    (∃ c, text[start]? = some c ∧ allowed c) ∧ Stretch text allowed (start + 1) place :=
  ⟨stretch.2 start (Nat.le_refl start) further, further,
    fun other above below => stretch.2 other (Nat.le_of_lt above) below⟩

theorem stretch_inside (inside : start ≤ text.length)
    (stretch : Stretch text allowed start place) : place ≤ text.length := by
  rcases Nat.lt_or_eq_of_le stretch.1 with further | rfl
  · obtain ⟨c, here, _⟩ := stretch.2 (place - 1) (by omega) (by omega)
    have := (List.getElem?_eq_some_iff.mp here).1
    omega
  · exact inside

theorem stretch_cons {c : Char} (found : text[start]? = some c) (isAllowed : allowed c)
    (stretch : Stretch text allowed (start + 1) place) : Stretch text allowed start place := by
  refine ⟨Nat.le_of_lt stretch.1, fun other above below => ?_⟩
  rcases Nat.lt_or_eq_of_le above with further | rfl
  · exact stretch.2 other further below
  · exact ⟨c, found, isAllowed⟩

private theorem stretch_append {middle : Nat} (front : Stretch text allowed start middle)
    (back : Stretch text allowed middle place) : Stretch text allowed start place := by
  refine ⟨Nat.le_trans front.1 back.1, fun other above below => ?_⟩
  rcases Nat.lt_or_ge other middle with before | behind
  · exact front.2 other above before
  · exact back.2 other behind below

theorem stretch_of_isPrefix {literal : Text} (isAllowed : ∀ c ∈ literal, allowed c)
    (here : literal <+: text.drop place) :
    Stretch text allowed place (place + literal.length) := by
  refine ⟨Nat.le_add_right _ _, fun other above below => ?_⟩
  obtain ⟨index, rfl⟩ := Nat.exists_eq_add_of_le above
  obtain ⟨tail, whole⟩ := here
  have bound : index < literal.length := by omega
  refine ⟨literal[index], ?_, isAllowed _ (List.getElem_mem bound)⟩
  rw [← List.getElem?_drop, ← whole, List.getElem?_append_left bound,
    List.getElem?_eq_getElem bound]

end

namespace Form

variable {text : Text} {start stop : Nat}

/-- The run finds nothing only where the rest has no match from any place that it reaches. -/
theorem endAt_greedyRun_eq_none_iff (inside : start ≤ text.length) :
    (greedyRun characters rest).endAt text start = none ↔
      ∀ place, Stretch text (characters.contains · = true) start place →
        rest.endAt text place = none := by
  obtain ⟨size, whole⟩ := Nat.exists_eq_add_of_le inside
  induction size generalizing start with
  | zero =>
      have outside : text[start]? = none := List.getElem?_eq_none (by omega)
      rw [endAt_greedyRun characters rest inside, outside]
      constructor
      · intro none place stretch
        rcases Nat.lt_or_eq_of_le stretch.1 with further | rfl
        · obtain ⟨⟨c, found, _⟩, _⟩ := stretch_of_lt stretch further
          cases outside.symm.trans found
        · simpa using none
      · intro none
        simpa using none start (stretch_refl _ _ _)
  | succ size ih =>
      have further : start + 1 ≤ text.length := by omega
      have later := ih further (by omega)
      rw [endAt_greedyRun characters rest inside, Option.or_eq_none_iff]
      obtain ⟨c, found⟩ : ∃ c, text[start]? = some c := ⟨_, List.getElem?_eq_getElem further⟩
      simp only [found, Option.any_some]
      constructor
      · rintro ⟨goesOn, here⟩ place stretch
        rcases Nat.lt_or_eq_of_le stretch.1 with beyond | rfl
        · obtain ⟨⟨d, foundToo, accepted⟩, tail⟩ := stretch_of_lt stretch beyond
          cases found.symm.trans foundToo
          rw [if_pos accepted] at goesOn
          exact later.mp goesOn place tail
        · exact here
      · intro none
        refine ⟨?_, none start (stretch_refl _ _ _)⟩
        split
        · next accepted =>
            exact later.mpr fun place tail => none place (stretch_cons found accepted tail)
        · rfl

/-- The run ends where it reaches the last place from which the rest has a match. -/
structure EndsLast (characters : CharacterSet) (rest : Form) (text : Text)
    (start stop place : Nat) : Prop where
  reached : Stretch text (characters.contains · = true) start place
  found : rest.endAt text place = some stop
  last : ∀ later, place < later → Stretch text (characters.contains · = true) start later →
    rest.endAt text later = none

theorem exists_endsLast (inside : start ≤ text.length)
    (found : (greedyRun characters rest).endAt text start = some stop) :
    ∃ place, EndsLast characters rest text start stop place := by
  obtain ⟨size, whole⟩ := Nat.exists_eq_add_of_le inside
  induction size generalizing start with
  | zero =>
      have outside : text[start]? = none := List.getElem?_eq_none (by omega)
      rw [endAt_greedyRun characters rest inside, outside] at found
      refine ⟨start, stretch_refl _ _ _, by simpa using found, fun later beyond stretch => ?_⟩
      obtain ⟨⟨c, inText, _⟩, _⟩ := stretch_of_lt stretch beyond
      cases outside.symm.trans inText
  | succ size ih =>
      have further : start + 1 ≤ text.length := by omega
      obtain ⟨c, here⟩ : ∃ c, text[start]? = some c := ⟨_, List.getElem?_eq_getElem further⟩
      rw [endAt_greedyRun characters rest inside, here, Option.any_some] at found
      rcases Option.or_eq_some_iff.mp found with goesOn | ⟨stays, foundHere⟩
      · -- Where the run goes on, the last place from the next one is the last from here.
        split at goesOn
        · next accepted =>
            obtain ⟨place, ends⟩ := ih further goesOn (by omega)
            refine ⟨place, stretch_cons here accepted ends.reached, ends.found,
              fun later beyond stretch => ends.last later beyond ?_⟩
            have := ends.reached.1
            exact (stretch_of_lt stretch (by omega)).2
        · cases goesOn
      · refine ⟨start, stretch_refl _ _ _, foundHere, fun later beyond stretch => ?_⟩
        obtain ⟨⟨d, hereToo, accepted⟩, tail⟩ := stretch_of_lt stretch beyond
        cases here.symm.trans hereToo
        rw [if_pos accepted] at stays
        exact (endAt_greedyRun_eq_none_iff further).mp stays later tail

theorem endAt_greedyRun_eq_some_iff (inside : start ≤ text.length) :
    (greedyRun characters rest).endAt text start = some stop ↔
      ∃ place, EndsLast characters rest text start stop place := by
  refine ⟨exists_endsLast inside, ?_⟩
  rintro ⟨place, ends⟩
  cases found : (greedyRun characters rest).endAt text start with
  | none =>
      have nothing := (endAt_greedyRun_eq_none_iff inside).mp found place ends.reached
      cases nothing.symm.trans ends.found
  | some other =>
      obtain ⟨otherPlace, otherEnds⟩ := exists_endsLast inside found
      rcases Nat.lt_trichotomy place otherPlace with before | rfl | behind
      · cases (ends.last _ before otherEnds.reached).symm.trans otherEnds.found
      · exact otherEnds.found.symm.trans ends.found
      · cases (otherEnds.last _ behind ends.reached).symm.trans ends.found

theorem endAt_literal {literal : Text} {place : Nat} (inside : place ≤ text.length) :
    (Form.literal literal).endAt text place =
      if literal <+: text.drop place then some (place + literal.length) else none := by
  have answers := answers_endAt (.literal literal) inside
  cases found : (Form.literal literal).endAt text place with
  | none =>
      have noMatch : ¬ literal <+: text.drop place :=
        fun here => answers.complete found _ ⟨rfl, here⟩
      rw [if_neg noMatch]
  | some stop =>
      obtain ⟨rfl, here⟩ := answers.sound stop found
      rw [if_pos here]

/-- A character that the run accepts does not stand before the place. -/
def StartsRun (characters : CharacterSet) (text : Text) (place : Nat) : Prop :=
  ∀ before c, place = before + 1 → text[before]? = some c → characters.contains c = false

section

variable {literal : Text} {place resume : Nat}

private theorem endAt_of_not_startsRun (inside : start ≤ text.length)
    (found : (greedyRun characters rest).endAt text start = some stop)
    (within : ¬ StartsRun characters text start) :
    ∃ before, start = before + 1 ∧
      (greedyRun characters rest).endAt text before = some stop := by
  simp only [StartsRun, Classical.not_forall] at within
  obtain ⟨before, c, rfl, here, accepted⟩ := within
  rw [Bool.not_eq_false] at accepted
  refine ⟨before, rfl, ?_⟩
  rw [endAt_greedyRun characters rest (Nat.le_of_succ_le inside), here, Option.any_some,
    if_pos accepted, found, Option.some_or]

/-- The match of a run and a literal, and that none follows it directly. -/
theorem stretch_of_endAt (isAllowed : ∀ c ∈ literal, characters.contains c = true)
    (inside : start ≤ text.length)
    (found : (greedyRun characters (.literal literal)).endAt text start = some stop) :
    start + literal.length ≤ stop ∧ stop ≤ text.length ∧
      Stretch text (characters.contains · = true) start stop ∧
      (literal ≠ [] → (greedyRun characters (.literal literal)).endAt text stop = none) := by
  obtain ⟨place, ends⟩ := (endAt_greedyRun_eq_some_iff inside).mp found
  have reached := stretch_inside inside ends.reached
  have foundLiteral := ends.found
  rw [endAt_literal reached] at foundLiteral
  split at foundLiteral
  · next here =>
      obtain rfl := Option.some.inj foundLiteral
      have fits := here.length_le
      rw [List.length_drop] at fits
      have whole := stretch_append ends.reached (stretch_of_isPrefix isAllowed here)
      have forward := ends.reached.1
      refine ⟨by omega, by omega, whole, fun written => ?_⟩
      have positive := List.length_pos_iff.mpr written
      rw [endAt_greedyRun_eq_none_iff (by omega)]
      intro later stretch
      have beyond := stretch.1
      exact ends.last later (by omega) (stretch_append whole stretch)
  · cases foundLiteral

theorem drop_preferredEnds {form : Form} {position : Nat} (inside : position ≤ text.length) :
    (form.preferredEnds text).drop position =
      form.endAt text position :: (form.preferredEnds text).drop (position + 1) := by
  have bound : position < (form.preferredEnds text).length := by
    rw [length_preferredEnds]
    omega
  rw [List.drop_eq_getElem_cons bound, endAt, List.getElem?_eq_getElem bound]
  rfl

theorem endAt_outside (form : Form) {place : Nat} (beyond : text.length < place) :
    form.endAt text place = none := by
  rw [endAt, List.getElem?_eq_none (by rw [length_preferredEnds]; omega)]
  rfl

/-- What the search has passed behind its last occurrence has no match, nor does one follow that
occurrence directly. -/
structure Sought (form : Form) (text : Text) (position resume : Nat) : Prop where
  passed : ∀ place, resume ≤ place → place < position → form.endAt text place = none
  clean : resume = 0 ∨ form.endAt text resume = none

private theorem sought_start (form : Form) (text : Text) : Sought form text 0 0 :=
  ⟨fun place _ below => absurd below (Nat.not_lt_zero place), .inl rfl⟩

/-- The search goes on within its last occurrence, and where there is no match. -/
theorem Sought.next {form : Form} {position : Nat} (sought : Sought form text position resume)
    (nothing : resume ≤ position → form.endAt text position = none) :
    Sought form text (position + 1) resume := by
  refine ⟨fun place above below => ?_, sought.clean⟩
  rcases Nat.lt_or_eq_of_le (Nat.le_of_lt_succ below) with before | rfl
  · exact sought.passed place above before
  · exact nothing above

/-- A run starts at the first place behind the occurrences from which there is a match. -/
theorem Sought.startsRun (sought : Sought (greedyRun characters rest) text start resume)
    (inside : start ≤ text.length)
    (found : (greedyRun characters rest).endAt text start = some stop) (arrived : resume ≤ start) :
    StartsRun characters text start := by
  apply Classical.byContradiction
  intro within
  obtain ⟨before, rfl, foundBefore⟩ := endAt_of_not_startsRun inside found within
  by_cases earlier : resume ≤ before
  · cases (sought.passed before earlier (Nat.lt_succ_self _)).symm.trans foundBefore
  · obtain rfl : resume = before + 1 := by omega
    cases (sought.clean.resolve_left (Nat.succ_ne_zero _)).symm.trans found

private theorem StartsRun.le_of_stretch (starts : StartsRun characters text place)
    (stretch : Stretch text (characters.contains · = true) start stop) (behind : start < place) :
    stop ≤ place := by
  apply Nat.le_of_not_lt
  intro within
  obtain ⟨before, rfl⟩ := Nat.exists_eq_succ_of_ne_zero (Nat.ne_of_gt (Nat.zero_lt_of_lt behind))
  obtain ⟨c, here, accepted⟩ := stretch.2 before (by omega) (by omega)
  cases (starts before c rfl here).symm.trans accepted

private theorem occurrencesFrom_next {form : Form} {position : Nat}
    (inside : position ≤ text.length)
    (nothing : resume ≤ position → form.endAt text position = none) :
    occurrencesFrom position resume ((form.preferredEnds text).drop position) =
      occurrencesFrom (position + 1) resume ((form.preferredEnds text).drop (position + 1)) := by
  rw [drop_preferredEnds inside]
  cases here : form.endAt text position with
  | none => rfl
  | some stop =>
      have early : position < resume := by
        refine Nat.lt_of_not_le fun behind => ?_
        cases (nothing behind).symm.trans here
      rw [occurrencesFrom, if_pos early]

/-- Behind the last occurrence, one starts wherever a run does from which there is a match. -/
theorem mem_occurrencesFrom_greedyRun (written : literal ≠ [])
    (isAllowed : ∀ c ∈ literal, characters.contains c = true) {position : Nat}
    (sought : Sought (greedyRun characters (.literal literal)) text position resume)
    (notBeyond : position ≤ text.length + 1) (occurrence : Occurrence) :
    let form := greedyRun characters (.literal literal)
    occurrence ∈ occurrencesFrom position resume ((form.preferredEnds text).drop position) ↔
      position ≤ occurrence.start ∧ resume ≤ occurrence.start ∧
        StartsRun characters text occurrence.start ∧
        form.endAt text occurrence.start = some occurrence.stop := by
  intro form
  obtain ⟨size, whole⟩ := Nat.exists_eq_add_of_le notBeyond
  induction size generalizing position resume with
  | zero =>
      rw [List.drop_eq_nil_of_le (by rw [length_preferredEnds]; omega)]
      refine iff_of_false List.not_mem_nil ?_
      rintro ⟨behind, -, -, found⟩
      cases (endAt_outside form (by omega)).symm.trans found
  | succ size ih =>
      have inside : position ≤ text.length := by omega
      by_cases nothing : resume ≤ position → form.endAt text position = none
      · rw [occurrencesFrom_next inside nothing, ih (sought.next nothing) (by omega) (by omega)]
        refine and_congr_left fun ⟨later, _, found⟩ => ⟨Nat.le_of_succ_le, fun behind => ?_⟩
        refine Nat.lt_of_le_of_ne behind ?_
        rintro rfl
        cases (nothing later).symm.trans found
      · obtain ⟨arrived, someEnd⟩ := Classical.not_imp.mp nothing
        obtain ⟨stop, here⟩ := Option.ne_none_iff_exists'.mp someEnd
        have starts := sought.startsRun inside here arrived
        obtain ⟨long, fits, stretch, quiet⟩ := stretch_of_endAt isAllowed inside here
        have positive := List.length_pos_iff.mpr written
        have resumed : (Occurrence.mk position stop).resume = stop := by
          simp only [Occurrence.resume]
          omega
        have soughtBehind : Sought form text (position + 1) stop :=
          ⟨fun place above below => by omega, .inr (quiet written)⟩
        rw [drop_preferredEnds inside, here, occurrencesFrom, if_neg (Nat.not_lt_of_le arrived),
          List.mem_cons, resumed, ih soughtBehind (by omega) (by omega)]
        constructor
        · rintro (rfl | ⟨behind, _, rest⟩)
          · exact ⟨Nat.le_refl _, arrived, starts, here⟩
          · exact ⟨by omega, by omega, rest⟩
        · rintro ⟨behind, _, startsToo, found⟩
          rcases Nat.lt_or_eq_of_le behind with further | same
          · exact .inr ⟨further, startsToo.le_of_stretch stretch further, startsToo, found⟩
          · left
            rw [← same, here] at found
            cases occurrence
            cases same
            cases found
            rfl

/-- The occurrences are the preferred matches from the places where a run starts. -/
theorem mem_occurrences_greedyRun (written : literal ≠ [])
    (isAllowed : ∀ c ∈ literal, characters.contains c = true) (occurrence : Occurrence) :
    occurrence ∈ (greedyRun characters (.literal literal)).occurrences text ↔
      StartsRun characters text occurrence.start ∧
        (greedyRun characters (.literal literal)).endAt text occurrence.start =
          some occurrence.stop := by
  have members := mem_occurrencesFrom_greedyRun written isAllowed (sought_start _ text)
    (Nat.zero_le _) occurrence
  simpa [occurrences] using members

end

end Form

end ShellGlob.Regex
