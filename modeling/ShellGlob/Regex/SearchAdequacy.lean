import ShellGlob.Regex.Compile
import ShellGlob.Regex.Form.Adequacy

/-!
# The search finds matches and misses none

The end that the search reports for a place of the text is the end of a match
from there, and it reports none only if there is none (`answers_preferredEnds`).
So it finds something exactly if the form matches some part of the text
(`isMatch_iff`).  Which end it prefers is not part of these statements.

The invariant of the pass is `HasMarks`: behind each atom stands the answer to
the question where a match may end that goes on there.
-/

namespace ShellGlob.Regex

/-- An end out of those that are possible, and none only if none is. -/
structure Answers (possible : Nat → Prop) (found : Option Nat) : Prop where
  sound : ∀ stop, found = some stop → possible stop
  complete : found = none → ∀ stop, ¬ possible stop

/-- What an outlook finds are the ends that are possible `further` on and, if
there is a way `through`, the end that is found behind it. -/
structure Outlook.Foretells (outlook : Outlook) (further : Nat → Prop) (through : Prop) :
    Prop where
  sound : ∀ done stop, outlook.stop done = some stop →
    further stop ∨ (through ∧ done = some stop)
  complete : ∀ done, outlook.stop done = none →
    (∀ stop, ¬ further stop) ∧ (through → done = none)

namespace Outlook.Foretells

theorem pass : Outlook.pass.Foretells (fun _ => False) True := by
  constructor
  · intro done stop found
    rw [stop_pass] at found
    exact Or.inr ⟨trivial, found⟩
  · intro done found
    rw [stop_pass] at found
    exact ⟨fun _ impossible => impossible, fun _ => found⟩

private theorem nothing : Outlook.nothing.Foretells (fun _ => False) False := by
  constructor
  · intro done stop found
    cases found
  · exact fun _ _ => ⟨fun _ impossible => impossible, fun impossible => impossible.elim⟩

private theorem closed {further : Nat → Prop} {found : Option Nat}
    (answers : Answers further found) :
    (Outlook.closed found).Foretells further False := by
  constructor
  · exact fun _ stop some => Or.inl (answers.sound stop some)
  · exact fun _ none => ⟨answers.complete none, fun impossible => impossible.elim⟩

theorem andThen {first rest : Outlook} {firstFurther restFurther : Nat → Prop}
    {firstThrough restThrough : Prop} (firstForetells : first.Foretells firstFurther firstThrough)
    (restForetells : rest.Foretells restFurther restThrough) :
    (first.andThen rest).Foretells
      (fun stop => firstFurther stop ∨ (firstThrough ∧ restFurther stop))
      (firstThrough ∧ restThrough) := by
  constructor
  · intro done stop found
    rw [stop_andThen] at found
    rcases firstForetells.sound _ stop found with further | ⟨through, found⟩
    · exact Or.inl (Or.inl further)
    · rcases restForetells.sound _ stop found with further | ⟨restThrough, found⟩
      · exact Or.inl (Or.inr ⟨through, further⟩)
      · exact Or.inr ⟨⟨through, restThrough⟩, found⟩
  · intro done found
    rw [stop_andThen] at found
    obtain ⟨noFirst, onward⟩ := firstForetells.complete _ found
    constructor
    · rintro stop (further | ⟨through, further⟩)
      · exact noFirst stop further
      · exact (restForetells.complete _ (onward through)).1 stop further
    · rintro ⟨through, restThrough⟩
      exact (restForetells.complete _ (onward through)).2 restThrough

theorem orElse {left right : Outlook} {leftFurther rightFurther : Nat → Prop}
    {leftThrough rightThrough : Prop} (leftForetells : left.Foretells leftFurther leftThrough)
    (rightForetells : right.Foretells rightFurther rightThrough) :
    (left.orElse right).Foretells (fun stop => leftFurther stop ∨ rightFurther stop)
      (leftThrough ∨ rightThrough) := by
  constructor
  · intro done stop found
    rw [stop_orElse, Option.or_eq_some_iff] at found
    rcases found with found | ⟨-, found⟩
    · rcases leftForetells.sound _ stop found with further | ⟨through, found⟩
      · exact Or.inl (Or.inl further)
      · exact Or.inr ⟨Or.inl through, found⟩
    · rcases rightForetells.sound _ stop found with further | ⟨through, found⟩
      · exact Or.inl (Or.inr further)
      · exact Or.inr ⟨Or.inr through, found⟩
  · intro done found
    rw [stop_orElse, Option.or_eq_none_iff] at found
    obtain ⟨noLeft, leftOnward⟩ := leftForetells.complete _ found.1
    obtain ⟨noRight, rightOnward⟩ := rightForetells.complete _ found.2
    constructor
    · rintro stop (further | further)
      · exact noLeft stop further
      · exact noRight stop further
    · rintro (through | through)
      · exact leftOnward through
      · exact rightOnward through

theorem congr {outlook : Outlook} {first second : Nat → Prop} {firstThrough secondThrough : Prop}
    (foretells : outlook.Foretells first firstThrough) (same : ∀ stop, first stop ↔ second stop)
    (sameThrough : firstThrough ↔ secondThrough) : outlook.Foretells second secondThrough := by
  have equal : first = second := funext fun stop => propext (same stop)
  rw [← equal, ← sameThrough]
  exact foretells

private theorem choose {goOn stop : Outlook} {onFurther stopFurther : Nat → Prop}
    {onThrough stopThrough : Prop} (greedy : Bool)
    (onForetells : goOn.Foretells onFurther onThrough)
    (stopForetells : stop.Foretells stopFurther stopThrough) :
    (Outlook.choose greedy goOn stop).Foretells (fun stop => onFurther stop ∨ stopFurther stop)
      (onThrough ∨ stopThrough) := by
  cases greedy
  · refine (stopForetells.orElse onForetells).congr (fun _ => or_comm) or_comm
  · exact onForetells.orElse stopForetells

end Outlook.Foretells

/-- Behind a part from which one can go `further` the search finds, if it knows
what it finds when it comes back to the start of the part, what is possible. -/
structure Outlook.LeadsTo (sequel : Outlook) (further possible : Nat → Prop) : Prop where
  sound : ∀ again, (∀ stop, again = some stop → further stop) →
    ∀ stop, sequel.stop again = some stop → possible stop
  complete : ∀ again, (again = none → ∀ stop, ¬ further stop) →
    sequel.stop again = none → ∀ stop, ¬ possible stop

namespace Outlook.LeadsTo

variable {sequel outlook : Outlook} {part other possible : Nat → Prop} {through : Prop}

theorem congr {further : Nat → Prop} (leadsTo : sequel.LeadsTo part possible)
    (same : ∀ stop, part stop ↔ further stop) : sequel.LeadsTo further possible := by
  have equal : part = further := funext fun stop => propext (same stop)
  rw [← equal]
  exact leadsTo

/-- Behind the first of two parts, where the other one follows. -/
theorem first {firstThrough : Prop} (foretells : outlook.Foretells other through)
    (leadsTo : sequel.LeadsTo (fun stop => part stop ∨ (firstThrough ∧ other stop)) possible) :
    (outlook.andThen sequel).LeadsTo part
      (fun stop => other stop ∨ (through ∧ possible stop)) := by
  constructor
  · intro again sound stop found
    rw [stop_andThen] at found
    rcases foretells.sound _ stop found with further | ⟨through, found⟩
    · exact Or.inl further
    · exact Or.inr ⟨through,
        leadsTo.sound again (fun stop found => Or.inl (sound stop found)) stop found⟩
  · intro again complete found
    rw [stop_andThen] at found
    obtain ⟨nothing, onward⟩ := foretells.complete _ found
    rintro stop (further | ⟨through, follows⟩)
    · exact nothing stop further
    · refine leadsTo.complete again ?_ (onward through) stop follows
      rintro missing stop (further | ⟨-, further⟩)
      · exact complete missing stop further
      · exact nothing stop further

/-- Behind the second of two parts, where the other one goes before. -/
theorem rest (foretells : outlook.Foretells other through)
    (leadsTo : sequel.LeadsTo (fun stop => other stop ∨ (through ∧ part stop)) possible) :
    (sequel.andThen outlook).LeadsTo part possible := by
  constructor
  · intro again sound stop found
    rw [stop_andThen] at found
    refine leadsTo.sound _ ?_ stop found
    intro stop found
    rcases foretells.sound _ stop found with further | ⟨through, found⟩
    · exact Or.inl further
    · exact Or.inr ⟨through, sound stop found⟩
  · intro again complete found
    rw [stop_andThen] at found
    refine leadsTo.complete _ ?_ found
    intro missing
    obtain ⟨nothing, onward⟩ := foretells.complete _ missing
    rintro stop (further | ⟨through, further⟩)
    · exact nothing stop further
    · exact complete (onward through) stop further

/-- Behind the first of two alternatives. -/
theorem left (foretells : outlook.Foretells other through)
    (leadsTo : sequel.LeadsTo (fun stop => part stop ∨ other stop) possible) :
    (sequel.andThen (.orElse .pass (.closed (outlook.stop none)))).LeadsTo part possible := by
  have alone (again : Option Nat) :
      (Outlook.orElse .pass (.closed (outlook.stop none))).stop again =
        again.or (outlook.stop none) := by
    rw [stop_orElse, stop_pass]
    rfl
  constructor
  · intro again sound stop found
    rw [stop_andThen, alone] at found
    refine leadsTo.sound _ ?_ stop found
    intro stop found
    rcases Option.or_eq_some_iff.mp found with found | ⟨-, found⟩
    · exact Or.inl (sound stop found)
    · rcases foretells.sound _ stop found with further | ⟨-, impossible⟩
      · exact Or.inr further
      · cases impossible
  · intro again complete found
    rw [stop_andThen, alone] at found
    refine leadsTo.complete _ ?_ found
    intro missing
    obtain ⟨noAgain, noOther⟩ := Option.or_eq_none_iff.mp missing
    rintro stop (further | further)
    · exact complete noAgain stop further
    · exact (foretells.complete _ noOther).1 stop further

/-- Behind the second of two alternatives. -/
theorem right (foretells : outlook.Foretells other through)
    (leadsTo : sequel.LeadsTo (fun stop => other stop ∨ part stop) possible) :
    (sequel.andThen (.orElse (.closed (outlook.stop none)) .pass)).LeadsTo part possible := by
  have alone (again : Option Nat) :
      (Outlook.orElse (.closed (outlook.stop none)) .pass).stop again =
        (outlook.stop none).or again := by
    rw [stop_orElse, stop_pass]
    rfl
  constructor
  · intro again sound stop found
    rw [stop_andThen, alone] at found
    refine leadsTo.sound _ ?_ stop found
    intro stop found
    rcases Option.or_eq_some_iff.mp found with found | ⟨-, found⟩
    · rcases foretells.sound _ stop found with further | ⟨-, impossible⟩
      · exact Or.inl further
      · cases impossible
    · exact Or.inr (sound stop found)
  · intro again complete found
    rw [stop_andThen, alone] at found
    refine leadsTo.complete _ ?_ found
    intro missing
    obtain ⟨noOther, noAgain⟩ := Option.or_eq_none_iff.mp missing
    rintro stop (further | further)
    · exact (foretells.complete _ noOther).1 stop further
    · exact complete noAgain stop further

/-- Behind a part that may occur again. -/
theorem again (greedy : Bool) (leadsTo : sequel.LeadsTo part possible) :
    (Outlook.choose greedy .pass sequel).LeadsTo part
      (fun stop => part stop ∨ possible stop) := by
  constructor
  · intro again sound stop found
    have either : again = some stop ∨ sequel.stop again = some stop := by
      cases greedy <;>
        simp only [choose, stop_orElse, stop_pass, if_true, Bool.false_eq_true, if_false,
          Option.or_eq_some_iff] at found
      · exact found.elim Or.inr fun found => Or.inl found.2
      · exact found.elim Or.inl fun found => Or.inr found.2
    rcases either with found | found
    · exact Or.inl (sound stop found)
    · exact Or.inr (leadsTo.sound again sound stop found)
  · intro again complete found
    have neither : again = none ∧ sequel.stop again = none := by
      cases greedy <;>
        simp only [choose, stop_orElse, stop_pass, if_true, Bool.false_eq_true, if_false,
          Option.or_eq_none_iff] at found
      · exact ⟨found.2, found.1⟩
      · exact found
    rintro stop (further | follows)
    · exact complete neither.1 stop further
    · exact leadsTo.complete again complete neither.2 stop follows

end Outlook.LeadsTo

/-- What follows an occurrence of a part that is repeated. -/
def Repetition.following (operator : Repetition) (once onward : Nat → Nat → Prop)
    (place stop : Nat) : Prop :=
  match operator with
  | .optional => onward place stop
  | .star | .plus => ∃ middle, Repeated once place middle ∧ onward middle stop

namespace Marked

variable {text : Text}

/-- What a form with marks matches, whatever the marks are. -/
def Spans (text : Text) : Marked → (start stop : Nat) → Prop
  | .empty, start, stop => start = stop
  | .atom characters _, start, stop => stop = start + 1 ∧ text[start]?.any characters.contains
  | .assertion value, start, stop => start = stop ∧ value.holds (.ofPosition text start)
  | .repetition operator _ body, start, stop => operator.Spans (body.Spans text) start stop
  | .concat first rest, start, stop =>
      ∃ middle, first.Spans text start middle ∧ rest.Spans text middle stop
  | .alternate first rest, start, stop =>
      first.Spans text start stop ∨ rest.Spans text start stop

/-- A match, and behind it what `onward` says. -/
def Leads (text : Text) (marked : Marked) (onward : Nat → Nat → Prop) (place stop : Nat) : Prop :=
  ∃ middle, marked.Spans text place middle ∧ onward middle stop

/-- A match that reads at least one character, and behind it what `onward`
says. -/
def LeadsOn (text : Text) (marked : Marked) (onward : Nat → Nat → Prop) (place stop : Nat) : Prop :=
  ∃ middle, place < middle ∧ marked.Spans text place middle ∧ onward middle stop

/-- The marks of the form say where a match may end that goes on behind an atom
at the place, if `onward` says where it may end behind the form. -/
def HasMarks (text : Text) (place : Nat) : (onward : Nat → Nat → Prop) → Marked → Prop
  | _, .empty | _, .assertion _ => True
  | onward, .atom _ next => place ≤ text.length → Answers (onward place) next
  | onward, .repetition operator _ body =>
      body.HasMarks text place (operator.following (body.Spans text) onward)
  | onward, .concat first rest =>
      first.HasMarks text place (rest.Leads text onward) ∧ rest.HasMarks text place onward
  | onward, .alternate first rest =>
      first.HasMarks text place onward ∧ rest.HasMarks text place onward

theorem start_le_of_spans {marked : Marked} {start stop : Nat}
    (spans : marked.Spans text start stop) : start ≤ stop := by
  induction marked generalizing start stop with
  | empty => exact Nat.le_of_eq spans
  | atom characters next =>
      have := spans.1
      omega
  | assertion value => exact Nat.le_of_eq spans.1
  | repetition operator greedy body ih =>
      have forward : ∀ start stop, body.Spans text start stop → start ≤ stop := fun _ _ => ih
      cases operator with
      | optional =>
          rcases spans with same | spans
          · exact Nat.le_of_eq same
          · exact ih spans
      | star => exact Repeated.start_le forward spans
      | plus =>
          obtain ⟨middle, first, rest⟩ := spans
          exact Nat.le_trans (ih first) (Repeated.start_le forward rest)
  | concat first rest firstLe restLe =>
      obtain ⟨middle, firstSpans, restSpans⟩ := spans
      exact Nat.le_trans (firstLe firstSpans) (restLe restSpans)
  | alternate first rest firstLe restLe =>
      rcases spans with spans | spans
      · exact firstLe spans
      · exact restLe spans

theorem leads_iff {marked : Marked} {onward : Nat → Nat → Prop} {place stop : Nat} :
    marked.Leads text onward place stop ↔
      marked.LeadsOn text onward place stop ∨
        (marked.Spans text place place ∧ onward place stop) := by
  constructor
  · rintro ⟨middle, spans, follows⟩
    rcases Nat.lt_or_eq_of_le (start_le_of_spans spans) with further | rfl
    · exact Or.inl ⟨middle, further, spans, follows⟩
    · exact Or.inr ⟨spans, follows⟩
  · rintro (⟨middle, -, spans, follows⟩ | ⟨spans, follows⟩)
    · exact ⟨middle, spans, follows⟩
    · exact ⟨place, spans, follows⟩

private theorem leadsOn_atom {characters : Unicode.CharacterSet} {next : Option Nat}
    {onward : Nat → Nat → Prop} {place stop : Nat} :
    (atom characters next).LeadsOn text onward place stop ↔
      text[place]?.any characters.contains ∧ onward (place + 1) stop := by
  constructor
  · rintro ⟨middle, -, ⟨rfl, accepted⟩, follows⟩
    exact ⟨accepted, follows⟩
  · rintro ⟨accepted, follows⟩
    exact ⟨place + 1, Nat.lt_succ_self place, ⟨rfl, accepted⟩, follows⟩

private theorem leadsOn_concat {first rest : Marked} {onward : Nat → Nat → Prop}
    {place stop : Nat} :
    (concat first rest).LeadsOn text onward place stop ↔
      first.LeadsOn text (rest.Leads text onward) place stop ∨
        (first.Spans text place place ∧ rest.LeadsOn text onward place stop) := by
  constructor
  · rintro ⟨last, further, ⟨middle, firstSpans, restSpans⟩, follows⟩
    rcases Nat.lt_or_eq_of_le (start_le_of_spans firstSpans) with firstFurther | rfl
    · exact Or.inl ⟨middle, firstFurther, firstSpans, last, restSpans, follows⟩
    · exact Or.inr ⟨firstSpans, last, further, restSpans, follows⟩
  · rintro (⟨middle, further, firstSpans, last, restSpans, follows⟩ |
      ⟨firstSpans, last, further, restSpans, follows⟩)
    · have := start_le_of_spans restSpans
      exact ⟨last, by omega, ⟨middle, firstSpans, restSpans⟩, follows⟩
    · exact ⟨last, further, ⟨place, firstSpans, restSpans⟩, follows⟩

private theorem spans_concat_here {first rest : Marked} {place : Nat} :
    (concat first rest).Spans text place place ↔
      first.Spans text place place ∧ rest.Spans text place place := by
  constructor
  · rintro ⟨middle, firstSpans, restSpans⟩
    have same := Nat.le_antisymm (start_le_of_spans restSpans) (start_le_of_spans firstSpans)
    subst same
    exact ⟨firstSpans, restSpans⟩
  · exact fun ⟨firstSpans, restSpans⟩ => ⟨place, firstSpans, restSpans⟩

private theorem leadsOn_alternate {first rest : Marked} {onward : Nat → Nat → Prop}
    {place stop : Nat} :
    (alternate first rest).LeadsOn text onward place stop ↔
      first.LeadsOn text onward place stop ∨ rest.LeadsOn text onward place stop := by
  simp only [LeadsOn, Spans, or_and_right, and_or_left, exists_or]

theorem leadsOn_repetition {operator : Repetition} {greedy : Bool} {body : Marked}
    {onward : Nat → Nat → Prop} {place stop : Nat} :
    (repetition operator greedy body).LeadsOn text onward place stop ↔
      body.LeadsOn text (operator.following (body.Spans text) onward) place stop := by
  have forward : ∀ start stop, body.Spans text start stop → start ≤ stop :=
    fun _ _ => start_le_of_spans
  cases operator with
  | optional =>
      constructor
      · rintro ⟨middle, further, rfl | spans, follows⟩
        · exact absurd further (Nat.lt_irrefl place)
        · exact ⟨middle, further, spans, follows⟩
      · rintro ⟨middle, further, spans, follows⟩
        exact ⟨middle, further, Or.inr spans, follows⟩
  | star =>
      constructor
      · rintro ⟨last, further, repeated, follows⟩
        rcases repeated.eq_or_first forward with rfl | ⟨middle, first, spans, rest⟩
        · exact absurd further (Nat.lt_irrefl place)
        · exact ⟨middle, first, spans, last, rest, follows⟩
      · rintro ⟨middle, further, spans, last, rest, follows⟩
        have := Repeated.start_le forward rest
        exact ⟨last, by omega, .more spans rest, follows⟩
  | plus =>
      constructor
      · rintro ⟨last, further, ⟨middle, spans, repeated⟩, follows⟩
        rcases (Repeated.more spans repeated).eq_or_first forward with
          rfl | ⟨middle, first, spans, rest⟩
        · exact absurd further (Nat.lt_irrefl place)
        · exact ⟨middle, first, spans, last, rest, follows⟩
      · rintro ⟨middle, further, spans, last, rest, follows⟩
        have := Repeated.start_le forward rest
        exact ⟨last, by omega, ⟨middle, spans, rest⟩, follows⟩

theorem following_iff {operator : Repetition} {body : Marked} {onward : Nat → Nat → Prop}
    (loops : operator ≠ .optional) {place stop : Nat} :
    operator.following (body.Spans text) onward place stop ↔
      body.LeadsOn text (operator.following (body.Spans text) onward) place stop ∨
        onward place stop := by
  have forward : ∀ start stop, body.Spans text start stop → start ≤ stop :=
    fun _ _ => start_le_of_spans
  have unfolded : (∃ middle, Repeated (body.Spans text) place middle ∧ onward middle stop) ↔
      body.LeadsOn text
        (fun place stop => ∃ middle, Repeated (body.Spans text) place middle ∧ onward middle stop)
        place stop ∨ onward place stop := by
    constructor
    · rintro ⟨last, repeated, follows⟩
      rcases repeated.eq_or_first forward with rfl | ⟨middle, first, spans, rest⟩
      · exact Or.inr follows
      · exact Or.inl ⟨middle, first, spans, last, rest, follows⟩
    · rintro (⟨middle, -, spans, last, rest, follows⟩ | follows)
      · exact ⟨last, .more spans rest, follows⟩
      · exact ⟨place, .done place, follows⟩
  cases operator with
  | optional => exact absurd rfl loops
  | star | plus => exact unfolded

private theorem following_eq {operator : Repetition} {body : Marked} {onward : Nat → Nat → Prop}
    (loops : operator ≠ .optional) {place : Nat} :
    operator.following (body.Spans text) onward place = fun stop =>
      body.LeadsOn text (operator.following (body.Spans text) onward) place stop ∨
        onward place stop :=
  funext fun _ => propext (following_iff loops)

private theorem leads_eq {marked : Marked} {onward : Nat → Nat → Prop} {place : Nat} :
    marked.Leads text onward place = fun stop =>
      marked.LeadsOn text onward place stop ∨
        (marked.Spans text place place ∧ onward place stop) :=
  funext fun _ => propext leads_iff

private theorem leads_congr {marked other : Marked} {onward : Nat → Nat → Prop}
    (same : marked.Spans text = other.Spans text) :
    marked.Leads text onward = other.Leads text onward := by
  funext place stop
  simp only [Leads, same]

theorem step_spans (place : Place) (marked : Marked) (sequel : Outlook) :
    ((marked.step place).2 sequel).Spans text = marked.Spans text := by
  induction marked generalizing sequel with
  | empty | atom | assertion => rfl
  | repetition operator greedy body ih =>
      funext start stop
      cases operator <;> simp only [step, Spans, ih]
  | concat first rest firstSame restSame =>
      funext start stop
      simp only [step, Spans, firstSame, restSame]
  | alternate first rest firstSame restSame =>
      funext start stop
      simp only [step, Spans, firstSame, restSame]

private theorem not_leadsOn_empty {onward : Nat → Nat → Prop} {place stop : Nat} :
    ¬ empty.LeadsOn text onward place stop := by
  rintro ⟨middle, further, rfl, -⟩
  exact Nat.lt_irrefl place further

private theorem not_leadsOn_assertion {value : Assertion} {onward : Nat → Nat → Prop}
    {place stop : Nat} : ¬ (assertion value).LeadsOn text onward place stop := by
  rintro ⟨middle, further, ⟨rfl, -⟩, -⟩
  exact Nat.lt_irrefl place further

/-- The mark behind an atom answers for the atom where it takes the character. -/
theorem answers_atom {characters : Unicode.CharacterSet} {next : Option Nat}
    {onward : Nat → Nat → Prop} {place : Nat}
    (marks : (atom characters next).HasMarks text (place + 1) onward) :
    Answers ((atom characters next).LeadsOn text onward place)
      (if text[place]?.any characters.contains then next else none) := by
  have onText (accepted : text[place]?.any characters.contains = true) :
      place + 1 ≤ text.length := by
    rcases Nat.lt_or_ge place text.length with shorter | longer
    · exact shorter
    · rw [List.getElem?_eq_none longer] at accepted
      cases accepted
  constructor
  · intro stop found
    rw [leadsOn_atom]
    split at found
    · next accepted => exact ⟨accepted, (marks (onText accepted)).sound stop found⟩
    · cases found
  · intro missing stop possible
    rw [leadsOn_atom] at possible
    rw [if_pos possible.1] at missing
    exact (marks (onText possible.1)).complete missing stop possible.2

/-- An assertion is passed where it holds, and nothing goes on where it fails. -/
theorem foretells_assertion (value : Assertion) (onward : Nat → Nat → Prop) (place : Nat) :
    ((assertion value).step (.ofPosition text place)).1.Foretells
      ((assertion value).LeadsOn text onward place)
      ((assertion value).Spans text place place) := by
  rw [step]
  split
  · next holds =>
      refine Outlook.Foretells.pass.congr (fun stop => ?_) ?_
      · simp [not_leadsOn_assertion]
      · simp [Spans, holds]
  · next fails =>
      refine Outlook.Foretells.nothing.congr (fun stop => ?_) ?_
      · simp [not_leadsOn_assertion]
      · simp [Spans, fails]

private theorem spans_plus_here {greedy : Bool} {body : Marked} {place : Nat} :
    (repetition .plus greedy body).Spans text place place ↔ body.Spans text place place := by
  constructor
  · rintro ⟨middle, first, rest⟩
    have forward : ∀ start stop, body.Spans text start stop → start ≤ stop :=
      fun _ _ => start_le_of_spans
    have same := Nat.le_antisymm (Repeated.start_le forward rest) (start_le_of_spans first)
    subst same
    exact first
  · exact fun spans => ⟨place, spans, .done place⟩

/-- Before a part that may be left out, the search goes into it or past it. -/
theorem foretells_skippable {operator : Repetition} {greedy : Bool} {body : Marked}
    {outlook : Outlook} {onward : Nat → Nat → Prop} {place : Nat} {through : Prop}
    (skippable : (repetition operator greedy body).Spans text place place)
    (once : outlook.Foretells
      (body.LeadsOn text (operator.following (body.Spans text) onward) place) through) :
    (Outlook.choose greedy outlook .pass).Foretells
      ((repetition operator greedy body).LeadsOn text onward place)
      ((repetition operator greedy body).Spans text place place) := by
  refine (once.choose greedy Outlook.Foretells.pass).congr (fun stop => ?_) ?_
  · rw [or_false]
    exact leadsOn_repetition.symm
  · simp only [or_true, skippable]

/-- Behind a part that may occur again, the search goes back to its start or on. -/
theorem leadsTo_loop {operator : Repetition} (loops : operator ≠ .optional) {greedy : Bool}
    {body : Marked} {sequel : Outlook} {onward : Nat → Nat → Prop} {place : Nat}
    (leadsTo : sequel.LeadsTo ((repetition operator greedy body).LeadsOn text onward place)
      (onward place)) :
    (Outlook.choose greedy .pass sequel).LeadsTo
      (body.LeadsOn text (operator.following (body.Spans text) onward) place)
      (operator.following (body.Spans text) onward place) := by
  rw [following_eq loops]
  exact (leadsTo.congr fun _ => leadsOn_repetition).again greedy

/-- A step keeps the marks right, and it foretells where matches from the place
may end. -/
theorem step_adequate {marked : Marked} {onward : Nat → Nat → Prop} {place : Nat}
    (marks : marked.HasMarks text (place + 1) onward) :
    (marked.step (.ofPosition text place)).1.Foretells
        (marked.LeadsOn text onward place) (marked.Spans text place place) ∧
      ∀ sequel : Outlook, sequel.LeadsTo (marked.LeadsOn text onward place) (onward place) →
        ((marked.step (.ofPosition text place)).2 sequel).HasMarks text place onward := by
  induction marked generalizing onward with
  | empty =>
      refine ⟨Outlook.Foretells.pass.congr (fun stop => ?_) ?_, fun _ _ => trivial⟩
      · simp only [not_leadsOn_empty]
      · simp [Spans]
  | atom characters next =>
      have answers := answers_atom marks
      constructor
      · refine (Outlook.Foretells.closed answers).congr (fun _ => Iff.rfl) ?_
        simp [Spans]
      · intro sequel leadsTo _
        constructor
        · exact leadsTo.sound _ answers.sound
        · exact leadsTo.complete _ answers.complete
  | assertion value => exact ⟨foretells_assertion value onward place, fun _ _ => trivial⟩
  | repetition operator greedy body ih =>
      obtain ⟨once, moved⟩ := ih marks
      cases operator with
      | optional =>
          refine ⟨foretells_skippable (Or.inl rfl) once, fun sequel leadsTo => ?_⟩
          rw [step, HasMarks, step_spans]
          exact moved sequel (leadsTo.congr fun _ => leadsOn_repetition)
      | star =>
          refine ⟨foretells_skippable (Repeated.done place) once, fun sequel leadsTo => ?_⟩
          rw [step, HasMarks, step_spans]
          exact moved _ (leadsTo_loop (by simp) leadsTo)
      | plus =>
          constructor
          · exact once.congr (fun _ => leadsOn_repetition.symm) spans_plus_here.symm
          · intro sequel leadsTo
            rw [step, HasMarks, step_spans]
            exact moved _ (leadsTo_loop (by simp) leadsTo)
  | concat first rest firstIh restIh =>
      obtain ⟨firstForetells, firstMoved⟩ := firstIh marks.1
      obtain ⟨restForetells, restMoved⟩ := restIh marks.2
      constructor
      · exact (firstForetells.andThen restForetells).congr (fun _ => leadsOn_concat.symm)
          spans_concat_here.symm
      · intro sequel leadsTo
        have parts := leadsTo.congr fun stop => leadsOn_concat
        rw [step, HasMarks, leads_congr (step_spans _ rest _)]
        refine ⟨firstMoved _ ?_, restMoved _ (parts.rest firstForetells)⟩
        rw [leads_eq]
        exact parts.first restForetells
  | alternate first rest firstIh restIh =>
      obtain ⟨firstForetells, firstMoved⟩ := firstIh marks.1
      obtain ⟨restForetells, restMoved⟩ := restIh marks.2
      constructor
      · exact (firstForetells.orElse restForetells).congr (fun _ => leadsOn_alternate.symm) Iff.rfl
      · intro sequel leadsTo
        have parts := leadsTo.congr fun stop => leadsOn_alternate
        exact ⟨firstMoved _ (parts.left restForetells), restMoved _ (parts.right firstForetells)⟩

/-- A step finds where a match from the place ends, if the form ends the match. -/
theorem answers_step {marked : Marked} {place : Nat}
    (marks : marked.HasMarks text (place + 1) fun here stop => here = stop) :
    Answers (marked.Spans text place)
      ((marked.step (.ofPosition text place)).1.stop (some place)) := by
  have foretells := (step_adequate marks).1
  have possible (stop : Nat) : marked.Spans text place stop ↔
      marked.Leads text (fun here stop => here = stop) place stop := by
    simp [Leads]
  constructor
  · intro stop found
    rw [possible, leads_iff]
    rcases foretells.sound _ stop found with further | ⟨through, here⟩
    · exact Or.inl further
    · exact Or.inr ⟨through, Option.some.inj here⟩
  · intro missing stop spans
    rw [possible, leads_iff] at spans
    obtain ⟨nothing, onward⟩ := foretells.complete _ missing
    rcases spans with further | ⟨through, -⟩
    · exact nothing stop further
    · cases onward through

/-- Behind the end of the text, marks may be anything. -/
theorem hasMarks_of_outside {marked : Marked} {onward : Nat → Nat → Prop} {place : Nat}
    (outside : text.length < place) : marked.HasMarks text place onward := by
  induction marked generalizing onward with
  | empty | assertion => trivial
  | atom => exact fun inside => absurd outside (Nat.not_lt_of_le inside)
  | repetition operator greedy body ih => exact ih
  | concat first rest firstMarks restMarks => exact ⟨firstMarks, restMarks⟩
  | alternate first rest firstMarks restMarks => exact ⟨firstMarks, restMarks⟩

private theorem spans_ofText (literal : Text) (start stop : Nat) :
    (ofText literal).Spans text start stop ↔ (Form.literal literal).Spans text start stop := by
  induction literal generalizing start with
  | nil => simp [ofText, Spans, Form.Spans, eq_comm]
  | cons c rest ih =>
      have one (start stop : Nat) : (ofCharacters (.single c)).Spans text start stop ↔
          (Form.literal [c]).Spans text start stop :=
        (Form.isSet_of_character? rfl start stop).symm
      cases rest with
      | nil => exact one start stop
      | cons next rest =>
          rw [← List.singleton_append, Form.spans_literal_append]
          simp only [ofText, List.singleton_append, Spans, ih, one]

theorem spans_ofForm (form : Form) : (ofForm form).Spans text = form.Spans text := by
  induction form with
  | literal value =>
      funext start stop
      exact propext (spans_ofText value start stop)
  | empty | set | assertion => rfl
  | capture body ih => exact ih
  | repetition operator greedy body ih =>
      funext start stop
      simp only [ofForm, Spans, Form.Spans, ih]
  | concat first rest firstSame restSame =>
      funext start stop
      simp only [ofForm, Spans, Form.Spans, firstSame, restSame]
  | alternate first rest firstSame restSame =>
      funext start stop
      simp only [ofForm, Spans, Form.Spans, firstSame, restSame]

end Marked

namespace Form

/-- A search over the last places of a text answers from each of them where a
match may end, and it leaves the marks of the first one. -/
theorem scan_adequate (form : Form) (text : Text) :
    ∀ count place, place + count = text.length + 1 →
      let scanned := form.scan ((List.range' place count).map (Place.ofPosition text))
      scanned.1.length = count ∧
        (∀ index found, scanned.1[index]? = some found →
          Answers (form.Spans text (place + index)) found) ∧
        scanned.2.Spans text = form.Spans text ∧
        scanned.2.HasMarks text place (fun here stop => here = stop) := by
  intro count
  induction count with
  | zero =>
      intro place atEnd
      refine ⟨rfl, ?_, Marked.spans_ofForm form, Marked.hasMarks_of_outside (by omega)⟩
      intro index found some
      simp [scan] at some
  | succ count ih =>
      intro place atEnd
      obtain ⟨length, answers, spans, marks⟩ := ih (place + 1) (by omega)
      rw [List.range'_succ, List.map_cons]
      refine ⟨?_, ?_, ?_, ?_⟩
      · simpa [scan] using length
      · intro index found some
        cases index with
        | zero =>
            obtain rfl := Option.some.inj some
            rw [Nat.add_zero, ← spans]
            exact Marked.answers_step marks
        | succ index =>
            have later := answers index found (by simpa [scan] using some)
            rwa [show place + 1 + index = place + (index + 1) by omega] at later
      · exact (Marked.step_spans _ _ _).trans spans
      · refine (Marked.step_adequate marks).2 _ ⟨?_, ?_⟩
        · exact fun _ _ stop found => Option.some.inj found
        · exact fun _ _ missing => nomatch missing

theorem length_preferredEnds (form : Form) (text : Text) :
    (form.preferredEnds text).length = text.length + 1 := by
  rw [preferredEnds, Place.all_eq_map, List.range_eq_range']
  exact (form.scan_adequate text (text.length + 1) 0 (by omega)).1

/-- The search reports an end of a match from each place, and none only if there
is none. -/
theorem answers_preferredEnds {form : Form} {text : Text} {start : Nat} {found : Option Nat}
    (reported : (form.preferredEnds text)[start]? = some found) :
    Answers (form.Spans text start) found := by
  rw [preferredEnds, Place.all_eq_map, List.range_eq_range'] at reported
  have answers := (form.scan_adequate text (text.length + 1) 0 (by omega)).2.1 start found reported
  rwa [Nat.zero_add] at answers

/-- A form matches a text if it has a match from some place of it. -/
theorem isMatch_iff {form : Form} {text : Text} :
    form.isMatch text = true ↔ ∃ start ≤ text.length, ∃ stop, form.Spans text start stop := by
  rw [isMatch, List.any_eq_true]
  constructor
  · rintro ⟨found, member, isSome⟩
    obtain ⟨start, inside, rfl⟩ := List.mem_iff_getElem.mp member
    obtain ⟨stop, found⟩ := Option.isSome_iff_exists.mp isSome
    refine ⟨start, ?_, stop, ?_⟩
    · rw [length_preferredEnds] at inside
      omega
    · exact (answers_preferredEnds (List.getElem?_eq_getElem inside)).sound stop found
  · rintro ⟨start, inside, stop, spans⟩
    have reported : start < (form.preferredEnds text).length := by
      rw [length_preferredEnds]
      omega
    refine ⟨_, List.getElem_mem reported, ?_⟩
    cases found : (form.preferredEnds text)[start] with
    | none =>
        have answers := answers_preferredEnds (List.getElem?_eq_getElem reported)
        exact absurd spans (answers.complete found stop)
    | some stop => rfl

end Form

end ShellGlob.Regex

namespace ShellGlob

/-- A compiled expression matches a text if the expression has a match from some
place of it. -/
theorem CompiledRegex.isMatch_iff {compiled : CompiledRegex} {text : Text} :
    compiled.isMatch text = true ↔
      ∃ start ≤ text.length, ∃ stop, compiled.regex.Spans text start stop := by
  rw [CompiledRegex.isMatch, Regex.Form.isMatch_iff]
  simp only [compiled.form_eq, Regex.spans_normal]

end ShellGlob
