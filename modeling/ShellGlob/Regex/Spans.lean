import ShellGlob.Regex.Form
import ShellGlob.Regex.Place

/-!
# What an expression matches

`Regex.Spans` says which parts of a text a regular expression matches, by the
place where they start and the place where they stop.  It says nothing of which
one of several a search prefers.  `Form.Spans` says the same of a form.
-/

namespace ShellGlob.Regex

/-- A step from one place to another, done any number of times. -/
inductive Repeated (once : Nat → Nat → Prop) : Nat → Nat → Prop where
  | done (place : Nat) : Repeated once place place
  | more {start middle stop : Nat} :
      once start middle → Repeated once middle stop → Repeated once start stop

theorem Repeated.one {once : Nat → Nat → Prop} {start stop : Nat} (step : once start stop) :
    Repeated once start stop :=
  .more step (.done stop)

theorem Repeated.eq_of_hollow {once : Nat → Nat → Prop}
    (hollow : ∀ start stop, once start stop → start = stop) {start stop : Nat}
    (repeated : Repeated once start stop) : start = stop := by
  induction repeated with
  | done => rfl
  | more step _ ih => exact (hollow _ _ step).trans ih

theorem Repeated.start_le {once : Nat → Nat → Prop}
    (forward : ∀ start stop, once start stop → start ≤ stop) {start stop : Nat}
    (repeated : Repeated once start stop) : start ≤ stop := by
  induction repeated with
  | done => exact Nat.le_refl _
  | more step _ ih => exact Nat.le_trans (forward _ _ step) ih

/-- What is repeated reads nothing, or an occurrence of it reads something after
which it is repeated. -/
theorem Repeated.eq_or_first {once : Nat → Nat → Prop}
    (forward : ∀ start stop, once start stop → start ≤ stop) {start stop : Nat}
    (repeated : Repeated once start stop) :
    start = stop ∨ ∃ middle, start < middle ∧ once start middle ∧ Repeated once middle stop := by
  induction repeated with
  | done => exact Or.inl rfl
  | more step rest ih =>
      rcases Nat.lt_or_eq_of_le (forward _ _ step) with further | rfl
      · exact Or.inr ⟨_, further, step, rest⟩
      · exact ih

/-- What a repetition matches, of a part that matches what `once` says. -/
def Repetition.Spans (once : Nat → Nat → Prop) (start stop : Nat) : Repetition → Prop
  | .optional => start = stop ∨ once start stop
  | .star => Repeated once start stop
  | .plus => ∃ middle, once start middle ∧ Repeated once middle stop

theorem Repetition.spans_congr {first second : Nat → Nat → Prop} (operator : Repetition)
    (same : ∀ start stop, first start stop ↔ second start stop) (start stop : Nat) :
    operator.Spans first start stop ↔ operator.Spans second start stop := by
  have equal : first = second := funext fun start => funext fun stop => propext (same start stop)
  rw [equal]

/-- The expression matches the text from `start` to `stop`. -/
def Spans (text : Text) : Regex → (start stop : Nat) → Prop
  | .empty, start, stop => start = stop
  | .atom value, start, stop => stop = start + 1 ∧ text[start]?.any value.accepts
  | .assertion value, start, stop => start = stop ∧ value.holds (.ofPosition text start)
  | .group _ body, start, stop => body.Spans text start stop
  | .repetition operator _ body, start, stop => operator.Spans (body.Spans text) start stop
  | .concat first rest, start, stop =>
      ∃ middle, first.Spans text start middle ∧ rest.Spans text middle stop
  | .alternate first rest, start, stop =>
      first.Spans text start stop ∨ rest.Spans text start stop

/-- The form matches the text from `start` to `stop`. -/
def Form.Spans (text : Text) : Form → (start stop : Nat) → Prop
  | .empty, start, stop => start = stop
  | .literal value, start, stop => stop = start + value.length ∧ value <+: text.drop start
  | .set characters, start, stop => stop = start + 1 ∧ text[start]?.any characters.contains
  | .assertion value, start, stop => start = stop ∧ value.holds (.ofPosition text start)
  | .capture body, start, stop => body.Spans text start stop
  | .repetition operator _ body, start, stop => operator.Spans (body.Spans text) start stop
  | .concat first rest, start, stop =>
      ∃ middle, first.Spans text start middle ∧ rest.Spans text middle stop
  | .alternate first rest, start, stop =>
      first.Spans text start stop ∨ rest.Spans text start stop

namespace Form

variable {text : Text} {start stop : Nat}

theorem spans_concat (first rest : Form) :
    (concat first rest).Spans text start stop ↔
      ∃ middle, first.Spans text start middle ∧ rest.Spans text middle stop :=
  Iff.rfl

theorem spans_literal_append (front rest : Text) :
    (literal (front ++ rest)).Spans text start stop ↔
      ∃ middle, (literal front).Spans text start middle ∧
        (literal rest).Spans text middle stop := by
  simp only [Spans, List.length_append]
  constructor
  · rintro ⟨rfl, tail, whole⟩
    refine ⟨start + front.length, ⟨rfl, rest ++ tail, ?_⟩, by omega, tail, ?_⟩
    · rw [← whole, List.append_assoc]
    · rw [← List.drop_drop, ← whole, List.append_assoc, List.drop_left]
  · rintro ⟨middle, ⟨rfl, tail, whole⟩, rfl, last, tailWhole⟩
    refine ⟨by omega, last, ?_⟩
    rw [List.append_assoc, tailWhole, ← List.drop_drop, ← whole, List.drop_left]

end Form

end ShellGlob.Regex
