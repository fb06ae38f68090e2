import ShellGlob.Proofs.Regex.ReadingAlone

/-!
# Reading within a class

Where no class stands in another one, a class stays open up to the first `]` that
is not escaped, unless it is empty so far.  Two states within the same class read
on in step (`State.follow_inClass`, `State.follow_closing`), whatever they have
read before the class.
-/

namespace ShellGlob.Regex

/-- At least one member of the class has been read, or begun with something else
than an escape. -/
def Stage.HasMember : Stage → Prop
  | .opened | .complemented | .escape _ _ => False
  | .dashes | .ready | .operand _ | .dash _ | .symbol _ => True

/-- No escape is half read. -/
def Stage.Settled : Stage → Prop
  | .escape _ _ => False
  | _ => True

theorem Stage.HasMember.settled {stage : Stage} (has : stage.HasMember) : stage.Settled := by
  cases stage with
  | escape => exact has.elim
  | _ => trivial

/-- The last of the characters completes the escape. -/
inductive Escape.ReadAs (operand : Operand) : Escape → Text → Prop where
  | last {reading : Escape} {c : Char} :
      reading.step c = .complete operand → ReadAs operand reading [c]
  | more {reading further : Escape} {c : Char} {rest : Text} :
      reading.step c = .reading further → ReadAs operand further rest →
      ReadAs operand reading (c :: rest)

namespace Brackets

variable {position : Nat} {current : Bracket} {outer : List Bracket} {brackets : Brackets}
  {c : Char} {progress : Progress}

/-- The outermost class is still open and has a member. -/
def Progress.GoesOn : Progress → Prop
  | .reading brackets => brackets.outer = [] ∧ brackets.stage.HasMember
  | .complete _ _ => False

theorem Progress.GoesOn.reading (goesOn : progress.GoesOn) :
    ∃ further later, progress = .reading ⟨further, [], later⟩ ∧ later.HasMember := by
  cases progress with
  | reading brackets =>
      obtain ⟨further, outer, later⟩ := brackets
      obtain ⟨alone, has⟩ := goesOn
      cases alone
      exact ⟨further, later, rfl, has⟩
  | complete negated members => exact goesOn.elim

private theorem goesOn_of_readyStep (ordinary : c ∉ [']', '[', '\\'])
    (ready : ReadyStep position current [] c progress) : progress.GoesOn := by
  cases ready with
  | closes | opens | escapes => exact absurd (by decide) ordinary
  | symbol | operand => exact ⟨rfl, trivial⟩

/-- Only a `^` directly behind the opening bracket is no member. -/
theorem goesOn_of_steps (alone : brackets.outer = []) (settled : brackets.stage.Settled)
    (ordinary : c ∉ [']', '[', '\\']) (steps : Steps position brackets c progress) :
    progress.GoesOn ∨
      (brackets.stage = .opened ∧ c = '^' ∧
        progress = .reading ⟨{ brackets.current with negated := true }, [], .complemented⟩) := by
  induction steps with
  | complements =>
      simp only at alone
      exact Or.inr ⟨rfl, rfl, by rw [alone]⟩
  | begins _ ready | commits _ ready =>
      cases alone
      exact Or.inl (goesOn_of_readyStep ordinary ready)
  | symbol _ ih =>
      rcases ih alone trivial ordinary with goesOn | ⟨opened, _⟩
      · exact Or.inl goesOn
      · cases opened
  | leadingBracket | closesBehindDash | escapesBehindDash => exact absurd (by decide) ordinary
  | leadingDash | dash | subtracts | endsRange | operates => exact Or.inl ⟨alone, trivial⟩
  | escape | escaped | endsEscapedRange => exact settled.elim

private theorem complete_of_readyStep (closing : c = ']')
    (ready : ReadyStep position current [] c progress) :
    ∃ negated members, progress = .complete negated members := by
  cases ready with
  | closes => exact ⟨_, _, rfl⟩
  | opens | escapes => exact absurd closing (by decide)
  | symbol operator =>
      cases operator with
      | intersection | difference | symmetricDifference => exact absurd closing (by decide)
  | operand ordinary => exact absurd closing (List.ne_of_not_mem_cons ordinary)

/-- A class with a member ends at a `]`. -/
theorem complete_of_steps (alone : brackets.outer = []) (has : brackets.stage.HasMember)
    (closing : c = ']') (steps : Steps position brackets c progress) :
    ∃ negated members, progress = .complete negated members := by
  induction steps with
  | begins _ ready | commits _ ready =>
      cases alone
      exact complete_of_readyStep closing ready
  | closesBehindDash =>
      cases alone
      exact ⟨_, _, rfl⟩
  | leadingBracket front =>
      simp only [List.mem_cons, List.not_mem_nil, or_false] at front
      rcases front with rfl | rfl
      all_goals exact has.elim
  | endsRange ordinary => exact absurd closing (List.ne_of_not_mem_cons ordinary)
  | operates operator =>
      cases operator with
      | intersection | difference | symmetricDifference => exact absurd closing (by decide)
  | symbol _ ih => exact ih alone trivial closing
  | complements | leadingDash | dash | subtracts | escapesBehindDash =>
      exact absurd closing (by decide)
  | escape | escaped | endsEscapedRange => exact has.elim

private theorem escapes_of_readyStep (escape : c = '\\')
    (ready : ReadyStep position current outer c progress) :
    progress = .reading ⟨current, outer, .escape none .opened⟩ := by
  cases ready with
  | escapes => rfl
  | closes | opens => exact absurd escape (by decide)
  | symbol operator =>
      cases operator with
      | intersection | difference | symmetricDifference => exact absurd escape (by decide)
  | operand ordinary => exact absurd (by simp [escape]) ordinary

/-- A backslash begins an escape. -/
theorem escapes_of_steps (settled : brackets.stage.Settled) (escape : c = '\\')
    (steps : Steps position brackets c progress) :
    ∃ current first, progress = .reading ⟨current, brackets.outer, .escape first .opened⟩ := by
  induction steps with
  | begins _ ready | commits _ ready => exact ⟨_, _, escapes_of_readyStep escape ready⟩
  | escapesBehindDash => exact ⟨_, _, rfl⟩
  | endsRange ordinary => exact absurd (by simp [escape]) ordinary
  | operates operator =>
      cases operator with
      | intersection | difference | symmetricDifference => exact absurd escape (by decide)
  | symbol _ ih => exact ih trivial escape
  | complements | leadingDash | leadingBracket | dash | closesBehindDash | subtracts =>
      exact absurd escape (by decide)
  | escape | escaped | endsEscapedRange => exact settled.elim

private theorem step_escape_reading {first : Option Operand} {reading more : Escape}
    (read : reading.step c = .reading more) :
    (⟨current, [], .escape first reading⟩ : Brackets).step position c =
      .ok (.reading ⟨current, [], .escape first more⟩) := by
  simp [step, stepEscape, read]

/-- An escape that is complete is a member, or ends a range. -/
theorem goesOn_of_steps_escaped {first : Option Operand} {reading : Escape} {operand : Operand}
    (read : reading.step c = .complete operand)
    (steps : Steps position ⟨current, [], .escape first reading⟩ c progress) :
    progress.GoesOn := by
  cases steps with
  | begins front => simp at front
  | leadingDash front => simp at front
  | leadingBracket front => simp at front
  | escape further =>
      rw [read] at further
      cases further
  | escaped | endsEscapedRange => exact ⟨rfl, trivial⟩

end Brackets

namespace State

/-- Both states are at the same stage of the same class. -/
def InClass (alone whole : State) (stage : Stage) : Prop :=
  ∃ current same, alone.pending = .brackets ⟨current, [], stage⟩ ∧
    whole.pending = .brackets ⟨same, [], stage⟩ ∧ current.unplaced = same.unplaced

def SameAround (alone after : State) : Prop :=
  after.draft = alone.draft ∧ after.groups = alone.groups

theorem SameAround.trans {first second third : State} (front : first.SameAround second)
    (rest : second.SameAround third) : first.SameAround third :=
  ⟨rest.1.trans front.1, rest.2.trans front.2⟩

variable {alone whole next : State} {stage : Stage} {c : Char}

/-- One state follows the other through a character that leaves the class open. -/
theorem follow_inClass (leadsTo : Stage → Prop) (inClass : InClass alone whole stage)
    (taken : whole.step c = .ok next)
    (goesOn : ∀ position current progress,
      (⟨current, [], stage⟩ : Brackets).step position c = .ok progress →
      ∃ further later, progress = .reading ⟨further, [], later⟩ ∧ leadsTo later) :
    ∃ after later, alone.step c = .ok after ∧ alone.SameAround after ∧
      InClass after next later ∧ leadsTo later := by
  obtain ⟨current, same, pending, wholePending, alike⟩ := inClass
  obtain ⟨position, draft, groups, _⟩ := alone
  obtain ⟨wholePosition, wholeDraft, wholeGroups, _⟩ := whole
  simp only at pending wholePending
  subst pending wholePending
  have bracketsAlike : (⟨same, [], stage⟩ : Brackets).unplaced =
      (⟨current, [], stage⟩ : Brackets).unplaced := by
    simp [Brackets.unplaced, alike]
  cases read : (⟨same, [], stage⟩ : Brackets).step wholePosition c with
  | error error => simp [step, stepPending, read, Except.map] at taken
  | ok progress =>
      obtain ⟨further, later, rfl, leads⟩ := goesOn wholePosition same progress read
      obtain ⟨outcome, readAlone, progressAlike⟩ :=
        Brackets.step_of_unplaced_eq position bracketsAlike read
      obtain ⟨more, stageToo, rfl, -⟩ := goesOn position current outcome readAlone
      simp only [step, stepPending, read, Except.map, Except.ok.injEq] at taken
      subst taken
      simp only [Brackets.Progress.unplaced, Brackets.unplaced, Brackets.Progress.reading.injEq,
        Brackets.mk.injEq] at progressAlike
      obtain ⟨moreAlike, -, rfl⟩ := progressAlike
      refine ⟨⟨position + 1, draft, groups, .brackets ⟨more, [], later⟩⟩, later, ?_, ⟨rfl, rfl⟩,
        ⟨more, further, rfl, rfl, moreAlike.symm⟩, leads⟩
      simp [step, stepPending, readAlone, Except.map]

theorem follow_plain (inClass : InClass alone whole stage) (settled : stage.Settled)
    (ordinary : c ∉ [']', '[', '\\']) (taken : whole.step c = .ok next) :
    ∃ after later, alone.step c = .ok after ∧ alone.SameAround after ∧
      InClass after next later ∧
      (later.HasMember ∨ (stage = .opened ∧ c = '^' ∧ later = .complemented)) := by
  apply follow_inClass _ inClass taken
  intro position current progress read
  rcases Brackets.goesOn_of_steps rfl settled ordinary (Brackets.steps_of_step read) with
    goesOn | ⟨opened, caret, rfl⟩
  · obtain ⟨further, later, same, has⟩ := goesOn.reading
    exact ⟨further, later, same, Or.inl has⟩
  · exact ⟨_, _, rfl, Or.inr ⟨opened, caret, rfl⟩⟩

theorem follow_backslash (inClass : InClass alone whole stage) (settled : stage.Settled)
    (taken : whole.step '\\' = .ok next) :
    ∃ after first, alone.step '\\' = .ok after ∧ alone.SameAround after ∧
      InClass after next (.escape first .opened) := by
  obtain ⟨after, later, takenAlone, around, inClass, first, rfl⟩ :=
    follow_inClass (fun later => ∃ first, later = .escape first .opened) inClass taken
      (by
        intro position current progress read
        obtain ⟨further, first, same⟩ :=
          Brackets.escapes_of_steps settled rfl (Brackets.steps_of_step read)
        exact ⟨further, _, same, first, rfl⟩)
  exact ⟨after, first, takenAlone, around, inClass⟩

private theorem follow_escape_reading {first : Option Operand} {reading more : Escape}
    (inClass : InClass alone whole (.escape first reading))
    (read : reading.step c = .reading more) (taken : whole.step c = .ok next) :
    ∃ after, alone.step c = .ok after ∧ alone.SameAround after ∧
      InClass after next (.escape first more) := by
  obtain ⟨after, later, takenAlone, around, inClass, rfl⟩ :=
    follow_inClass (fun later => later = .escape first more) inClass taken
      (by
        intro position current progress stepped
        rw [Brackets.step_escape_reading read] at stepped
        cases stepped
        exact ⟨current, _, rfl, rfl⟩)
  exact ⟨after, takenAlone, around, inClass⟩

private theorem follow_escaped {first : Option Operand} {reading : Escape} {operand : Operand}
    (inClass : InClass alone whole (.escape first reading))
    (read : reading.step c = .complete operand) (taken : whole.step c = .ok next) :
    ∃ after later, alone.step c = .ok after ∧ alone.SameAround after ∧
      InClass after next later ∧ later.HasMember := by
  apply follow_inClass _ inClass taken
  intro position current progress stepped
  exact (Brackets.goesOn_of_steps_escaped read (Brackets.steps_of_step stepped)).reading

/-- One state follows the other through the letters of an escape. -/
theorem follow_letters {first : Option Operand} {reading : Escape} {operand : Operand}
    {letters : Text} (readAs : reading.ReadAs operand letters)
    (inClass : InClass alone whole (.escape first reading))
    (ran : whole.run letters = .ok next) :
    ∃ after later, alone.run letters = .ok after ∧ alone.SameAround after ∧
      InClass after next later ∧ later.HasMember := by
  induction readAs generalizing alone whole with
  | last complete =>
      obtain ⟨middle, taken, same⟩ := run_cons_eq_ok.mp ran
      cases same
      obtain ⟨after, later, takenAlone, around, inClass, has⟩ :=
        follow_escaped inClass complete taken
      exact ⟨after, later, run_cons_of_step takenAlone [], around, inClass, has⟩
  | more read _ ih =>
      obtain ⟨middle, taken, ranRest⟩ := run_cons_eq_ok.mp ran
      obtain ⟨between, takenAlone, aroundBetween, inEscape⟩ :=
        follow_escape_reading inClass read taken
      obtain ⟨after, later, ranAlone, around, inClass, has⟩ := ih inEscape ranRest
      refine ⟨after, later, ?_, aroundBetween.trans around, inClass, has⟩
      rw [run_cons_of_step takenAlone]
      exact ranAlone

/-- One state follows the other out of the class. -/
theorem follow_closing (inClass : InClass alone whole stage) (has : stage.HasMember)
    (taken : whole.step ']' = .ok next) :
    next.pending = .nothing ∧
      ∃ after item, alone.step ']' = .ok after ∧ after.pending = .nothing ∧
        after.draft = alone.draft.push item ∧ after.groups = alone.groups := by
  obtain ⟨current, same, pending, wholePending, alike⟩ := inClass
  obtain ⟨position, draft, groups, _⟩ := alone
  obtain ⟨wholePosition, wholeDraft, wholeGroups, _⟩ := whole
  simp only at pending wholePending
  subst pending wholePending
  have bracketsAlike : (⟨same, [], stage⟩ : Brackets).unplaced =
      (⟨current, [], stage⟩ : Brackets).unplaced := by
    simp [Brackets.unplaced, alike]
  cases read : (⟨same, [], stage⟩ : Brackets).step wholePosition ']' with
  | error error => simp [step, stepPending, read, Except.map] at taken
  | ok progress =>
      obtain ⟨outcome, readAlone, _⟩ :=
        Brackets.step_of_unplaced_eq position bracketsAlike read
      obtain ⟨negated, members, rfl⟩ :=
        Brackets.complete_of_steps rfl has rfl (Brackets.steps_of_step read)
      obtain ⟨aloneNegated, aloneMembers, rfl⟩ :=
        Brackets.complete_of_steps rfl has rfl (Brackets.steps_of_step readAlone)
      simp only [step, stepPending, read, Except.map, Except.ok.injEq] at taken
      subst taken
      let item : Regex := .atom (.bracket aloneNegated aloneMembers)
      refine ⟨rfl, ⟨position + 1, draft.push item, groups, .nothing⟩, item, ?_, rfl, rfl, rfl⟩
      simp [item, step, stepPending, readAlone, Except.map, push]

end State

end ShellGlob.Regex
