import ShellGlob.Proofs.Regex.Reading

/-!
# Members of a class

A class is read operand by operand as long as nothing in it is an operator or
another class.  Behind an operand a dash may begin a range, and the next operand
ends it.  So there are three kinds of places in such a class: one where an operand
starts (`Stage.Begins`), one behind an operand, and one behind an operand and a
dash.

Nothing but a range can be refused here: all other members are read.  What the
members mean is not the matter of this module.
-/

namespace ShellGlob.Regex

/-- The operand is a member of its own, or the end of a range. -/
def Operand.Listed (operand : Operand) : Prop :=
  ∀ negated, operand ≠ .boundary negated

/-- The set that a listed operand is as a member. -/
def Operand.set : Operand → ClassSet
  | .literal value => .literal value
  | .shorthand value => .shorthand value
  | .boundary _ => .empty

/-- The character that an operand stands for, unless it stands for many. -/
def Operand.character? : Operand → Option Char
  | .literal value => some value.value
  | .shorthand _ | .boundary _ => none

/-- The text is the operand wherever a member of a class may start, and no operator
begins with it. -/
inductive Operand.WrittenAs : Operand → Text → Prop where
  | plain {c : Char} :
      c ∉ [']', '[', '\\', '&', '~', '-'] → WrittenAs (.literal (.plain c)) [c]
  | escaped {c : Char} {operand : Operand} :
      Operand.ofEscaped? c = some operand → operand.Listed → WrittenAs operand ['\\', c]
  | hexadecimal {high low : Char} : isHexDigit high = true → isHexDigit low = true →
      WrittenAs (.literal (.hexadecimal high low)) ['\\', 'x', high, low]

theorem Operand.WrittenAs.listed {operand : Operand} {text : Text}
    (written : operand.WrittenAs text) : operand.Listed := by
  cases written with
  | plain | hexadecimal =>
      intro negated same
      cases same
  | escaped _ listed => exact listed

theorem Escape.step_opened {c : Char} {operand : Operand}
    (known : Operand.ofEscaped? c = some operand) : opened.step c = .complete operand := by
  have notHexadecimal : c ≠ 'x' := by
    rintro rfl
    cases known
  simp [step, notHexadecimal, known]

namespace Brackets

variable {current before : Bracket} {stage : Stage} {c : Char}

theorem commit_of_listed {operand : Operand} (listed : operand.Listed) (stop : Nat)
    (current : Bracket) : commit stop current operand = .ok (current.add operand.set) := by
  cases operand with
  | literal value => rfl
  | shorthand value => rfl
  | boundary negated => exact absurd rfl (listed negated)

/-- The next operand starts a member, and the class holds `before` then. -/
inductive Begins (current : Bracket) : Stage → Bracket → Prop where
  | opened : Begins current .opened current
  | complemented : Begins current .complemented current
  | dashes : Begins current .dashes current
  | ready : Begins current .ready current
  | symbol : Begins current (.symbol .difference) (current.add (.literal (.plain '-')))
  | operand {first : Operand} :
      first.Listed → Begins current (.operand first) (current.add first.set)

theorem stepOperand_of_listed {first : Operand} (listed : first.Listed) (notDash : c ≠ '-')
    (position : Nat) (brackets : Brackets) :
    stepOperand position brackets first c =
      .ok (stepReady position (brackets.current.add first.set) brackets.outer c) := by
  rw [stepOperand, if_neg notDash, commit_of_listed listed]
  rfl

private theorem step_begins (begins : Begins current stage before) (notDash : c ≠ '-')
    (notClosing : c ≠ ']') (notCaret : stage = .opened → c ≠ '^') (position : Nat) :
    (⟨current, [], stage⟩ : Brackets).step position c = .ok (stepReady position before [] c) := by
  cases begins with
  | opened => simp [step, notCaret rfl, notDash, notClosing]
  | complemented | dashes => simp [step, notDash, notClosing]
  | ready => rfl
  | symbol =>
      have notSymbol : c ≠ SetOperator.difference.symbol := notDash
      have dash : Operand.Listed (.literal (.plain '-')) := by
        intro negated same
        cases same
      simp only [step, if_neg notSymbol]
      exact stepOperand_of_listed dash notDash position _
  | operand listed => exact stepOperand_of_listed listed notDash position _

private theorem stepReady_plain (ordinary : c ∉ [']', '[', '\\', '&', '~', '-']) (position : Nat) :
    stepReady position current [] c = .reading ⟨current, [], .operand (.literal (.plain c))⟩ := by
  simp only [List.mem_cons, List.not_mem_nil, or_false, not_or] at ordinary
  obtain ⟨notClosing, notOpening, notEscape, notAnd, notTilde, notDash⟩ := ordinary
  have noOperator : SetOperator.ofSymbol? c = none := by
    unfold SetOperator.ofSymbol?
    split
    · exact absurd rfl notAnd
    · exact absurd rfl notDash
    · exact absurd rfl notTilde
    · rfl
  rw [stepReady, if_neg notClosing, if_neg notOpening, if_neg notEscape, noOperator]

private theorem commitRange_of_range {first last : Operand} {stop : Nat} {member : ClassSet}
    (ranges : range stop first last = .ok member) (brackets : Brackets) :
    commitRange stop brackets first last =
      .ok (.reading ⟨brackets.current.add member, brackets.outer, .ready⟩) := by
  rw [commitRange, ranges]
  rfl

end Brackets

namespace State

variable {state : State} {current before : Bracket} {stage : Stage} {text : Text}
  {operand : Operand} {c : Char}

/-- The run ends in the class with the given members, where the next one has been
read up to the given stage. -/
def ArrivesIn (state : State) (text : Text) (current : Bracket) (stage : Stage) : Prop :=
  ∃ position, state.run text =
    .ok ⟨position, state.draft, state.groups, .brackets ⟨current, [], stage⟩⟩

theorem step_reading {brackets further : Brackets} (pending : state.pending = .brackets brackets)
    (read : brackets.step state.position c = .ok (.reading further)) :
    state.step c =
      .ok { state with position := state.position + 1, pending := .brackets further } := by
  simp [step, stepPending, pending, read, Except.map]

private theorem step_refused {brackets : Brackets} {error : ParseError}
    (pending : state.pending = .brackets brackets)
    (read : brackets.step state.position c = .error error) : state.step c = .error error := by
  simp [step, stepPending, pending, read, Except.map]

theorem run_reading {brackets : Brackets} (pending : state.pending = .brackets brackets)
    (read : ∀ position, brackets.step position c = .ok (.reading ⟨current, [], stage⟩)) :
    state.ArrivesIn [c] current stage :=
  ⟨_, run_cons_of_step (step_reading pending (read _)) []⟩

/-- Wherever an operand may start a member, it is read. -/
theorem run_operand (pending : state.pending = .brackets ⟨current, [], stage⟩)
    (begins : Brackets.Begins current stage before) (written : operand.WrittenAs text)
    (notCaret : stage = .opened → text ≠ ['^']) :
    state.ArrivesIn text before (.operand operand) := by
  have opensEscape : ∀ rest, state.run ('\\' :: rest) =
      run { state with
        position := state.position + 1,
        pending := .brackets ⟨before, [], .escape none .opened⟩ } rest := by
    intro rest
    apply run_cons_of_step
    apply step_reading pending
    rw [Brackets.step_begins begins (by decide) (by decide) (fun _ => by decide)]
    rfl
  cases written with
  | plain ordinary =>
      simp only [List.mem_cons, List.not_mem_nil, or_false, not_or] at ordinary
      refine run_reading pending (fun position => ?_)
      rw [Brackets.step_begins begins ordinary.2.2.2.2.2 ordinary.1
        (fun opened same => notCaret opened (by rw [same])), Brackets.stepReady_plain]
      simpa using ordinary
  | escaped known listed =>
      refine ⟨state.position + 2, ?_⟩
      rw [opensEscape]
      refine run_cons_of_step (step_reading rfl ?_) []
      simp [Brackets.step, Brackets.stepEscape, Escape.step_opened known]
  | hexadecimal high low =>
      refine ⟨state.position + 4, ?_⟩
      rw [opensEscape, run_cons_of_step (step_reading rfl rfl), run_cons_of_step (step_reading rfl
        (by simp [Brackets.step, Brackets.stepEscape, Escape.step, high]; rfl))]
      refine run_cons_of_step (step_reading rfl ?_) []
      simp [Brackets.step, Brackets.stepEscape, Escape.step, low]

private theorem step_commitRange {first last : Operand} {stop : Nat}
    (pending : state.pending = .brackets ⟨current, [], stage⟩)
    (read : (⟨current, [], stage⟩ : Brackets).step state.position c =
      Brackets.commitRange stop ⟨current, [], stage⟩ first last) :
    state.step c = (Brackets.range stop first last).map fun member =>
      ⟨state.position + 1, state.draft, state.groups,
        .brackets ⟨current.add member, [], .ready⟩⟩ := by
  cases ranges : Brackets.range stop first last with
  | ok member =>
      rw [Brackets.commitRange_of_range ranges] at read
      rw [step_reading pending read]
      rfl
  | error error =>
      rw [Brackets.commitRange, ranges] at read
      rw [step_refused pending read]
      rfl

theorem run_singleton (state : State) (c : Char) : state.run [c] = state.step c := by
  rw [run, List.foldlM_cons]
  cases state.step c with
  | error error => rfl
  | ok next => rfl

/-- Behind an operand and a dash the next operand ends a range, if it can. -/
theorem run_range {first : Operand}
    (pending : state.pending = .brackets ⟨current, [], .dash first⟩)
    (written : operand.WrittenAs text) :
    ∃ stop position, state.run text = (Brackets.range stop first operand).map fun member =>
      ⟨position, state.draft, state.groups, .brackets ⟨current.add member, [], .ready⟩⟩ := by
  have opensEscape : ∀ rest, state.run ('\\' :: rest) =
      run { state with
        position := state.position + 1,
        pending := .brackets ⟨current, [], .escape (some first) .opened⟩ } rest := by
    intro rest
    exact run_cons_of_step (step_reading pending rfl) rest
  cases written with
  | plain ordinary =>
      simp only [List.mem_cons, List.not_mem_nil, or_false, not_or] at ordinary
      obtain ⟨notClosing, _, notEscape, _, _, notDash⟩ := ordinary
      refine ⟨state.position + 1, state.position + 1, ?_⟩
      rw [run_singleton]
      refine step_commitRange pending ?_
      simp [Brackets.step, Brackets.stepDash, notClosing, notEscape, notDash]
  | escaped known listed =>
      refine ⟨state.position + 2, state.position + 2, ?_⟩
      rw [opensEscape, run_singleton]
      refine step_commitRange rfl ?_
      simp [Brackets.step, Brackets.stepEscape, Escape.step_opened known]
  | @hexadecimal high low isHigh isLow =>
      refine ⟨state.position + 4, state.position + 4, ?_⟩
      have readsHigh : Escape.hexadecimal.step high = .reading (.hexadecimalDigit high) := by
        simp [Escape.step, isHigh]
      rw [opensEscape, run_cons_of_step (step_reading rfl rfl), run_cons_of_step (step_reading rfl
        (by simp only [Brackets.step, Brackets.stepEscape, readsHigh]; rfl)), run_singleton]
      refine step_commitRange rfl ?_
      simp [Brackets.step, Brackets.stepEscape, Escape.step, isLow]

theorem run_dash_behind_operand {first : Operand}
    (pending : state.pending = .brackets ⟨current, [], .operand first⟩) :
    state.ArrivesIn ['-'] current (.dash first) :=
  run_reading pending fun _ => rfl

/-- Directly behind the opening bracket a dash is a member. -/
theorem run_dash_leading (pending : state.pending = .brackets ⟨current, [], stage⟩)
    (leading : stage = .opened ∨ stage = .complemented) :
    state.ArrivesIn ['-'] (current.addLeading '-') .dashes := by
  rcases leading with rfl | rfl
  · exact run_reading pending fun _ => rfl
  · exact run_reading pending fun _ => rfl

/-- Behind a complete member a dash is the next one, unless another dash follows it. -/
theorem run_dash_ready (pending : state.pending = .brackets ⟨current, [], .ready⟩) :
    state.ArrivesIn ['-'] current (.symbol .difference) :=
  run_reading pending fun _ => rfl

theorem arrives_of_complete {brackets : Brackets} {negated : Bool} {members : ClassSet}
    (pending : state.pending = .brackets brackets)
    (read : brackets.step state.position c = .ok (.complete negated members)) :
    state.Arrives [c] (state.draft.push (.atom (.bracket negated members))) state.groups := by
  refine ⟨state.position + 1, ?_⟩
  rw [run_singleton]
  simp [step, stepPending, pending, read, Except.map, push]

/-- A class with a member ends at a `]`. -/
theorem run_classClose (pending : state.pending = .brackets ⟨current, [], stage⟩)
    (begins : Brackets.Begins current stage before) (notOpened : stage ≠ .opened)
    (notComplemented : stage ≠ .complemented) :
    state.Arrives [']'] (state.draft.push (.atom (.bracket before.negated before.contents)))
      state.groups := by
  apply arrives_of_complete pending
  cases begins with
  | opened => exact absurd rfl notOpened
  | complemented => exact absurd rfl notComplemented
  | dashes | ready | symbol => rfl
  | operand listed => exact Brackets.stepOperand_of_listed listed (by decide) _ _

/-- Both an operand and the dash behind it are members if the class ends there. -/
theorem run_classClose_behind_dash {first : Operand} (listed : first.Listed)
    (pending : state.pending = .brackets ⟨current, [], .dash first⟩)
    (whole : (current.add first.set).add (.literal (.plain '-')) = before) :
    state.Arrives [']'] (state.draft.push (.atom (.bracket before.negated before.contents)))
      state.groups := by
  have closes : Brackets.stepDash state.position ⟨current, [], .dash first⟩ first ']' =
      .ok (.complete before.negated before.contents) := by
    rw [Brackets.stepDash, if_pos rfl, Brackets.commit_of_listed listed, ← whole]
    rfl
  exact arrives_of_complete pending closes

end State

/-- Whether a range ends before it starts, or one of its ends is no single character. -/
def refusesRange : (low high : Option Char) → Bool
  | some low, some high => high < low
  | _, _ => true

/-- The error is about a range. -/
def ParseError.OfRange (error : ParseError) : Prop :=
  error.cause = .descendingRange ∨ error.cause = .rangeBound

theorem exists_range_of_not_refusesRange {first last : Operand}
    (accepted : refusesRange first.character? last.character? = false) (stop : Nat) :
    ∃ member, Brackets.range stop first last = .ok member := by
  cases first with
  | literal low =>
      cases last with
      | literal high =>
          have ascending : low.value ≤ high.value := by
            simpa [refusesRange, Operand.character?] using accepted
          exact ⟨.range low high, by simp [Brackets.range, ascending]⟩
      | shorthand | boundary => cases accepted
  | shorthand | boundary => cases accepted

theorem exists_error_of_refusesRange {first last : Operand}
    (refused : refusesRange first.character? last.character? = true) (stop : Nat) :
    ∃ error, Brackets.range stop first last = .error error ∧ error.OfRange := by
  cases first with
  | literal low =>
      cases last with
      | literal high =>
          have descending : ¬ low.value ≤ high.value := by
            simpa [refusesRange, Operand.character?] using refused
          exact ⟨_, by simp [Brackets.range, descending]; rfl, Or.inl rfl⟩
      | shorthand | boundary => exact ⟨_, rfl, Or.inr rfl⟩
  | shorthand | boundary => exact ⟨_, rfl, Or.inr rfl⟩

end ShellGlob.Regex
