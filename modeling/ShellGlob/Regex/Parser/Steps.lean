import ShellGlob.Regex.Parser

/-!
# The steps of reading

What a character can do, as relations with one case for each way in which it is read:
`Brackets.Steps` within classes, and `State.PlainStep` and `State.PendingStep` elsewhere.
Whatever an executable step returns is related to what it was given
(`Brackets.steps_of_step`, `State.exists_pendingStep_of_step`), so a property of all that is
read is proved by cases on these relations.
-/

namespace ShellGlob

/-- What succeeds in two parts succeeds in the first one. -/
theorem bind_eq_ok {ε α β : Type} {result : Except ε α} {goOn : α → Except ε β} {value : β}
    (taken : (result >>= goOn) = .ok value) :
    ∃ middle, result = .ok middle ∧ goOn middle = .ok value := by
  cases result with
  | error error => cases taken
  | ok middle => exact ⟨middle, rfl, taken⟩

/-- What is known to succeed has a result, and what has been checked of it holds. -/
theorem exists_of_any {ε α : Type} {result : Except ε α} {check : α → Bool}
    (checked : result.toOption.any check = true) :
    ∃ value, result = .ok value ∧ check value = true := by
  cases result with
  | error error => cases checked
  | ok value => exact ⟨value, rfl, checked⟩

theorem exists_of_isOk {ε α : Type} {result : Except ε α} (succeeded : result.isOk = true) :
    ∃ value, result = .ok value := by
  cases result with
  | error error => cases succeeded
  | ok value => exact ⟨value, rfl⟩

end ShellGlob

namespace ShellGlob.Regex

namespace Brackets

/-- What a character does with which a new member begins. -/
inductive ReadyStep (position : Nat) (current : Bracket) (outer : List Bracket) :
    Char → Progress → Prop where
  | closes : ReadyStep position current outer ']' (close current outer)
  | opens : ReadyStep position current outer '['
      (.reading ⟨{ start := position }, current :: outer, .opened⟩)
  | escapes : ReadyStep position current outer '\\'
      (.reading ⟨current, outer, .escape none .opened⟩)
  | symbol (operator : SetOperator) : ReadyStep position current outer operator.symbol
      (.reading ⟨current, outer, .symbol operator⟩)
  | operand {c : Char} : c ∉ [']', '[', '\\'] → ReadyStep position current outer c
      (.reading ⟨current, outer, .operand (.literal (.plain c))⟩)

/-- What a character does at each stage of a class. -/
inductive Steps (position : Nat) : Brackets → Char → Progress → Prop where
  | complements {current : Bracket} {outer : List Bracket} :
      Steps position ⟨current, outer, .opened⟩ '^'
        (.reading ⟨{ current with negated := true }, outer, .complemented⟩)
  | leadingDash {current : Bracket} {outer : List Bracket} {stage : Stage} :
      stage ∈ [.opened, .complemented, .dashes] → Steps position ⟨current, outer, stage⟩ '-'
        (.reading ⟨current.addLeading '-', outer, .dashes⟩)
  | leadingBracket {current : Bracket} {outer : List Bracket} {stage : Stage} :
      stage ∈ [.opened, .complemented] → Steps position ⟨current, outer, stage⟩ ']'
        (.reading ⟨current.addLeading ']', outer, .ready⟩)
  | begins {current : Bracket} {outer : List Bracket} {stage : Stage} {c : Char}
      {progress : Progress} :
      stage ∈ [.opened, .complemented, .dashes, .ready] →
      ReadyStep position current outer c progress →
        Steps position ⟨current, outer, stage⟩ c progress
  | dash {current : Bracket} {outer : List Bracket} {first : Operand} :
      Steps position ⟨current, outer, .operand first⟩ '-' (.reading ⟨current, outer, .dash first⟩)
  | commits {current after : Bracket} {outer : List Bracket} {first : Operand} {c : Char}
      {progress : Progress} :
      commit position current first = .ok after → ReadyStep position after outer c progress →
      Steps position ⟨current, outer, .operand first⟩ c progress
  | closesBehindDash {current after : Bracket} {outer : List Bracket} {first : Operand} :
      commit (position - 1) current first = .ok after →
      Steps position ⟨current, outer, .dash first⟩ ']'
        (close (after.add (.literal (.plain '-'))) outer)
  | subtracts {current after : Bracket} {outer : List Bracket} {first : Operand} :
      commit (position - 1) current first = .ok after →
      Steps position ⟨current, outer, .dash first⟩ '-'
        (.reading ⟨after.operate .difference, outer, .ready⟩)
  | escapesBehindDash {current : Bracket} {outer : List Bracket} {first : Operand} :
      Steps position ⟨current, outer, .dash first⟩ '\\'
        (.reading ⟨current, outer, .escape (some first) .opened⟩)
  | endsRange {current : Bracket} {outer : List Bracket} {first : Operand} {c : Char}
      {member : ClassSet} :
      c ∉ [']', '-', '\\'] → range (position + 1) first (.literal (.plain c)) = .ok member →
      Steps position ⟨current, outer, .dash first⟩ c
        (.reading ⟨current.add member, outer, .ready⟩)
  | operates {current : Bracket} {outer : List Bracket} (operator : SetOperator) :
      Steps position ⟨current, outer, .symbol operator⟩ operator.symbol
        (.reading ⟨current.operate operator, outer, .ready⟩)
  /-- A symbol that is not doubled is a member. -/
  | symbol {current : Bracket} {outer : List Bracket} {operator : SetOperator} {c : Char}
      {progress : Progress} :
      Steps position ⟨current, outer, .operand (.literal (.plain operator.symbol))⟩ c progress →
      Steps position ⟨current, outer, .symbol operator⟩ c progress
  | escape {current : Bracket} {outer : List Bracket} {first : Option Operand}
      {reading further : Escape} {c : Char} :
      reading.step c = .reading further → Steps position ⟨current, outer, .escape first reading⟩ c
        (.reading ⟨current, outer, .escape first further⟩)
  | escaped {current : Bracket} {outer : List Bracket} {reading : Escape} {operand : Operand}
      {c : Char} :
      reading.step c = .complete operand → Steps position ⟨current, outer, .escape none reading⟩ c
        (.reading ⟨current, outer, .operand operand⟩)
  | endsEscapedRange {current : Bracket} {outer : List Bracket} {first last : Operand}
      {reading : Escape} {c : Char} {member : ClassSet} :
      reading.step c = .complete last → range (position + 1) first last = .ok member →
      Steps position ⟨current, outer, .escape (some first) reading⟩ c
        (.reading ⟨current.add member, outer, .ready⟩)

variable {position : Nat} {current : Bracket} {outer : List Bracket} {brackets : Brackets}
  {c : Char} {progress : Progress}

theorem readyStep_stepReady :
    ReadyStep position current outer c (stepReady position current outer c) := by
  unfold stepReady
  split
  · next closing =>
      subst closing
      exact .closes
  split
  · next opening =>
      subst opening
      exact .opens
  split
  · next escape =>
      subst escape
      exact .escapes
  split
  · next operator read =>
      rw [← SetOperator.ofSymbol?_eq_some_iff.mp read]
      exact .symbol operator
  · next notClosing notOpening notEscape _ _ =>
      exact .operand (by simp [notClosing, notOpening, notEscape])

private theorem steps_of_stepOperand {first : Operand}
    (taken : stepOperand position ⟨current, outer, .operand first⟩ first c = .ok progress) :
    Steps position ⟨current, outer, .operand first⟩ c progress := by
  unfold stepOperand at taken
  split at taken
  · next dash =>
      subst dash
      cases taken
      exact .dash
  · obtain ⟨after, committed, same⟩ := bind_eq_ok taken
    cases same
    exact .commits committed readyStep_stepReady

theorem steps_of_stepDash {first : Operand}
    (taken : stepDash position ⟨current, outer, .dash first⟩ first c = .ok progress) :
    Steps position ⟨current, outer, .dash first⟩ c progress := by
  unfold stepDash at taken
  split at taken
  · next closing =>
      subst closing
      obtain ⟨after, committed, same⟩ := bind_eq_ok taken
      cases same
      exact .closesBehindDash committed
  split at taken
  · next dash =>
      subst dash
      obtain ⟨after, committed, same⟩ := bind_eq_ok taken
      cases same
      exact .subtracts committed
  split at taken
  · next escape =>
      subst escape
      cases taken
      exact .escapesBehindDash
  · next notClosing notDash notEscape =>
      obtain ⟨member, ranged, same⟩ := bind_eq_ok taken
      cases same
      exact .endsRange (by simp [notClosing, notDash, notEscape]) ranged

private theorem steps_of_stepEscape {first : Option Operand} {reading : Escape}
    (taken : stepEscape position ⟨current, outer, .escape first reading⟩ first reading c =
      .ok progress) :
    Steps position ⟨current, outer, .escape first reading⟩ c progress := by
  unfold stepEscape at taken
  split at taken
  · next further read =>
      cases taken
      exact .escape read
  · next operand read =>
      cases taken
      exact .escaped read
  · next last first read =>
      obtain ⟨member, ranged, same⟩ := bind_eq_ok taken
      cases same
      exact .endsEscapedRange read ranged
  · cases taken

/-- Whatever a character does to a class is one of the steps. -/
theorem steps_of_step (taken : brackets.step position c = .ok progress) :
    Steps position brackets c progress := by
  obtain ⟨current, outer, stage⟩ := brackets
  cases stage with
  | opened =>
      simp only [step] at taken
      split at taken
      · next caret =>
          subst caret
          cases taken
          exact .complements
      split at taken
      · next dash =>
          subst dash
          cases taken
          exact .leadingDash (by simp)
      split at taken
      · next closing =>
          subst closing
          cases taken
          exact .leadingBracket (by simp)
      · cases taken
        exact .begins (by simp) readyStep_stepReady
  | complemented =>
      simp only [step] at taken
      split at taken
      · next dash =>
          subst dash
          cases taken
          exact .leadingDash (by simp)
      split at taken
      · next closing =>
          subst closing
          cases taken
          exact .leadingBracket (by simp)
      · cases taken
        exact .begins (by simp) readyStep_stepReady
  | dashes =>
      simp only [step] at taken
      split at taken
      · next dash =>
          subst dash
          cases taken
          exact .leadingDash (by simp)
      · cases taken
        exact .begins (by simp) readyStep_stepReady
  | ready =>
      cases taken
      exact .begins (by simp) readyStep_stepReady
  | operand first => exact steps_of_stepOperand taken
  | dash first => exact steps_of_stepDash taken
  | symbol operator =>
      simp only [step] at taken
      split at taken
      · next doubled =>
          subst doubled
          cases taken
          exact .operates operator
      · exact .symbol (steps_of_stepOperand taken)
  | escape first reading => exact steps_of_stepEscape taken

end Brackets

namespace State

/-- What a character does that is no part of an escape or a class. -/
inductive PlainStep (state : State) : Char → State → Prop where
  | opens : PlainStep state '(' { state with
      draft := {}, groups := ⟨state.position, true, state.draft⟩ :: state.groups,
      pending := .parenthesis }
  | closes {innermost : OpenGroup} {outer : List OpenGroup} :
      state.groups = innermost :: outer → PlainStep state ')' { state with
        draft := innermost.outside.push (.group innermost.capturing state.draft.regex),
        groups := outer }
  | divides : PlainStep state '|' { state with draft := state.draft.split }
  | opensClass : PlainStep state '[' { state with pending := .brackets (.opened state.position) }
  | escapes : PlainStep state '\\' { state with pending := .escape .opened }
  | dot : PlainStep state '.' (state.push (.atom .dot))
  | start : PlainStep state '^' (state.push (.assertion .start))
  | stop : PlainStep state '$' (state.push (.assertion .stop))
  | repeats {draft : Draft} (operator : Repetition) :
      state.draft.repeatLast? operator = some draft →
      PlainStep state operator.symbol { state with draft }
  | literal {c : Char} : c ≠ '\\' → c ≠ '[' →
      PlainStep state c (state.push (.atom (.literal (.plain c))))

/-- What a character does, depending on what the last ones have begun. -/
inductive PendingStep (state : State) (c : Char) : State → Prop where
  | plain {next : State} : state.pending = .nothing ∨ state.pending = .parenthesis →
      PlainStep { state with pending := .nothing } c next → PendingStep state c next
  | questions : state.pending = .parenthesis → c = '?' →
      PendingStep state c { state with pending := .question }
  | uncaptures {innermost : OpenGroup} {outer : List OpenGroup} :
      state.pending = .question → state.groups = innermost :: outer → c = ':' →
      PendingStep state c { state with
        groups := { innermost with capturing := false } :: outer, pending := .nothing }
  | escape {reading further : Escape} :
      state.pending = .escape reading → reading.step c = .reading further →
      PendingStep state c { state with pending := .escape further }
  | escaped {reading : Escape} {operand : Operand} :
      state.pending = .escape reading → reading.step c = .complete operand →
      PendingStep state c (state.push operand.regex)
  | member {classes further : Brackets} :
      state.pending = .brackets classes →
      classes.step state.position c = .ok (.reading further) →
      PendingStep state c { state with pending := .brackets further }
  | closesClass {classes : Brackets} {negated : Bool} {members : ClassSet} :
      state.pending = .brackets classes →
      classes.step state.position c = .ok (.complete negated members) →
      PendingStep state c (state.push (.atom (.bracket negated members)))

variable {state next : State} {c : Char}

theorem plainStep_of_stepPlain (taken : state.stepPlain c = .ok next) :
    PlainStep state c next := by
  unfold stepPlain at taken
  split at taken
  · cases taken
    exact .opens
  · unfold closeGroup at taken
    split at taken
    · cases taken
    · next groups =>
        cases taken
        exact .closes groups
  · cases taken
    exact .divides
  · cases taken
    exact .opensClass
  · cases taken
  · cases taken
    exact .escapes
  · cases taken
    exact .dot
  · cases taken
    exact .start
  · cases taken
    exact .stop
  · next notOpening _ notEscape _ _ _ =>
      split at taken
      · next operator read =>
          rw [← Repetition.ofSymbol?_eq_some_iff.mp read]
          unfold repeatLast at taken
          split at taken
          · cases taken
          · next applied =>
              cases taken
              exact .repeats operator applied
      · cases taken
        exact .literal notEscape notOpening

theorem pendingStep_of_stepPending (taken : state.stepPending c = .ok next) :
    PendingStep state c next := by
  obtain ⟨position, draft, groups, pending⟩ := state
  cases pending with
  | nothing => exact .plain (Or.inl rfl) (plainStep_of_stepPlain taken)
  | parenthesis =>
      simp only [stepPending] at taken
      split at taken
      · next question =>
          cases taken
          exact .questions rfl question
      · exact .plain (Or.inr rfl) (plainStep_of_stepPlain taken)
  | question =>
      cases groups with
      | nil => cases taken
      | cons innermost outer =>
          simp only [stepPending] at taken
          split at taken
          · next colon =>
              cases taken
              exact .uncaptures rfl rfl colon
          · cases taken
  | escape reading =>
      simp only [stepPending] at taken
      split at taken
      · next further read =>
          cases taken
          exact .escape rfl read
      · next operand read =>
          cases taken
          exact .escaped rfl read
      · cases taken
  | brackets classes =>
      simp only [stepPending] at taken
      split at taken
      · cases taken
      · next further read =>
          cases taken
          exact .member rfl read
      · next negated members read =>
          cases taken
          exact .closesClass rfl read

/-- Whatever a character does to what is being read is one of the steps, and it is counted. -/
theorem exists_pendingStep_of_step (taken : state.step c = .ok next) :
    ∃ middle, PendingStep state c middle ∧
      next = { middle with position := state.position + 1 } := by
  unfold step at taken
  cases read : state.stepPending c with
  | error error =>
      rw [read] at taken
      cases taken
  | ok middle =>
      rw [read] at taken
      cases taken
      exact ⟨middle, pendingStep_of_stepPending read, rfl⟩

end State

end ShellGlob.Regex
