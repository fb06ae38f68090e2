import ShellGlob.Proofs.Regex.Reading

/-!
# Two runs in lockstep

The steps of a run look at little of what has been read: whether there is a last item,
whether it is a greedy repetition, and which group is the innermost one.  A relation
between what two runs have read that respects this (`Lockstep`) is kept by each character,
and the second run takes every step that the first one takes (`Lockstep.run`).

Only an operator looks at the last item.  Where none follows, a relation that says less may
hold at first, if the next item, branch or group makes it one that is kept (`Seam.run_cons`).

What has been begun is the same in both runs but for the places of open classes, on which
no step depends (`Brackets.outcome_step`).
-/

namespace ShellGlob.Regex

def Bracket.unplaced (bracket : Bracket) : Bracket :=
  { bracket with start := 0 }

def Brackets.unplaced (brackets : Brackets) : Brackets :=
  ⟨brackets.current.unplaced, brackets.outer.map Bracket.unplaced, brackets.stage⟩

namespace Brackets

def Progress.unplaced : Progress → Progress
  | .reading brackets => .reading brackets.unplaced
  | .complete negated members => .complete negated members

/-- What is left of the outcome if neither places nor errors count. -/
def outcome (result : Except ParseError Progress) : Option Progress :=
  result.toOption.map Progress.unplaced

theorem unplaced_reading {current same : Bracket}
    (alike : current.unplaced = same.unplaced) (outer : List Bracket) (stage : Stage) :
    (Progress.reading ⟨current, outer.map Bracket.unplaced, stage⟩).unplaced =
      (Progress.reading ⟨same, outer, stage⟩).unplaced := by
  have outerAlike : (outer.map Bracket.unplaced).map Bracket.unplaced =
      outer.map Bracket.unplaced := by
    rw [List.map_map]
    rfl
  simp only [Progress.unplaced, Brackets.unplaced, alike, outerAlike]

theorem unplaced_close (current : Bracket) (outer : List Bracket) :
    (close current.unplaced (outer.map Bracket.unplaced)).unplaced =
      (close current outer).unplaced := by
  cases outer with
  | nil => rfl
  | cons next outer => exact unplaced_reading rfl outer .ready

theorem unplaced_stepReady (position other : Nat) (current : Bracket)
    (outer : List Bracket) (c : Char) :
    (stepReady other current.unplaced (outer.map Bracket.unplaced) c).unplaced =
      (stepReady position current outer c).unplaced := by
  unfold stepReady
  split
  · exact unplaced_close current outer
  split
  · exact unplaced_reading rfl (current :: outer) .opened
  split
  · exact unplaced_reading rfl outer _
  split
  · exact unplaced_reading rfl outer _
  · exact unplaced_reading rfl outer _

theorem toOption_commit (position other : Nat) (current : Bracket) (first : Operand) :
    (commit other current.unplaced first).toOption =
      (commit position current first).toOption.map Bracket.unplaced := by
  cases first with
  | literal value => rfl
  | shorthand value => rfl
  | boundary negated => rfl

private theorem toOption_range (position other : Nat) (first last : Operand) :
    (range other first last).toOption = (range position first last).toOption := by
  cases first with
  | literal low =>
      cases last with
      | literal high =>
          simp only [range]
          split
          · rfl
          · rfl
      | shorthand value => rfl
      | boundary negated => rfl
  | shorthand value => rfl
  | boundary negated => rfl

theorem outcome_bind {α : Type} (result : Except ParseError α) (goOn : α → Progress) :
    outcome (result >>= fun value => pure (goOn value)) =
      result.toOption.map fun value => (goOn value).unplaced := by
  cases result with
  | error error => rfl
  | ok value => rfl

theorem outcome_commitRange (position other : Nat) (brackets : Brackets)
    (first last : Operand) :
    outcome (commitRange other brackets.unplaced first last) =
      outcome (commitRange position brackets first last) := by
  unfold commitRange
  rw [outcome_bind, outcome_bind, toOption_range position other]
  congr 1
  funext member
  exact unplaced_reading rfl brackets.outer .ready

private theorem outcome_stepOperand (position other : Nat) (brackets : Brackets)
    (first : Operand) (c : Char) :
    outcome (stepOperand other brackets.unplaced first c) =
      outcome (stepOperand position brackets first c) := by
  unfold stepOperand
  split
  · exact congrArg some (unplaced_reading rfl brackets.outer _)
  · rw [outcome_bind, outcome_bind, Brackets.unplaced, toOption_commit position other,
      Option.map_map]
    congr 1
    funext current
    exact unplaced_stepReady position other current brackets.outer c

private theorem outcome_stepDash (position other : Nat) (brackets : Brackets)
    (first : Operand) (c : Char) :
    outcome (stepDash other brackets.unplaced first c) =
      outcome (stepDash position brackets first c) := by
  unfold stepDash
  split
  · rw [outcome_bind, outcome_bind, Brackets.unplaced,
      toOption_commit (position - 1) (other - 1), Option.map_map]
    congr 1
    funext current
    exact unplaced_close (current.add (.literal (.plain '-'))) brackets.outer
  split
  · rw [outcome_bind, outcome_bind, Brackets.unplaced,
      toOption_commit (position - 1) (other - 1), Option.map_map]
    congr 1
    funext current
    exact unplaced_reading rfl brackets.outer .ready
  split
  · exact congrArg some (unplaced_reading rfl brackets.outer _)
  · exact outcome_commitRange _ _ brackets first _

private theorem outcome_stepEscape (position other : Nat) (brackets : Brackets)
    (first : Option Operand) (escape : Escape) (c : Char) :
    outcome (stepEscape other brackets.unplaced first escape c) =
      outcome (stepEscape position brackets first escape c) := by
  unfold stepEscape
  cases escape.step c with
  | reading further => exact congrArg some (unplaced_reading rfl brackets.outer _)
  | complete operand =>
      cases first with
      | none => exact congrArg some (unplaced_reading rfl brackets.outer _)
      | some first => exact outcome_commitRange _ _ brackets first operand
  | unknown => rfl

/-- What a character does to the open classes does not depend on their places. -/
theorem outcome_step (position other : Nat) (brackets : Brackets) (c : Char) :
    outcome (brackets.unplaced.step other c) = outcome (brackets.step position c) := by
  obtain ⟨current, outer, stage⟩ := brackets
  have ready := unplaced_stepReady position other current outer c
  cases stage with
  | opened | complemented | dashes | ready =>
      simp only [Brackets.step, Brackets.unplaced]
      repeat' split
      all_goals first
        | exact congrArg some ready
        | exact congrArg some (unplaced_reading rfl outer _)
  | operand first => exact outcome_stepOperand position other ⟨current, outer, _⟩ first c
  | dash first => exact outcome_stepDash position other ⟨current, outer, _⟩ first c
  | symbol operator =>
      simp only [Brackets.step, Brackets.unplaced]
      split
      · exact congrArg some (unplaced_reading rfl outer .ready)
      · exact outcome_stepOperand position other ⟨current, outer, _⟩ _ c
  | escape first escape =>
      exact outcome_stepEscape position other ⟨current, outer, _⟩ first escape c

theorem step_of_unplaced_eq (other : Nat) {position : Nat} {brackets same : Brackets} {c : Char}
    {progress : Progress} (alike : brackets.unplaced = same.unplaced)
    (taken : brackets.step position c = .ok progress) :
    ∃ next, same.step other c = .ok next ∧ progress.unplaced = next.unplaced := by
  have outcomes : outcome (same.step other c) = some progress.unplaced := by
    rw [← outcome_step other 0 same, ← alike, outcome_step position, taken]
    rfl
  cases result : same.step other c with
  | error error =>
      rw [result] at outcomes
      cases outcomes
  | ok next =>
      rw [result] at outcomes
      exact ⟨next, rfl, (Option.some.inj outcomes).symm⟩

end Brackets

def Pending.unplaced : Pending → Pending
  | .brackets classes => .brackets classes.unplaced
  | pending => pending

/-- What an operator makes of the item before it. -/
def repeatItem : Repetition → Regex → Regex
  | .optional, .repetition inner true body => .repetition inner false body
  | operator, item => .repetition operator true item

theorem Draft.repeatLast?_cons (operator : Repetition) (branches : List Regex) (item : Regex)
    (rest : List Regex) :
    (⟨branches, item :: rest⟩ : Draft).repeatLast? operator =
      some ⟨branches, repeatItem operator item :: rest⟩ := by
  unfold repeatLast? repeatItem
  split
  · next empty => cases empty
  · next same =>
      cases same
      rfl
  · next notLazy same =>
      cases same
      split
      · exact (notLazy _ _ rfl rfl).elim
      · rfl

private theorem State.stepPlain_of_operator {c : Char} {operator : Repetition}
    (symbol : Repetition.ofSymbol? c = some operator) (state : State) :
    state.stepPlain c = state.repeatLast operator := by
  unfold Repetition.ofSymbol? at symbol
  split at symbol
  all_goals
    cases symbol
    try rfl

/-- The relation between what is read in two runs is kept by all that a character can do
to it. -/
structure Lockstep (related : Draft → List OpenGroup → Draft → List OpenGroup → Prop) :
    Prop where
  push {draft other : Draft} {groups otherGroups : List OpenGroup} (item : Regex) :
    related draft groups other otherGroups →
      related (draft.push item) groups (other.push item) otherGroups
  split {draft other : Draft} {groups otherGroups : List OpenGroup} :
    related draft groups other otherGroups → related draft.split groups other.split otherGroups
  repeatLast? {draft other next : Draft} {groups otherGroups : List OpenGroup}
    {operator : Repetition} :
    related draft groups other otherGroups → draft.repeatLast? operator = some next →
      ∃ after, other.repeatLast? operator = some after ∧ related next groups after otherGroups
  opens {draft other : Draft} {groups otherGroups : List OpenGroup} (start otherStart : Nat) :
    related draft groups other otherGroups →
      related {} (⟨start, true, draft⟩ :: groups) {} (⟨otherStart, true, other⟩ :: otherGroups)
  /-- The innermost group can be made not to capture, and it can be closed. -/
  innermost {draft other : Draft} {group : OpenGroup} {outer otherGroups : List OpenGroup} :
    related draft (group :: outer) other otherGroups →
      ∃ same otherOuter, otherGroups = same :: otherOuter ∧
        related draft ({ group with capturing := false } :: outer)
          other ({ same with capturing := false } :: otherOuter) ∧
        related (group.outside.push (.group group.capturing draft.regex)) outer
          (same.outside.push (.group same.capturing other.regex)) otherOuter

/-- What the two states have read is related, and they have begun the same, apart from
places. -/
structure State.Alike (related : Draft → List OpenGroup → Draft → List OpenGroup → Prop)
    (state other : State) : Prop where
  read : related state.draft state.groups other.draft other.groups
  pending : state.pending.unplaced = other.pending.unplaced

namespace State

theorem pending_unplaced_eq {pending other : Pending}
    (alike : pending.unplaced = other.unplaced) :
    pending = other ∨ ∃ classes same, pending = .brackets classes ∧
      other = .brackets same ∧ classes.unplaced = same.unplaced := by
  cases pending with
  | brackets classes =>
      cases other with
      | brackets same => exact Or.inr ⟨classes, same, rfl, rfl, Pending.brackets.inj alike⟩
      | _ => cases alike
  | _ =>
      cases other with
      | brackets same => cases alike
      | _ => exact Or.inl alike

theorem pending_eq_nothing {pending : Pending}
    (alike : Pending.nothing.unplaced = pending.unplaced) : pending = .nothing := by
  rcases pending_unplaced_eq alike with same | ⟨_, _, impossible, _, _⟩
  · exact same.symm
  · cases impossible

private theorem stepPending_of_alike {alone state next : State} {classes same : Brackets} {c : Char}
    (pending : alone.pending = .brackets classes) (otherPending : state.pending = .brackets same)
    (alike : classes.unplaced = same.unplaced) (taken : alone.stepPending c = .ok next) :
    (∃ further more, next = { alone with pending := .brackets further } ∧
        state.stepPending c = .ok { state with pending := .brackets more } ∧
        further.unplaced = more.unplaced) ∨
      ∃ item, next = alone.push item ∧ state.stepPending c = .ok (state.push item) := by
  obtain ⟨position, draft, groups, _⟩ := alone
  obtain ⟨otherPosition, other, otherGroups, _⟩ := state
  simp only at pending otherPending
  subst pending otherPending
  cases read : classes.step position c with
  | error error => simp [stepPending, read] at taken
  | ok progress =>
      obtain ⟨outcome, readOther, progressAlike⟩ :=
        Brackets.step_of_unplaced_eq otherPosition alike read
      cases progress with
      | reading further =>
          cases outcome with
          | reading more =>
              simp only [stepPending, read, readOther] at taken ⊢
              cases taken
              exact Or.inl ⟨further, more, rfl, rfl,
                Brackets.Progress.reading.inj progressAlike⟩
          | complete negated members => cases progressAlike
      | complete negated members =>
          cases outcome with
          | reading more => cases progressAlike
          | complete otherNegated otherMembers =>
              cases progressAlike
              simp only [stepPending, read, readOther] at taken ⊢
              cases taken
              exact Or.inr ⟨_, rfl, rfl⟩

end State

/-- Where the first relation holds of what is read in two runs, the second one holds behind
each item, branch or group that is read next. -/
structure Seam (before behind : Draft → List OpenGroup → Draft → List OpenGroup → Prop) :
    Prop where
  push {draft other : Draft} {groups otherGroups : List OpenGroup} (item : Regex) :
    before draft groups other otherGroups →
      behind (draft.push item) groups (other.push item) otherGroups
  split {draft other : Draft} {groups otherGroups : List OpenGroup} :
    before draft groups other otherGroups → behind draft.split groups other.split otherGroups
  opens {draft other : Draft} {groups otherGroups : List OpenGroup} (start otherStart : Nat) :
    before draft groups other otherGroups →
      behind {} (⟨start, true, draft⟩ :: groups) {} (⟨otherStart, true, other⟩ :: otherGroups)
  closes {draft other : Draft} {group : OpenGroup} {outer otherGroups : List OpenGroup} :
    before draft (group :: outer) other otherGroups →
      ∃ same otherOuter, otherGroups = same :: otherOuter ∧
        behind (group.outside.push (.group group.capturing draft.regex)) outer
          (same.outside.push (.group same.capturing other.regex)) otherOuter

theorem Lockstep.seam {related : Draft → List OpenGroup → Draft → List OpenGroup → Prop}
    (lockstep : Lockstep related) : Seam related related where
  push := lockstep.push
  split := lockstep.split
  opens := lockstep.opens
  closes read := by
    obtain ⟨same, otherOuter, groups, _, closed⟩ := lockstep.innermost read
    exact ⟨same, otherOuter, groups, closed⟩

/-- An escape or a class has been begun. -/
def Pending.InItem : Pending → Prop
  | .escape _ | .brackets _ => True
  | .nothing | .parenthesis | .question => False

/-- The runs are past the seam, or within the item that begins behind it. -/
def State.Past (before behind : Draft → List OpenGroup → Draft → List OpenGroup → Prop)
    (state other : State) : Prop :=
  Alike behind state other ∨ Alike before state other ∧ state.pending.InItem

namespace Seam

open State

variable {before behind : Draft → List OpenGroup → Draft → List OpenGroup → Prop}
  {state other next : State} {c : Char}

/-- Behind the seam starts an item or a branch, or a group closes. -/
theorem stepPlain (seam : Seam before behind) {draft otherDraft : Draft}
    {groups otherGroups : List OpenGroup} {position otherPosition : Nat}
    (read : before draft groups otherDraft otherGroups)
    (notOperator : Repetition.ofSymbol? c = none)
    (taken : (⟨position, draft, groups, .nothing⟩ : State).stepPlain c = .ok next) :
    ∃ after, (⟨otherPosition, otherDraft, otherGroups, .nothing⟩ : State).stepPlain c = .ok after ∧
      Past before behind next after := by
  -- One case for each arm of `stepPlain`.
  unfold State.stepPlain at taken ⊢
  split at taken
  · cases taken
    exact ⟨_, rfl, Or.inl ⟨seam.opens position otherPosition read, rfl⟩⟩
  · unfold closeGroup at taken ⊢
    cases groups with
    | nil => cases taken
    | cons group outer =>
        obtain ⟨same, otherOuter, rfl, closed⟩ := seam.closes read
        cases taken
        exact ⟨_, rfl, Or.inl ⟨closed, rfl⟩⟩
  · cases taken
    exact ⟨_, rfl, Or.inl ⟨seam.split read, rfl⟩⟩
  · cases taken
    exact ⟨_, rfl, Or.inr ⟨⟨read, rfl⟩, trivial⟩⟩
  · cases taken
  · cases taken
    exact ⟨_, rfl, Or.inr ⟨⟨read, rfl⟩, trivial⟩⟩
  · cases taken
    exact ⟨_, rfl, Or.inl ⟨seam.push _ read, rfl⟩⟩
  · cases taken
    exact ⟨_, rfl, Or.inl ⟨seam.push _ read, rfl⟩⟩
  · cases taken
    exact ⟨_, rfl, Or.inl ⟨seam.push _ read, rfl⟩⟩
  · simp only [notOperator] at taken ⊢
    cases taken
    exact ⟨_, rfl, Or.inl ⟨seam.push _ read, rfl⟩⟩

private theorem stepPending_brackets (seam : Seam before behind) {classes same : Brackets}
    (read : before state.draft state.groups other.draft other.groups)
    (pending : state.pending = .brackets classes) (otherPending : other.pending = .brackets same)
    (alike : classes.unplaced = same.unplaced) (taken : state.stepPending c = .ok next) :
    ∃ after, other.stepPending c = .ok after ∧ Past before behind next after := by
  rcases stepPending_of_alike pending otherPending alike taken with
    ⟨further, more, rfl, takenOther, alike⟩ | ⟨item, rfl, takenOther⟩
  · exact ⟨_, takenOther, Or.inr ⟨⟨read, congrArg Pending.brackets alike⟩, trivial⟩⟩
  · exact ⟨_, takenOther, Or.inl ⟨seam.push item read, rfl⟩⟩

theorem stepPending (seam : Seam before behind) (alike : Alike before state other)
    (inItem : state.pending.InItem) (taken : state.stepPending c = .ok next) :
    ∃ after, other.stepPending c = .ok after ∧ Past before behind next after := by
  obtain ⟨position, draft, groups, pending⟩ := state
  obtain ⟨otherPosition, otherDraft, otherGroups, otherPending⟩ := other
  obtain ⟨read, alike⟩ := alike
  simp only at read alike inItem
  rcases pending_unplaced_eq alike with rfl | ⟨classes, same, rfl, rfl, classesAlike⟩
  · cases pending with
    | nothing | parenthesis | question => exact inItem.elim
    | escape escape =>
        cases reads : escape.step c with
        | reading further =>
            simp only [State.stepPending, reads] at taken ⊢
            cases taken
            exact ⟨_, rfl, Or.inr ⟨⟨read, rfl⟩, trivial⟩⟩
        | complete operand =>
            simp only [State.stepPending, reads] at taken ⊢
            cases taken
            exact ⟨_, rfl, Or.inl ⟨seam.push _ read, rfl⟩⟩
        | unknown => simp [State.stepPending, reads] at taken
    | brackets classes => exact seam.stepPending_brackets read rfl rfl rfl taken
  · exact seam.stepPending_brackets read rfl rfl classesAlike taken

/-- Counting a character makes no difference to what the runs have in common. -/
theorem step_of_stepPending
    (follows : ∀ middle, state.stepPending c = .ok middle →
      ∃ after, other.stepPending c = .ok after ∧ Past before behind middle after)
    (taken : state.step c = .ok next) :
    ∃ after, other.step c = .ok after ∧ Past before behind next after := by
  unfold State.step at taken ⊢
  cases reads : state.stepPending c with
  | error error =>
      rw [reads] at taken
      cases taken
  | ok middle =>
      rw [reads] at taken
      cases taken
      obtain ⟨after, readsOther, past⟩ := follows middle reads
      rw [readsOther]
      refine ⟨_, rfl, ?_⟩
      rcases past with ⟨read, pending⟩ | ⟨⟨read, pending⟩, inItem⟩
      · exact Or.inl ⟨read, pending⟩
      · exact Or.inr ⟨⟨read, pending⟩, inItem⟩

end Seam

namespace Lockstep

open State

variable {related : Draft → List OpenGroup → Draft → List OpenGroup → Prop}
  {state other next : State} {c : Char}

theorem alike_of_past (past : Past related related state other) : Alike related state other :=
  past.elim id And.left

private theorem stepPlain (lockstep : Lockstep related) {draft otherDraft : Draft}
    {groups otherGroups : List OpenGroup} {position otherPosition : Nat}
    (read : related draft groups otherDraft otherGroups)
    (taken : (⟨position, draft, groups, .nothing⟩ : State).stepPlain c = .ok next) :
    ∃ after, (⟨otherPosition, otherDraft, otherGroups, .nothing⟩ : State).stepPlain c = .ok after ∧
      Alike related next after := by
  cases symbol : Repetition.ofSymbol? c with
  | none =>
      exact (lockstep.seam.stepPlain read symbol taken).imp fun after => And.imp_right alike_of_past
  | some operator =>
      rw [stepPlain_of_operator symbol, repeatLast] at taken ⊢
      split at taken
      · cases taken
      · next applied =>
          cases taken
          obtain ⟨after, appliedOther, read⟩ := lockstep.repeatLast? read applied
          simp only [appliedOther]
          exact ⟨_, rfl, read, rfl⟩

private theorem stepPending (lockstep : Lockstep related) (alike : Alike related state other)
    (taken : state.stepPending c = .ok next) :
    ∃ after, other.stepPending c = .ok after ∧ Alike related next after := by
  have inItem : state.pending.InItem →
      ∃ after, other.stepPending c = .ok after ∧ Alike related next after := fun inItem =>
    (lockstep.seam.stepPending alike inItem taken).imp fun after => And.imp_right alike_of_past
  obtain ⟨position, draft, groups, pending⟩ := state
  obtain ⟨otherPosition, otherDraft, otherGroups, otherPending⟩ := other
  obtain ⟨read, alike⟩ := alike
  simp only at read alike
  rcases pending_unplaced_eq alike with rfl | ⟨classes, same, rfl, rfl, classesAlike⟩
  · cases pending with
    | nothing => exact lockstep.stepPlain read taken
    | parenthesis =>
        by_cases question : c = '?'
        · subst question
          cases taken
          exact ⟨_, rfl, ⟨read, rfl⟩⟩
        · rw [stepPending_of_idle (Or.inr rfl) question] at taken ⊢
          exact lockstep.stepPlain read taken
    | question =>
        cases groups with
        | nil => cases taken
        | cons group outer =>
            obtain ⟨same, otherOuter, rfl, uncaptured, _⟩ := lockstep.innermost read
            by_cases colon : c = ':'
            · subst colon
              cases taken
              exact ⟨_, rfl, ⟨uncaptured, rfl⟩⟩
            · simp [State.stepPending, colon] at taken
    | escape escape => exact inItem trivial
    | brackets classes => exact inItem trivial
  · exact inItem trivial

theorem step (lockstep : Lockstep related) (alike : Alike related state other)
    (taken : state.step c = .ok next) :
    ∃ after, other.step c = .ok after ∧ Alike related next after :=
  have follows : ∀ middle, state.stepPending c = .ok middle →
      ∃ after, other.stepPending c = .ok after ∧ Past related related middle after :=
    fun _ reads => (lockstep.stepPending alike reads).imp fun _ => And.imp_right Or.inl
  (Seam.step_of_stepPending follows taken).imp fun _ => And.imp_right alike_of_past

/-- The second run can follow the first one. -/
theorem run (lockstep : Lockstep related) {last : State} {text : Text}
    (alike : Alike related state other) (ran : state.run text = .ok last) :
    ∃ after, other.run text = .ok after ∧ Alike related last after := by
  induction text generalizing state other with
  | nil =>
      cases ran
      exact ⟨other, rfl, alike⟩
  | cons c rest ih =>
      obtain ⟨middle, taken, ranRest⟩ := run_cons_eq_ok.mp ran
      obtain ⟨further, takenOther, alike⟩ := lockstep.step alike taken
      rw [run_cons_of_step takenOther]
      exact ih alike ranRest

end Lockstep

namespace Seam

open State

variable {before behind : Draft → List OpenGroup → Draft → List OpenGroup → Prop}
  {state other last : State} {text : Text}

private theorem run_of_past (seam : Seam before behind) (lockstep : Lockstep behind)
    (past : Past before behind state other) (ran : state.run text = .ok last) :
    ∃ after, other.run text = .ok after ∧ Past before behind last after := by
  induction text generalizing state other with
  | nil =>
      cases ran
      exact ⟨other, rfl, past⟩
  | cons c rest ih =>
      rcases past with alike | ⟨alike, inItem⟩
      · obtain ⟨after, ranOther, alike⟩ := lockstep.run alike ran
        exact ⟨after, ranOther, Or.inl alike⟩
      · obtain ⟨middle, taken, ranRest⟩ := run_cons_eq_ok.mp ran
        obtain ⟨further, takenOther, past⟩ :=
          step_of_stepPending (fun _ => seam.stepPending alike inItem) taken
        rw [run_cons_of_step takenOther]
        exact ih past ranRest

/-- The second run can follow the first one behind the seam, unless an operator stands
there. -/
theorem run_cons (seam : Seam before behind) (lockstep : Lockstep behind) {c : Char}
    (notOperator : Repetition.ofSymbol? c = none) (idle : state.Idle) (otherIdle : other.Idle)
    (read : before state.draft state.groups other.draft other.groups)
    (ran : state.run (c :: text) = .ok last) :
    ∃ after, other.run (c :: text) = .ok after ∧ Past before behind last after := by
  have notQuestion : c ≠ '?' := by
    rintro rfl
    cases notOperator
  obtain ⟨middle, taken, ranRest⟩ := run_cons_eq_ok.mp ran
  have follows : ∀ middle, state.stepPending c = .ok middle →
      ∃ after, other.stepPending c = .ok after ∧ Past before behind middle after := by
    intro middle taken
    rw [stepPending_of_idle idle notQuestion] at taken
    rw [stepPending_of_idle otherIdle notQuestion]
    exact seam.stepPlain read notOperator taken
  obtain ⟨further, takenOther, past⟩ := step_of_stepPending follows taken
  rw [run_cons_of_step takenOther]
  exact seam.run_of_past lockstep past ranRest

end Seam

end ShellGlob.Regex
