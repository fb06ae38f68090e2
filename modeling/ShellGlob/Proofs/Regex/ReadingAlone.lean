import ShellGlob.Regex.Parser.Source
import ShellGlob.Proofs.Regex.Lockstep

/-!
# Reading a part on its own

A text that reads as a regular expression on its own reads the same as a part of
a larger one (`reads_of_parse`), unless it has branches, which would take in what
stands around it.

Reading it there follows reading it alone: the open groups lie on top of those
that were open before (`Atop`), and every character keeps it so (`Atop.lockstep`).
-/

namespace ShellGlob.Regex

/-- The second draft and its groups are the first ones on top of a base: what the
base holds stands before the outermost items.  Once the outermost part has
branches, the items of the base are at the front of the first of them. -/
inductive Atop (base : State) :
    Draft → List OpenGroup → Draft → List OpenGroup → Prop where
  | items (items : List Regex) :
      Atop base ⟨[], items⟩ [] ⟨base.draft.branches, items ++ base.draft.items⟩ base.groups
  | branches (branches first items : List Regex) :
      Atop base ⟨branches ++ [ofItems first], items⟩ []
        ⟨branches ++ ofItems (base.draft.items.reverse ++ first) :: base.draft.branches, items⟩
        base.groups
  | inside (draft : Draft) (start other : Nat) (capturing : Bool)
      {outside otherOutside : Draft} {outer otherOuter : List OpenGroup} :
      Atop base outside outer otherOutside otherOuter →
      Atop base draft (⟨start, capturing, outside⟩ :: outer)
        draft (⟨other, capturing, otherOutside⟩ :: otherOuter)

namespace Atop

variable {base : State} {draft other : Draft} {groups otherGroups : List OpenGroup}

theorem push (atop : Atop base draft groups other otherGroups) (item : Regex) :
    Atop base (draft.push item) groups (other.push item) otherGroups := by
  cases atop with
  | items items => exact .items (item :: items)
  | branches branches first items => exact .branches branches first (item :: items)
  | inside draft start other capturing atop =>
      exact .inside (draft.push item) start other capturing atop

theorem split (atop : Atop base draft groups other otherGroups) :
    Atop base draft.split groups other.split otherGroups := by
  cases atop with
  | items items =>
      have divided := @Atop.branches base [] items.reverse []
      rwa [← List.reverse_append] at divided
  | branches branches first items =>
      exact .branches (ofItems items.reverse :: branches) first []
  | inside draft start other capturing atop =>
      exact .inside draft.split start other capturing atop

theorem repeatLast? (atop : Atop base draft groups other otherGroups)
    {operator : Repetition} {next : Draft}
    (applied : draft.repeatLast? operator = some next) :
    ∃ after, other.repeatLast? operator = some after ∧
      Atop base next groups after otherGroups := by
  obtain ⟨branches, items⟩ := draft
  cases items with
  | nil => cases operator <;> cases applied
  | cons item rest =>
      rw [Draft.repeatLast?_cons] at applied
      cases applied
      cases atop with
      | items =>
          exact ⟨_, Draft.repeatLast?_cons _ _ _ _, .items (repeatItem operator item :: rest)⟩
      | branches branches first =>
          exact ⟨_, Draft.repeatLast?_cons _ _ _ _,
            .branches branches first (repeatItem operator item :: rest)⟩
      | inside _ start other capturing atop =>
          exact ⟨_, Draft.repeatLast?_cons _ _ _ _, .inside _ start other capturing atop⟩

/-- On its own the text can close nothing of the base. -/
theorem lockstep (base : State) : Lockstep (Atop base) where
  push item atop := atop.push item
  split atop := atop.split
  repeatLast? atop applied := atop.repeatLast? applied
  opens start otherStart atop := .inside {} start otherStart true atop
  innermost atop := by
    cases atop with
    | inside _ start other capturing atop =>
        exact ⟨_, _, rfl, .inside _ start other false atop, atop.push _⟩

end Atop

private theorem State.step_settled {state : State} (idle : state.Idle) {c : Char}
    (notQuestion : c ≠ '?') :
    state.step c = { state with pending := .nothing }.step c := by
  unfold State.step
  rw [State.stepPending_of_idle idle notQuestion]
  rfl

/-- The text is read from the start, with nothing left open behind it. -/
structure State.Closes (text : Text) (last : State) : Prop where
  ran : State.run {} text = .ok last
  idle : last.Idle
  groups : last.groups = []

/-- A text that closes what it opens is read on top of any state. -/
theorem State.Closes.atop {text : Text} {last state : State} (closes : Closes text last)
    (idle : state.Idle) :
    ∃ after, state.run text = .ok after ∧ after.Idle ∧
      Atop state last.draft [] after.draft after.groups := by
  cases text with
  | nil =>
      cases closes.ran
      exact ⟨state, rfl, idle, .items []⟩
  | cons c rest =>
      have notQuestion : c ≠ '?' := by
        rintro rfl
        obtain ⟨middle, taken, _⟩ := State.run_cons_eq_ok.mp closes.ran
        cases taken
      have start : State.Alike (Atop state) {} { state with pending := .nothing } :=
        ⟨.items [], rfl⟩
      obtain ⟨after, ranOver, onTop⟩ := (Atop.lockstep state).run start closes.ran
      have atop := onTop.read
      rw [closes.groups] at atop
      refine ⟨after, ?_, ?_, atop⟩
      · rw [← ranOver, State.run, State.run, List.foldlM_cons, List.foldlM_cons,
          State.step_settled idle notQuestion]
      · rcases State.pending_unplaced_eq onTop.pending with same | ⟨classes, _, pending, _, _⟩
        · exact closes.idle.imp same.symm.trans same.symm.trans
        · rcases closes.idle with nothing | parenthesis
          · cases pending.symm.trans nothing
          · cases pending.symm.trans parenthesis

/-- A text that is read from the start into items is read as these items wherever
it stands. -/
theorem reads_of_closes {text : Text} {last : State} (closes : State.Closes text last)
    (undivided : last.draft.branches = []) : Reads text last.draft.items.reverse := by
  intro state idle
  obtain ⟨after, ran, afterIdle, atop⟩ := closes.atop idle
  refine ⟨after, ran, afterIdle, ?_⟩
  obtain ⟨position, ⟨branches, items⟩, groups, pending⟩ := last
  obtain ⟨afterPosition, afterDraft, afterGroups, afterPending⟩ := after
  simp only at undivided atop
  cases atop with
  | items items => simp [Draft.extend]
  | branches branches first => exact absurd undivided (by simp)

/-- Branches are read as these branches in any group. -/
theorem readsBranches_of_closes {text : Text} {last : State}
    (closes : State.Closes text last) :
    ReadsBranches text last.draft.split.branches.reverse := by
  intro state idle empty
  obtain ⟨after, ran, afterIdle, atop⟩ := closes.atop idle
  refine ⟨after, ran, afterIdle, ?_⟩
  obtain ⟨position, ⟨branches, items⟩, groups, pending⟩ := last
  obtain ⟨afterPosition, afterDraft, afterGroups, afterPending⟩ := after
  simp only at atop
  cases atop with
  | items items => simp [Draft.split, empty]
  | branches branches first items => simp [Draft.split, empty]

theorem State.closed_of_finish {state : State} {regex : Regex} (fresh : state.Fresh)
    (finished : state.finish = .ok regex) :
    state.pending = .nothing ∧ state.groups = [] ∧ state.draft.regex = regex := by
  obtain ⟨position, draft, groups, pending⟩ := state
  cases groups with
  | cons innermost outer => cases pending <;> cases finished
  | nil =>
      cases pending with
      | nothing =>
          cases finished
          exact ⟨rfl, rfl, rfl⟩
      | parenthesis | question =>
          obtain ⟨_, _, _, _, opened⟩ := fresh
          cases opened
      | escape escape => cases finished
      | brackets classes => cases finished

/-- What is parsed has been read to its end, with nothing left open. -/
theorem exists_run_of_parse {text : Text} {regex : Regex} (parsed : parse text = .ok regex) :
    ∃ last, State.run {} text = .ok last ∧
      last.pending = .nothing ∧ last.groups = [] ∧ last.draft.regex = regex := by
  unfold parse at parsed
  cases ran : State.run {} text with
  | error error =>
      rw [ran] at parsed
      cases parsed
  | ok last =>
      rw [ran] at parsed
      obtain ⟨fresh, -⟩ := State.fresh_and_source_of_run (by trivial) ran
      exact ⟨last, rfl, State.closed_of_finish fresh parsed⟩

private theorem Draft.regex_of_branches_ne_nil {draft : Draft} (divided : draft.branches ≠ []) :
    ∃ first rest, draft.regex = .alternate first rest := by
  obtain ⟨branches, items⟩ := draft
  obtain ⟨first, others, written⟩ :
      ∃ first others, branches.reverse = first :: others :=
    List.exists_cons_of_ne_nil (by simpa using divided)
  obtain ⟨next, more, rest⟩ : ∃ next more, others ++ [ofItems items.reverse] = next :: more :=
    List.exists_cons_of_ne_nil (by simp)
  refine ⟨first, ofBranches (next :: more), ?_⟩
  simp [Draft.regex, Draft.split, written, rest, ofBranches]

theorem Draft.regex_of_branches_eq_nil {draft : Draft} (undivided : draft.branches = []) :
    draft.regex = ofItems draft.items.reverse := by
  simp [Draft.regex, Draft.split, undivided, ofBranches]

/-- A regular expression without branches is read as its items wherever it
stands. -/
theorem reads_of_parse {text : Text} {regex : Regex} (read : parse text = .ok regex)
    (undivided : ∀ first rest, regex ≠ .alternate first rest) :
    ∃ items, Reads text items ∧ ofItems items = regex := by
  obtain ⟨last, ran, settled, closed, whole⟩ := exists_run_of_parse read
  have alone : last.draft.branches = [] := by
    by_cases empty : last.draft.branches = []
    · exact empty
    · obtain ⟨first, rest, divided⟩ := Draft.regex_of_branches_ne_nil empty
      exact absurd (whole.symm.trans divided) (undivided first rest)
  refine ⟨last.draft.items.reverse, reads_of_closes ⟨ran, Or.inl settled, closed⟩ alone, ?_⟩
  rw [← whole, Draft.regex_of_branches_eq_nil alone]

theorem reads_of_parse_atom {text : Text} {value : Atom}
    (read : parse text = .ok (.atom value)) : Reads text [.atom value] := by
  obtain ⟨items, reads, whole⟩ := reads_of_parse read (fun _ _ same => by cases same)
  match items, whole with
  | [item], whole =>
      cases whole
      exact reads

end ShellGlob.Regex
