import ShellGlob.Regex.Parser

/-!
# Reading a regular expression in parts

Some texts mean the same wherever they stand in a regular expression: they
close the groups they open, and no operator of theirs reaches back before them.
`ReadsAs` says so of a text that is one item, `Reads` of items in a row, and
`ReadsBranches` of the branches of a group.  The lemmas put such texts together
like the texts of a regular expression are put together, so a text is read once
and for all.
-/

namespace ShellGlob.Regex

namespace State

theorem run_cons_of_step {state middle : State} {c : Char}
    (taken : state.step c = .ok middle) (rest : Text) :
    state.run (c :: rest) = middle.run rest := by
  rw [run, List.foldlM_cons, taken]
  rfl

theorem run_append_of_run {state middle : State} {front : Text}
    (ran : state.run front = .ok middle) (rest : Text) :
    state.run (front ++ rest) = middle.run rest := by
  rw [run_append, ran]
  rfl

theorem run_append_eq_ok {state last : State} {front rest : Text} :
    state.run (front ++ rest) = .ok last ↔
      ∃ middle, state.run front = .ok middle ∧ middle.run rest = .ok last := by
  rw [run_append]
  cases state.run front with
  | error error => simp [bind, Except.bind]
  | ok middle => simp [bind, Except.bind]

theorem run_cons_eq_ok {state last : State} {c : Char} {rest : Text} :
    state.run (c :: rest) = .ok last ↔
      ∃ middle, state.step c = .ok middle ∧ middle.run rest = .ok last := by
  rw [run, List.foldlM_cons]
  cases state.step c with
  | error error => simp [bind, Except.bind]
  | ok middle => simp [bind, Except.bind, run]

/-- Nothing has been begun that the next character has to complete. -/
def Idle (state : State) : Prop :=
  state.pending = .nothing ∨ state.pending = .parenthesis

theorem stepPending_of_idle {state : State} (idle : state.Idle) {c : Char}
    (notQuestion : c ≠ '?') :
    state.stepPending c = { state with pending := .nothing }.stepPlain c := by
  obtain ⟨position, draft, groups, pending⟩ := state
  rcases idle with nothing | parenthesis
  · simp only at nothing
    subst nothing
    rfl
  · simp only at parenthesis
    subst parenthesis
    simp [stepPending, notQuestion]

theorem step_of_idle {state next : State} (idle : state.Idle) {c : Char}
    (notQuestion : c ≠ '?')
    (taken : { state with pending := .nothing }.stepPlain c = .ok next) :
    state.step c = .ok { next with position := state.position + 1 } := by
  rw [step, stepPending_of_idle idle notQuestion, taken]
  rfl

/-- The run ends behind a complete item, with the given draft and groups. -/
def Arrives (state : State) (text : Text) (draft : Draft)
    (groups : List OpenGroup) : Prop :=
  ∃ position, state.run text = .ok ⟨position, draft, groups, .nothing⟩

end State

def Draft.extend (draft : Draft) (items : List Regex) : Draft :=
  { draft with items := items.reverse ++ draft.items }

theorem Draft.extend_extend (draft : Draft) (items more : List Regex) :
    (draft.extend items).extend more = draft.extend (items ++ more) := by
  simp [extend]

/-- Wherever an item may start, the text is read as the item. -/
def ReadsAs (text : Text) (item : Regex) : Prop :=
  ∀ state : State, state.Idle →
    state.Arrives text (state.draft.push item) state.groups

/-- Wherever an item may start, the text is read as the items in a row. -/
def Reads (text : Text) (items : List Regex) : Prop :=
  ∀ state : State, state.Idle →
    ∃ next, state.run text = .ok next ∧ next.Idle ∧
      next.draft = state.draft.extend items ∧ next.groups = state.groups

/-- Wherever a branch may start, the text is read as the branches, the last of
which may still go on. -/
def ReadsBranches (text : Text) (branches : List Regex) : Prop :=
  ∀ state : State, state.Idle → state.draft.items = [] →
    ∃ next, state.run text = .ok next ∧ next.Idle ∧
      next.draft.split = ⟨branches.reverse ++ state.draft.branches, []⟩ ∧
      next.groups = state.groups

theorem Reads.nil : Reads [] [] := by
  intro state idle
  exact ⟨state, rfl, idle, rfl, rfl⟩

theorem Reads.append {front rest : Text} {frontItems restItems : List Regex}
    (readsFront : Reads front frontItems) (readsRest : Reads rest restItems) :
    Reads (front ++ rest) (frontItems ++ restItems) := by
  intro state idle
  obtain ⟨middle, ranFront, middleIdle, middleDraft, middleGroups⟩ :=
    readsFront state idle
  obtain ⟨next, ranRest, nextIdle, nextDraft, nextGroups⟩ :=
    readsRest middle middleIdle
  refine ⟨next, ?_, nextIdle, ?_, nextGroups.trans middleGroups⟩
  · rw [State.run_append_of_run ranFront, ranRest]
  · rw [nextDraft, middleDraft, Draft.extend_extend]

theorem ReadsAs.reads {text : Text} {item : Regex} (readsAs : ReadsAs text item) :
    Reads text [item] := by
  intro state idle
  obtain ⟨position, ran⟩ := readsAs state idle
  exact ⟨_, ran, Or.inl rfl, rfl, rfl⟩

theorem Reads.cons {front rest : Text} {item : Regex} {items : List Regex}
    (readsFront : ReadsAs front item) (readsRest : Reads rest items) :
    Reads (front ++ rest) (item :: items) :=
  readsFront.reads.append readsRest

theorem readsAs_of_stepPlain {c : Char} {item : Regex} (notQuestion : c ≠ '?')
    (taken : ∀ state : State, state.stepPlain c = .ok (state.push item)) :
    ReadsAs [c] item := by
  intro state idle
  refine ⟨state.position + 1, ?_⟩
  rw [State.run_cons_of_step (State.step_of_idle idle notQuestion (taken _))]
  rfl

/-- The characters that do not stand for themselves. -/
def isOperator (c : Char) : Bool :=
  c ∈ ['(', ')', '|', '[', '{', '\\', '.', '^', '$', '?', '*', '+']

theorem readsAs_literal {c : Char} (plain : isOperator c = false) :
    ReadsAs [c] (.atom (.literal (.plain c))) := by
  have different : c ≠ '(' ∧ c ≠ ')' ∧ c ≠ '|' ∧ c ≠ '[' ∧ c ≠ '{' ∧ c ≠ '\\' ∧
      c ≠ '.' ∧ c ≠ '^' ∧ c ≠ '$' ∧ c ≠ '?' ∧ c ≠ '*' ∧ c ≠ '+' := by
    simpa [isOperator] using plain
  obtain ⟨_, _, _, _, _, _, _, _, _, question, star, plus⟩ := different
  apply readsAs_of_stepPlain question
  intro state
  have noOperator : Repetition.ofSymbol? c = none := by
    unfold Repetition.ofSymbol?
    split
    · exact absurd rfl question
    · exact absurd rfl star
    · exact absurd rfl plus
    · rfl
  unfold State.stepPlain
  split
  all_goals first
    | contradiction
    | rw [noOperator]

theorem readsAs_dot : ReadsAs ['.'] (.atom .dot) := by
  apply readsAs_of_stepPlain (by decide)
  intro state
  rfl

theorem readsAs_start : ReadsAs ['^'] (.assertion .start) := by
  apply readsAs_of_stepPlain (by decide)
  intro state
  rfl

theorem readsAs_stop : ReadsAs ['$'] (.assertion .stop) := by
  apply readsAs_of_stepPlain (by decide)
  intro state
  rfl

theorem readsAs_escaped {c : Char} {operand : Operand}
    (known : Operand.ofEscaped? c = some operand) (notHexadecimal : c ≠ 'x') :
    ReadsAs ['\\', c] operand.regex := by
  intro state idle
  refine ⟨state.position + 2, ?_⟩
  rw [State.run_cons_of_step
    (State.step_of_idle idle (c := '\\') (by decide) rfl)]
  refine State.run_cons_of_step ?_ []
  simp [State.step, State.stepPending, Escape.step, notHexadecimal, known,
    State.push, Except.map]

/-- Behind an item that is no repetition itself an operator applies to it. -/
theorem State.Arrives.repeated {state : State} {text : Text} {draft : Draft} {item : Regex}
    {groups : List OpenGroup} (arrives : state.Arrives text (draft.push item) groups)
    (once : ∀ operator greedy body, item ≠ .repetition operator greedy body)
    (operator : Repetition) :
    state.Arrives (text ++ [operator.symbol]) (draft.push (.repetition operator true item))
      groups := by
  obtain ⟨position, ran⟩ := arrives
  refine ⟨position + 1, ?_⟩
  rw [State.run_append_of_run ran]
  refine State.run_cons_of_step ?_ []
  have applied : (draft.push item).repeatLast? operator =
      some (draft.push (.repetition operator true item)) := by
    unfold Draft.repeatLast?
    split
    · next none => simp [Draft.push] at none
    · next lazy =>
        simp only [Draft.push, List.cons.injEq] at lazy
        exact absurd lazy.1 (once _ _ _)
    · next some =>
        simp only [Draft.push, List.cons.injEq] at some
        obtain ⟨rfl, rfl⟩ := some
        rfl
  cases operator with
  | optional | star | plus =>
      simp [State.step, State.stepPending, State.stepPlain, State.repeatLast,
        Repetition.symbol, Repetition.ofSymbol?, applied, Except.map]

theorem ReadsAs.repeated {text : Text} {item : Regex} (readsAs : ReadsAs text item)
    (once : ∀ operator greedy body, item ≠ .repetition operator greedy body)
    (operator : Repetition) :
    ReadsAs (text ++ [operator.symbol]) (.repetition operator true item) := by
  intro state idle
  exact (readsAs state idle).repeated once operator

theorem Reads.readsBranches {text : Text} {items : List Regex}
    (reads : Reads text items) : ReadsBranches text [ofItems items] := by
  intro state idle empty
  obtain ⟨next, ran, nextIdle, nextDraft, nextGroups⟩ := reads state idle
  refine ⟨next, ran, nextIdle, ?_, nextGroups⟩
  simp [nextDraft, Draft.extend, Draft.split, empty]

theorem ReadsBranches.append {front rest : Text}
    {frontBranches restBranches : List Regex}
    (readsFront : ReadsBranches front frontBranches)
    (readsRest : ReadsBranches rest restBranches) :
    ReadsBranches (front ++ '|' :: rest) (frontBranches ++ restBranches) := by
  intro state idle empty
  obtain ⟨middle, ranFront, middleIdle, middleSplit, middleGroups⟩ :=
    readsFront state idle empty
  have divided := State.step_of_idle middleIdle (c := '|') (by decide) rfl
  obtain ⟨next, ranRest, nextIdle, nextSplit, nextGroups⟩ :=
    readsRest
      { middle with
        position := middle.position + 1, draft := middle.draft.split,
        pending := .nothing }
      (Or.inl rfl) (congrArg Draft.items middleSplit)
  refine ⟨next, ?_, nextIdle, ?_, nextGroups.trans middleGroups⟩
  · rw [State.run_append_of_run ranFront, State.run_cons_of_step divided]
    exact ranRest
  · rw [nextSplit]
    simp [middleSplit]

private theorem Draft.regex_of_split {draft : Draft} {branches : List Regex}
    (divided : draft.split = ⟨branches.reverse, []⟩) :
    draft.regex = ofBranches branches := by
  rw [regex, divided, List.reverse_reverse]

theorem State.arrives_closing {state : State} {branches : List Regex}
    {innermost : OpenGroup} {outer : List OpenGroup} (idle : state.Idle)
    (divided : state.draft.split = ⟨branches.reverse ++ [], []⟩)
    (groups : state.groups = innermost :: outer) :
    state.Arrives [')']
      (innermost.outside.push (.group innermost.capturing (ofBranches branches)))
      outer := by
  have whole : state.draft.regex = ofBranches branches := by
    apply Draft.regex_of_split
    rw [divided, List.append_nil]
  have taken : { state with pending := .nothing }.stepPlain ')' =
      .ok { state with
        draft := innermost.outside.push
          (.group innermost.capturing (ofBranches branches)),
        groups := outer, pending := .nothing } := by
    simp only [State.stepPlain, State.closeGroup, groups]
    rw [whole]
  refine ⟨state.position + 1, ?_⟩
  rw [State.run_cons_of_step (State.step_of_idle idle (by decide) taken)]
  rfl

/-- Branches in parentheses are one item, which captures what it matches. -/
theorem ReadsBranches.capture {body : Text} {branches : List Regex}
    (reads : ReadsBranches body branches) :
    ReadsAs ('(' :: (body ++ [')'])) (.group true (ofBranches branches)) := by
  intro state idle
  have opened := State.step_of_idle idle (c := '(') (by decide) rfl
  obtain ⟨next, ran, nextIdle, nextSplit, nextGroups⟩ :=
    reads { state with
      position := state.position + 1, draft := {},
      groups := ⟨state.position, true, state.draft⟩ :: state.groups,
      pending := .parenthesis } (Or.inr rfl) rfl
  obtain ⟨position, closed⟩ :=
    State.arrives_closing nextIdle nextSplit nextGroups
  refine ⟨position, ?_⟩
  rw [State.run_cons_of_step opened]
  exact (State.run_append_of_run ran [')']).trans closed

theorem ReadsBranches.group {body : Text} {branches : List Regex}
    (reads : ReadsBranches body branches) :
    ReadsAs ('(' :: '?' :: ':' :: (body ++ [')'])) (.group false (ofBranches branches)) := by
  intro state idle
  have opened := State.step_of_idle idle (c := '(') (by decide) rfl
  obtain ⟨next, ran, nextIdle, nextSplit, nextGroups⟩ :=
    reads { state with
      position := state.position + 3, draft := {},
      groups := ⟨state.position, false, state.draft⟩ :: state.groups,
      pending := .nothing } (Or.inl rfl) rfl
  obtain ⟨position, closed⟩ :=
    State.arrives_closing nextIdle nextSplit nextGroups
  refine ⟨position, ?_⟩
  rw [State.run_cons_of_step opened, State.run_cons_of_step rfl,
    State.run_cons_of_step rfl]
  exact (State.run_append_of_run ran [')']).trans closed

def anchored (items : List Regex) : Regex :=
  ofItems (.assertion .start :: (items ++ [.assertion .stop]))

theorem parse_of_reads {text : Text} {items : List Regex} (reads : Reads text items) :
    parse text = .ok (ofItems items) := by
  obtain ⟨next, ran, idle, draft, groups⟩ := reads {} (Or.inl rfl)
  have whole : next.draft.regex = ofItems items := by
    simp [draft, Draft.extend, Draft.regex, Draft.split, ofBranches]
  unfold parse
  rw [ran]
  obtain ⟨position, draft, groups, pending⟩ := next
  simp only at groups whole
  subst groups
  rcases idle with nothing | parenthesis
  · simp only at nothing
    subst nothing
    simp [bind, Except.bind, State.finish, whole]
  · simp only at parenthesis
    subst parenthesis
    simp [bind, Except.bind, State.finish, whole]

theorem parse_anchored {text : Text} {items : List Regex} (reads : Reads text items) :
    parse ('^' :: (text ++ ['$'])) = .ok (anchored items) :=
  parse_of_reads (Reads.cons readsAs_start (reads.append readsAs_stop.reads))

end ShellGlob.Regex
