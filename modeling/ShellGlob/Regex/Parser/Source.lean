import ShellGlob.Regex.Parser.Steps

/-!
# Reading loses no text

Each state of reading has a text, and reading a character appends it to that
text, inside of classes (`Brackets.source_of_steps`) and outside of them
(`State.source_of_pendingStep`).  A regular expression therefore prints as
exactly the text that it was read from (`source_of_parse`).  Nothing is claimed
about texts that are refused.
-/

namespace ShellGlob.Regex

private theorem ClassSet.source_ofMembers (members : List ClassSet) :
    (ClassSet.ofMembers members).source = members.flatMap ClassSet.source := by
  induction members with
  | nil => rfl
  | cons member rest ih =>
      cases rest with
      | nil => simp [ClassSet.ofMembers]
      | cons next rest => simp [ClassSet.ofMembers, ClassSet.source, ih]

private theorem ClassSet.source_of_plainText? {set : ClassSet} {text : Text}
    (plain : set.plainText? = some text) : set.source = text := by
  fun_induction ClassSet.plainText? set generalizing text with
  | case1 => cases plain; rfl
  | case2 c => cases plain; rfl
  | case3 c rest ih =>
      obtain ⟨more, found, rfl⟩ := Option.map_eq_some_iff.mp plain
      simp [ClassSet.source, Literal.source, ih found]
  | case4 => cases plain

private theorem NamedClass.inside_of_ofInside? {inside : Text} {negated : Bool} {named : NamedClass}
    (found : NamedClass.ofInside? inside = some (negated, named)) :
    named.inside negated = inside := by
  unfold NamedClass.ofInside? at found
  split at found
  · next plain =>
      cases found
      simpa using List.find?_some plain
  · next complemented =>
      cases found
      simpa using List.find?_some complemented
  · cases found

/-- A class within a class keeps its text, whatever it is taken for. -/
theorem ClassSet.source_nested (negated : Bool) (members : ClassSet) :
    (ClassSet.nested negated members).source = (ClassSet.bracket negated members).source := by
  unfold ClassSet.nested
  split
  · next complemented named found =>
      obtain ⟨text, plain, inside⟩ := Option.bind_eq_some_iff.mp found
      simp [ClassSet.source, ClassSet.opening, NamedClass.inside_of_ofInside? inside,
        ClassSet.source_of_plainText? plain]
  · rfl

theorem source_ofItems (items : List Regex) :
    (ofItems items).source = items.flatMap Regex.source := by
  induction items with
  | nil => rfl
  | cons item rest ih =>
      cases rest with
      | nil => simp [ofItems]
      | cons next rest => simp [ofItems, Regex.source, ih]

private theorem source_ofBranches (branches : List Regex) (last : Regex) :
    (ofBranches (branches ++ [last])).source =
      branches.flatMap (fun branch => branch.source ++ ['|']) ++ last.source := by
  induction branches with
  | nil => rfl
  | cons branch rest ih =>
      cases rest with
      | nil => simp [ofBranches, Regex.source]
      | cons next rest =>
          rw [List.cons_append, List.cons_append, ofBranches, Regex.source, ← List.cons_append, ih]
          · simp
          · simp

/-- The text of what has been read of a group. -/
def Draft.source (draft : Draft) : Text :=
  draft.branches.reverse.flatMap (fun branch => branch.source ++ ['|'])
    ++ draft.items.reverse.flatMap Regex.source

@[simp] theorem Draft.source_push (draft : Draft) (item : Regex) :
    (draft.push item).source = draft.source ++ item.source := by
  simp [Draft.source, Draft.push]

@[simp] theorem Draft.source_split (draft : Draft) :
    draft.split.source = draft.source ++ ['|'] := by
  simp [Draft.source, Draft.split, source_ofItems]

@[simp] theorem Draft.source_regex (draft : Draft) : draft.regex.source = draft.source := by
  simp [Draft.regex, Draft.split, Draft.source, source_ofBranches, source_ofItems]

private theorem Draft.source_of_repeatLast? {draft next : Draft} {operator : Repetition}
    (applied : draft.repeatLast? operator = some next) :
    next.source = draft.source ++ [operator.symbol] := by
  obtain ⟨branches, items⟩ := draft
  unfold Draft.repeatLast? at applied
  split at applied
  · cases applied
  · next same =>
      cases applied
      simp only at same
      subst same
      simp [Draft.source, Regex.source, Repetition.symbol]
  · next same =>
      cases applied
      simp only at same
      subst same
      simp [Draft.source, Regex.source]

/-- The text up to and with the opening of a group. -/
def OpenGroup.source (openGroup : OpenGroup) : Text :=
  openGroup.outside.source ++ '(' :: (if openGroup.capturing then [] else ['?', ':'])

/-- The text of a class that is open, up to its last complete member. -/
def Bracket.source (bracket : Bracket) : Text :=
  ClassSet.opening bracket.negated
    ++ (match bracket.left with
      | none => []
      | some (operator, left) => left.source ++ [operator.symbol, operator.symbol])
    ++ bracket.members.reverse.flatMap ClassSet.source

/-- The text of the member that is being read. -/
def Stage.source : Stage → Text
  | .opened | .complemented | .dashes | .ready => []
  | .operand first => first.source
  | .dash first => first.source ++ ['-']
  | .symbol operator => [operator.symbol]
  | .escape none reading => reading.source
  | .escape (some first) reading => first.source ++ '-' :: reading.source

/-- The text of the open classes. -/
def Brackets.source (brackets : Brackets) : Text :=
  brackets.outer.reverse.flatMap Bracket.source ++ brackets.current.source ++ brackets.stage.source

/-- A class of which only the `[` has been read is empty. -/
def Brackets.Fresh (brackets : Brackets) : Prop :=
  brackets.stage = .opened → brackets.current = { start := brackets.current.start }

private theorem Operand.source_of_ofEscaped? {c : Char} {operand : Operand}
    (read : Operand.ofEscaped? c = some operand) : operand.source = ['\\', c] := by
  unfold Operand.ofEscaped? at read
  split at read
  · split at read
    · cases read
    · cases read
      rfl
  · split at read
    all_goals try (cases read; rfl)
    obtain ⟨shorthand, found, rfl⟩ := Option.map_eq_some_iff.mp read
    rw [← Shorthand.ofLetter?_eq_some_iff.mp found]
    rfl

theorem Escape.source_of_step_eq_reading {escape next : Escape} {c : Char}
    (read : escape.step c = .reading next) : next.source = escape.source ++ [c] := by
  unfold Escape.step at read
  split at read
  · split at read
    · next isHex =>
        cases read
        rw [isHex]
        rfl
    · split at read <;> cases read
  · split at read <;> cases read
    rfl
  · split at read <;> cases read

theorem Escape.source_of_step_eq_complete {escape : Escape} {operand : Operand} {c : Char}
    (read : escape.step c = .complete operand) : operand.source = escape.source ++ [c] := by
  unfold Escape.step at read
  split at read
  · split at read
    · cases read
    · split at read
      · next found =>
          cases read
          exact Operand.source_of_ofEscaped? found
      · cases read
  · split at read <;> cases read
  · split at read <;> cases read
    rfl

theorem Bracket.source_add (bracket : Bracket) (member : ClassSet) :
    (bracket.add member).source = bracket.source ++ member.source := by
  simp [Bracket.add, Bracket.source]

private theorem Bracket.source_addLeading (bracket : Bracket) (c : Char) :
    (bracket.addLeading c).source = bracket.source ++ [c] := by
  simp [Bracket.addLeading, Bracket.add, Bracket.source, ClassSet.source, Literal.source]

theorem Bracket.opening_append_contents (bracket : Bracket) :
    ClassSet.opening bracket.negated ++ bracket.contents.source = bracket.source := by
  unfold Bracket.contents Bracket.source
  cases bracket.left with
  | none => simp [ClassSet.source_ofMembers]
  | some side => simp [ClassSet.source, ClassSet.source_ofMembers]

private theorem Bracket.source_operate (bracket : Bracket) (operator : SetOperator) :
    (bracket.operate operator).source = bracket.source ++ [operator.symbol, operator.symbol] := by
  rw [← bracket.opening_append_contents]
  simp [Bracket.operate, Bracket.source]

/-- The text behind the outcome of reading a character of a class. -/
def Brackets.Progress.source : Brackets.Progress → Text
  | .reading brackets => brackets.source
  | .complete negated members => (ClassSet.bracket negated members).source

theorem Brackets.source_close (current : Bracket) (outer : List Bracket) :
    (Brackets.close current outer).source =
      outer.reverse.flatMap Bracket.source ++ current.source ++ [']'] := by
  cases outer with
  | nil =>
      simp [Brackets.close, Brackets.Progress.source, ClassSet.source,
        ← Bracket.opening_append_contents current]
  | cons next outer =>
      simp [Brackets.close, Brackets.Progress.source, Brackets.source, Stage.source,
        Bracket.source_add, ClassSet.source_nested, ClassSet.source,
        ← Bracket.opening_append_contents current]

private theorem Brackets.source_of_commit {stop : Nat} {current next : Bracket} {operand : Operand}
    (taken : Brackets.commit stop current operand = .ok next) :
    next.source = current.source ++ operand.source := by
  cases operand <;> cases taken <;> exact Bracket.source_add _ _

private theorem Brackets.source_of_range {stop : Nat} {first last : Operand} {set : ClassSet}
    (taken : Brackets.range stop first last = .ok set) :
    set.source = first.source ++ '-' :: last.source := by
  unfold Brackets.range at taken
  split at taken
  · simp only at taken
    split at taken <;> cases taken
    rfl
  · cases taken
  · cases taken

/-- The outcome of reading a character of a class leaves no class in disorder. -/
def Brackets.Progress.Fresh : Brackets.Progress → Prop
  | .reading brackets => brackets.Fresh
  | .complete _ _ => True

namespace Brackets

variable {position : Nat} {current : Bracket} {outer : List Bracket} {brackets : Brackets}
  {c : Char} {progress : Progress}

theorem fresh_close (current : Bracket) (outer : List Bracket) : (close current outer).Fresh := by
  cases outer with
  | nil => trivial
  | cons next outer => exact fun opened => nomatch opened

private theorem fresh_of_readyStep (ready : ReadyStep position current outer c progress) :
    progress.Fresh := by
  cases ready with
  | closes => exact fresh_close current outer
  | opens => exact fun _ => rfl
  | escapes | symbol | operand => exact fun opened => nomatch opened

private theorem fresh_of_steps (steps : Steps position brackets c progress) : progress.Fresh := by
  induction steps with
  | begins _ ready | commits _ ready => exact fresh_of_readyStep ready
  | closesBehindDash => exact fresh_close _ _
  | symbol _ ih => exact ih
  | _ => exact fun opened => nomatch opened

private theorem source_of_readyStep (ready : ReadyStep position current outer c progress) :
    progress.source = outer.reverse.flatMap Bracket.source ++ current.source ++ [c] := by
  cases ready with
  | closes => exact source_close current outer
  | opens => simp [Progress.source, Brackets.source, Stage.source, Bracket.source, ClassSet.opening]
  | escapes => simp [Progress.source, Brackets.source, Stage.source, Escape.source]
  | symbol operator => simp [Progress.source, Brackets.source, Stage.source]
  | operand =>
      simp [Progress.source, Brackets.source, Stage.source, Operand.source, Literal.source]

private theorem source_of_front {stage : Stage}
    (front : stage ∈ [Stage.opened, .complemented, .dashes, .ready]) : stage.source = [] := by
  simp only [List.mem_cons, List.not_mem_nil, or_false] at front
  rcases front with rfl | rfl | rfl | rfl
  all_goals rfl

private theorem source_addLeading {stage later : Stage} (front : stage.source = [])
    (laterFront : later.source = []) :
    (Progress.reading ⟨current.addLeading c, outer, later⟩).source =
      (Brackets.mk current outer stage).source ++ [c] := by
  simp [Progress.source, Brackets.source, Bracket.source_addLeading, front, laterFront]

theorem source_of_steps (fresh : brackets.Fresh) (steps : Steps position brackets c progress) :
    progress.source = brackets.source ++ [c] := by
  induction steps with
  | @complements current outer =>
      have empty : current = { start := current.start } := fresh rfl
      rw [empty]
      simp [Progress.source, Brackets.source, Stage.source, Bracket.source, ClassSet.opening]
  | leadingDash front =>
      exact source_addLeading (source_of_front (List.mem_append_left [Stage.ready] front)) rfl
  | leadingBracket front =>
      exact source_addLeading
        (source_of_front (List.mem_append_left [Stage.dashes, .ready] front)) rfl
  | begins front ready =>
      simp [source_of_readyStep ready, Brackets.source, source_of_front front]
  | dash => simp [Progress.source, Brackets.source, Stage.source]
  | commits committed ready =>
      simp [source_of_readyStep ready, Brackets.source, Stage.source, source_of_commit committed]
  | closesBehindDash committed =>
      simp [source_close, Brackets.source, Stage.source, Bracket.source_add, ClassSet.source,
        Literal.source, source_of_commit committed]
  | subtracts committed =>
      simp [Progress.source, Brackets.source, Stage.source, Bracket.source_operate,
        SetOperator.symbol, source_of_commit committed]
  | escapesBehindDash => simp [Progress.source, Brackets.source, Stage.source, Escape.source]
  | endsRange _ ranged =>
      simp [Progress.source, Brackets.source, Stage.source, Bracket.source_add,
        source_of_range ranged, Operand.source, Literal.source]
  | operates => simp [Progress.source, Brackets.source, Stage.source, Bracket.source_operate]
  | symbol _ ih => exact ih fun opened => nomatch opened
  | @escape _ _ first _ _ _ read =>
      cases first with
      | none | some =>
          simp [Progress.source, Brackets.source, Stage.source,
            Escape.source_of_step_eq_reading read]
  | escaped read =>
      simp [Progress.source, Brackets.source, Stage.source, Escape.source_of_step_eq_complete read]
  | endsEscapedRange read ranged =>
      simp [Progress.source, Brackets.source, Stage.source, Bracket.source_add,
        source_of_range ranged, Escape.source_of_step_eq_complete read]

end Brackets

/-- The text of what the last characters have begun. -/
def Pending.source : Pending → Text
  | .nothing | .parenthesis => []
  | .question => ['?']
  | .escape reading => reading.source
  | .brackets classes => classes.source

namespace State

/-- The text that has been read. -/
def source (state : State) : Text :=
  state.groups.reverse.flatMap OpenGroup.source ++ state.draft.source ++ state.pending.source

/-- Behind the `(` or `(?` of a group the group is still empty, and it is not
known yet whether it captures. -/
def Fresh (state : State) : Prop :=
  match state.pending with
  | .parenthesis | .question =>
      state.draft = {} ∧ ∃ start outside outer, state.groups = ⟨start, true, outside⟩ :: outer
  | .brackets brackets => brackets.Fresh
  | _ => True

variable {state next : State} {c : Char}

private theorem source_operand (operand : Operand) : operand.regex.source = operand.source := by
  cases operand with
  | literal value => rfl
  | shorthand value => rfl
  | boundary negated => cases negated <;> rfl

private theorem fresh_of_pendingStep (fresh : state.Fresh) (step : PendingStep state c next) :
    next.Fresh := by
  cases step with
  | plain idle plain =>
      cases plain with
      | opens => exact ⟨rfl, _, _, _, rfl⟩
      | opensClass => exact fun _ => rfl
      | _ => trivial
  | questions pending =>
      rw [Fresh, pending] at fresh
      exact fresh
  | member pending read => exact Brackets.fresh_of_steps (Brackets.steps_of_step read)
  | uncaptures | escape | escaped | closesClass => trivial

private theorem source_of_plainStep (nothing : state.pending = .nothing)
    (plain : PlainStep state c next) :
    next.source = state.source ++ [c] := by
  cases plain with
  | opens => simp [source, OpenGroup.source, Pending.source, Draft.source, nothing]
  | closes groups => simp [source, OpenGroup.source, Pending.source, Regex.source, nothing, groups]
  | divides => simp [source, Pending.source, nothing]
  | opensClass =>
      simp [source, Pending.source, Brackets.source, Brackets.opened, Bracket.source, Stage.source,
        ClassSet.opening, nothing]
  | escapes => simp [source, Pending.source, Escape.source, nothing]
  | repeats operator applied =>
      simp [source, Pending.source, Draft.source_of_repeatLast? applied, nothing]
  | dot | start | stop | literal =>
      simp [source, push, Pending.source, Regex.source, Atom.source, Assertion.source,
        Literal.source, nothing]

theorem source_of_pendingStep (fresh : state.Fresh) (step : PendingStep state c next) :
    next.source = state.source ++ [c] := by
  cases step with
  | plain idle plain =>
      rw [source_of_plainStep rfl plain]
      rcases idle with pending | pending
      all_goals simp [source, Pending.source, pending]
  | questions pending question => simp [source, Pending.source, pending, question]
  | uncaptures pending groups colon =>
      rw [Fresh, pending] at fresh
      obtain ⟨empty, start, outside, others, same⟩ := fresh
      rw [groups] at same
      cases same
      simp [source, Pending.source, OpenGroup.source, Draft.source, pending, groups, empty, colon]
  | escape pending read =>
      simp [source, Pending.source, pending, Escape.source_of_step_eq_reading read]
  | escaped pending read =>
      simp [source, push, Pending.source, pending, source_operand,
        Escape.source_of_step_eq_complete read]
  | member pending read | closesClass pending read =>
      rw [Fresh, pending] at fresh
      have appended := Brackets.source_of_steps fresh (Brackets.steps_of_step read)
      simp only [Brackets.Progress.source] at appended
      simp [source, push, Pending.source, Regex.source, Atom.source, pending, appended]

private theorem fresh_and_source_of_step (fresh : state.Fresh) (taken : state.step c = .ok next) :
    next.Fresh ∧ next.source = state.source ++ [c] := by
  obtain ⟨middle, step, rfl⟩ := exists_pendingStep_of_step taken
  have stays := fresh_of_pendingStep fresh step
  have appended := source_of_pendingStep fresh step
  exact ⟨stays, appended⟩

theorem fresh_and_source_of_run {text : Text} (fresh : state.Fresh)
    (taken : state.run text = .ok next) :
    next.Fresh ∧ next.source = state.source ++ text := by
  induction text generalizing state with
  | nil =>
      cases taken
      exact ⟨fresh, by simp⟩
  | cons c rest ih =>
      rw [run, List.foldlM_cons] at taken
      obtain ⟨middle, read, taken⟩ := bind_eq_ok taken
      obtain ⟨middleFresh, middleSource⟩ := fresh_and_source_of_step fresh read
      obtain ⟨nextFresh, nextSource⟩ := ih middleFresh taken
      exact ⟨nextFresh, by simp [nextSource, middleSource]⟩

private theorem source_of_finish {state : State} {regex : Regex} (fresh : state.Fresh)
    (taken : state.finish = .ok regex) : regex.source = state.source := by
  obtain ⟨position, draft, groups, pending⟩ := state
  cases groups with
  | cons innermost outer => cases pending <;> cases taken
  | nil =>
      cases pending with
      | nothing =>
          cases taken
          simp [source, Pending.source]
      | parenthesis | question =>
          obtain ⟨_, _, _, _, same⟩ := fresh
          cases same
      | escape reading => cases taken
      | brackets classes => cases taken

end State

/-- A regular expression has the text that it was read from. -/
theorem source_of_parse {pattern : Text} {regex : Regex} (read : parse pattern = .ok regex) :
    regex.source = pattern := by
  obtain ⟨state, ran, finished⟩ := bind_eq_ok read
  obtain ⟨fresh, source⟩ := State.fresh_and_source_of_run (by trivial) ran
  rw [State.source_of_finish fresh finished, source]
  simp [State.source, Draft.source, Pending.source]

end ShellGlob.Regex
