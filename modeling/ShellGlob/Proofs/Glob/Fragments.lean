import ShellGlob.Proofs.Glob.Translation
import ShellGlob.Proofs.Regex.WithinClass

/-!
# Self-contained fragments

A fragment of a glob is self-contained if it leaves the context as it finds it and
none of its classes is empty (`SelfContained`).  Wherever its pattern can be read,
it closes what it opens (`closes_of_leaves`), and so has a meaning of its own.

The glob and its pattern are read in step (`InStep`): the groups that are open in
the pattern are the braces and groups that are open in the glob.  An empty class
would break the step, for a `]` directly behind the bracket does not close the
class of a regular expression.
-/

namespace ShellGlob.Glob

open Regex (State Draft OpenGroup Stage Brackets Reads Means MeansAny)

def Context.depth (context : Context) : Nat :=
  context.braces + context.groups.length

/-- What has been written of a class. -/
inductive Filling where
  | opened
  | complemented
  /-- A member, or there is no class. -/
  | filled
  deriving DecidableEq

/-- What has been written behind a token.  A `^` complements the class in the
pattern. -/
def Filling.after (filling : Filling) (token : Token) : Filling :=
  if token = .classOpen then .opened
  else if filling = .opened ∧ token.pattern = ['^'] then .complemented
  else .filled

/-- Whether no class is closed without a member. -/
def classesFilled : Filling → List Token → Bool
  | _, [] => true
  | filling, token :: rest =>
      (token ≠ .classClose || filling = .filled) && classesFilled (filling.after token) rest

/-- A class in the pattern has a member if it has one in the glob. -/
def Filling.Fits : Filling → Stage → Prop
  | .opened, stage => stage.Settled
  | .complemented, stage => stage.Settled ∧ stage ≠ .opened
  | .filled, stage => stage.HasMember

private theorem Filling.Fits.settled {filling : Filling} {stage : Stage}
    (fits : filling.Fits stage) :
    stage.Settled := by
  cases filling with
  | opened => exact fits
  | complemented => exact fits.1
  | filled => exact Stage.HasMember.settled fits

/-- What a token outside of classes writes, and what it does to the context. -/
inductive Outside (context : Context) : Token → Prop where
  | items {token : Token} {items : List Regex} :
      Reads token.pattern items → context.after token = context → Outside context token
  | charClass : Outside context .classOpen
  | opening {token : Token} :
      token.pattern = ['('] ∨ token.pattern = ['(', '?', ':'] →
      (context.after token).depth = context.depth + 1 →
      (context.after token).classPart = none → Outside context token
  | separator {token : Token} :
      token.pattern = ['|'] → context.depth ≠ 0 → context.after token = context →
      Outside context token
  | closing {token : Token} (multiplicity : Multiplicity) :
      token.pattern = ')' :: multiplicity.operator →
      (context.after token).depth + 1 = context.depth →
      (context.after token).classPart = none → Outside context token

/-- What a token within a class writes, if it does not close the class. -/
inductive Inside : Token → Prop where
  | plain {token : Token} (c : Char) :
      token.pattern = [c] → c ∉ [']', '[', '\\'] → Inside token
  | escaped {token : Token} (c : Char) (operand : Regex.Operand) :
      token.pattern = ['\\', c] → Regex.Operand.ofEscaped? c = some operand → c ≠ 'x' →
      Inside token
  | backspace {token : Token} : token.pattern = ['\\', 'x', '0', '8'] → Inside token

section

variable {context : Context} {c : Char} {rest : Text}

private theorem exists_reads_escapePattern (escaped : Char) :
    ∃ items, Reads (escapePattern false escaped) items := by
  by_cases boundary : escaped = 'b' ∨ escaped = 'B'
  · rcases boundary with rfl | rfl
    · obtain ⟨items, reads, _⟩ := means_boundary false
      exact ⟨items, reads⟩
    · obtain ⟨items, reads, _⟩ := means_boundary true
      exact ⟨items, reads⟩
  · have written : (Single.escape escaped).Written {} := by
      simpa [Single.Written] using boundary
    obtain ⟨items, reads, _⟩ := means_escape written
    exact ⟨items, reads⟩

private theorem outside_readEscape (outside : context.classPart = none) :
    Outside context (.readEscape context.inClass rest) := by
  have notInClass : context.inClass = false := by simp [Context.inClass, outside]
  rw [notInClass]
  cases rest with
  | nil =>
      have known : Regex.Operand.ofEscaped? '\\' = some (.literal (.escaped '\\')) := rfl
      exact .items (Regex.readsAs_escaped known (by decide)).reads rfl
  | cons escaped rest =>
      obtain ⟨items, reads⟩ := exists_reads_escapePattern escaped
      exact .items reads rfl

private theorem outside_readStar : Outside context (.readStar rest) := by
  have tree : ∀ slash, Outside context (.tree slash) := by
    intro slash
    obtain ⟨items, reads, _⟩ := means_tree slash
    exact .items reads rfl
  unfold Token.readStar
  split
  · exact tree true
  · exact tree false
  · obtain ⟨items, reads, _⟩ := means_star
    exact .items reads rfl

private theorem outside_literal
    (ordinary : c ∉ ['*', '?', '[']) : Outside context (.literal c) := by
  obtain ⟨items, reads, _⟩ := means_literal ordinary
  exact .items reads rfl

private theorem outside_readPlain (outside : context.classPart = none) :
    Outside context (.readPlain context c rest) := by
  unfold Token.readPlain
  split
  · next multiplicity outer groups =>
      exact .closing multiplicity rfl (by simp [Context.depth, Context.after, groups]; omega)
        outside
  · next groups => exact .separator rfl (by simp [Context.depth, groups]) rfl
  · exact outside_readStar
  · exact .items readsAs_segmentCharacter.reads rfl
  · exact .charClass
  · exact .opening (Or.inl rfl) (by simp [Context.depth, Context.after]; omega) outside
  · split
    · exact outside_literal (by decide)
    · next inBraces =>
        exact .closing .exactlyOne rfl (by simp [Context.depth, Context.after]; omega) outside
  · split
    · exact outside_literal (by decide)
    · next inBraces =>
        exact .separator rfl (by simp [Context.depth, inBraces]) rfl
  · next notStar notQuestion notBracket _ _ _ _ _ =>
      apply outside_literal
      intro special
      simp only [List.mem_cons, List.not_mem_nil, or_false] at special
      rcases special with star | question | bracket
      · exact notStar star
      · exact notQuestion question
      · exact notBracket bracket

theorem Context.outside_read (outside : context.classPart = none) :
    Outside context (context.read c rest) := by
  by_cases escape : c = '\\'
  · rw [Context.read, if_pos escape]
    exact outside_readEscape outside
  cases opened : Multiplicity.opening? c rest with
  | some multiplicity =>
      rw [Context.read_opening escape outside opened]
      exact .opening (Or.inr rfl) (by simp [Context.depth, Context.after]; omega) outside
  | none =>
      rw [Context.read_plain escape outside opened]
      exact outside_readPlain outside

private theorem inside_escape (escaped : Char) : Inside (.escape true escaped) := by
  by_cases backspace : escaped = 'b'
  · subst backspace
    exact .backspace rfl
  by_cases known : escaped ∈ ['d', 'w', 's', 'D', 'W', 'S', 'n', 'r', 't']
  · have pattern : (Token.escape true escaped).pattern = ['\\', escaped] := by
      simp [Token.pattern, escapePattern, backspace, known]
    simp only [List.mem_cons, List.not_mem_nil, or_false] at known
    rcases known with rfl | rfl | rfl | rfl | rfl | rfl | rfl | rfl | rfl
    all_goals exact .escaped _ _ pattern rfl (by decide)
  by_cases angle : escaped = '<' ∨ escaped = '>'
  · apply Inside.plain escaped
    · simp [Token.pattern, escapePattern, backspace, known, angle]
    · rcases angle with rfl | rfl
      all_goals decide
  by_cases punctuation : isPunctuation escaped = true
  · apply Inside.escaped escaped _ _ (ofEscaped?_of_isPunctuation punctuation angle)
    · rintro rfl
      exact absurd punctuation (by decide)
    · simp [Token.pattern, escapePattern, backspace, known, angle, punctuation]
  · apply Inside.plain escaped
    · simp [Token.pattern, escapePattern, backspace, known, angle, punctuation]
    · have special : [']', '[', '\\'].all isPunctuation = true := rfl
      exact fun bracket => punctuation (List.all_eq_true.mp special escaped bracket)

private theorem inside_readEscape : Inside (.readEscape true rest) := by
  cases rest with
  | nil =>
      have known : Regex.Operand.ofEscaped? '\\' = some (.literal (.escaped '\\')) := rfl
      exact .escaped '\\' _ rfl known (by decide)
  | cons escaped rest => exact inside_escape escaped

private theorem inside_guarded (punctuation : c ∈ ['[', '&', '~', '-']) :
    Inside (.member true c) := by
  simp only [List.mem_cons, List.not_mem_nil, or_false] at punctuation
  rcases punctuation with rfl | rfl | rfl | rfl
  all_goals exact .escaped _ _ rfl rfl (by decide)

private theorem inside_readMember {part : ClassPart} (notEscape : c ≠ '\\') (notClosing : c ≠ ']') :
    Inside (.readMember part c rest) := by
  unfold Token.readMember
  rw [if_neg notClosing]
  split
  · exact .plain '^' rfl (by decide)
  split
  · next special =>
      apply inside_guarded
      rcases special with rfl | rfl | rfl
      all_goals decide
  split
  · next dashes =>
      apply inside_guarded
      simp [dashes.1]
  · next notSpecial _ =>
      apply Inside.plain c rfl
      simp only [not_or] at notSpecial
      simp [notEscape, notClosing, notSpecial.1]

/-- Every token within a class either closes it or writes a member. -/
theorem Context.inside_read {part : ClassPart} (inside : context.classPart = some part)
    (c : Char) (rest : Text) :
    context.read c rest = .classClose ∨
      (Inside (context.read c rest) ∧
        context.after (context.read c rest) = { context with classPart := some .interior }) := by
  by_cases escape : c = '\\'
  · have inClass : context.inClass = true := by simp [Context.inClass, inside]
    rw [Context.read, if_pos escape, inClass]
    refine Or.inr ⟨inside_readEscape, ?_⟩
    cases rest with
    | nil => rfl
    | cons escaped rest => rfl
  rw [Context.read_member inside escape]
  by_cases closing : c = ']'
  · rw [closing]
    exact Or.inl rfl
  · exact Or.inr ⟨inside_readMember escape closing, Context.after_readMember closing⟩

end

section

variable {state next : State}

theorem run_opening (idle : state.Idle) {pattern : Text}
    (opening : pattern = ['('] ∨ pattern = ['(', '?', ':']) :
    ∃ after group, state.run pattern = .ok after ∧ after.Idle ∧
      after.groups = group :: state.groups ∧ group.outside = state.draft ∧
      after.draft = {} ∧ group.capturing = decide (pattern = ['(']) := by
  have opened := State.step_of_idle idle (c := '(') (by decide) rfl
  rcases opening with rfl | rfl
  · refine ⟨_, _, State.run_cons_of_step opened [], Or.inr rfl, rfl, rfl, rfl, rfl⟩
  · let group : OpenGroup := ⟨state.position, false, state.draft⟩
    let after : State := ⟨state.position + 3, {}, group :: state.groups, .nothing⟩
    refine ⟨after, group, ?_, Or.inl rfl, rfl, rfl, rfl, rfl⟩
    rw [State.run_cons_of_step opened, State.run_cons_of_step rfl]
    exact State.run_cons_of_step rfl []

theorem run_separator (idle : state.Idle) :
    ∃ after, state.run ['|'] = .ok after ∧ after.Idle ∧
      after.draft = state.draft.split ∧ after.groups = state.groups :=
  ⟨_, State.run_cons_of_step (State.step_of_idle idle (c := '|') (by decide) rfl) [],
    Or.inl rfl, rfl, rfl⟩

/-- The item that a group is read as, with the operator behind it. -/
def Multiplicity.item : Multiplicity → Regex → Regex
  | .zeroOrOne, group => .repetition .optional true group
  | .zeroOrMore, group => .repetition .star true group
  | .oneOrMore, group => .repetition .plus true group
  | .exactlyOne, group => group

theorem run_closing (idle : state.Idle) {innermost : OpenGroup} {outer : List OpenGroup}
    (groups : state.groups = innermost :: outer) (multiplicity : Multiplicity) :
    state.Arrives (')' :: multiplicity.operator)
      (innermost.outside.push
        (multiplicity.item (.group innermost.capturing state.draft.regex))) outer := by
  have divided : state.draft.split =
      ⟨state.draft.split.branches.reverse.reverse ++ [], []⟩ := by
    rw [List.reverse_reverse, List.append_nil]
    rfl
  have closed := State.arrives_closing idle divided groups
  cases multiplicity with
  | zeroOrOne => exact closed.repeated (by simp) .optional
  | zeroOrMore => exact closed.repeated (by simp) .star
  | oneOrMore => exact closed.repeated (by simp) .plus
  | exactlyOne => exact closed

theorem groups_ne_nil_of_run_closing (idle : state.Idle) {rest : Text}
    (ran : state.run (')' :: rest) = .ok next) : state.groups ≠ [] := by
  intro none
  obtain ⟨middle, taken, _⟩ := State.run_cons_eq_ok.mp ran
  rw [State.step, State.stepPending_of_idle idle (by decide)] at taken
  simp [State.stepPlain, State.closeGroup, none, Except.map] at taken

end

theorem Inside.ne_classOpen {token : Token} (inside : Inside token) : token ≠ .classOpen := by
  rintro rfl
  cases inside with
  | plain c pattern ordinary =>
      cases pattern
      exact ordinary (by decide)
  | escaped c operand pattern => cases pattern
  | backspace pattern => cases pattern

theorem Filling.after_inside {token : Token} (inside : Inside token) (filling : Filling) :
    filling.after token =
      if filling = .opened ∧ token.pattern = ['^'] then .complemented else .filled := by
  rw [Filling.after, if_neg inside.ne_classOpen]

private theorem Filling.after_eq_filled {token : Token} (inside : Inside token) (filling : Filling)
    (notCaret : token.pattern ≠ ['^']) : filling.after token = .filled := by
  rw [Filling.after_inside inside, if_neg]
  intro caret
  exact notCaret caret.2

private theorem Filling.fits_plain {token : Token} {filling : Filling} {stage later : Stage}
    {c : Char}
    (inside : Inside token) (pattern : token.pattern = [c]) (fits : filling.Fits stage)
    (leads : later.HasMember ∨ (stage = .opened ∧ c = '^' ∧ later = .complemented)) :
    (filling.after token).Fits later := by
  rw [Filling.after_inside inside, pattern]
  split
  · rcases leads with has | ⟨_, _, rfl⟩
    · refine ⟨has.settled, ?_⟩
      rintro rfl
      exact has
    · exact ⟨trivial, by simp⟩
  · next goesOn =>
      rcases leads with has | ⟨rfl, rfl, rfl⟩
      · exact has
      · cases filling with
        | opened => exact absurd ⟨rfl, rfl⟩ goesOn
        | complemented => exact absurd rfl fits.2
        | filled => exact fits.elim

/-- A member that is an escape is read in step, whatever it stands for. -/
theorem follow_member_escape {token : Token} (inside : Inside token) {filling : Filling}
    {alone whole next : State} {stage : Stage} {letters : Text} {operand : Regex.Operand}
    (pattern : token.pattern = '\\' :: letters)
    (readAs : Regex.Escape.opened.ReadAs operand letters)
    (inClass : alone.InClass whole stage) (settled : stage.Settled)
    (ran : whole.run token.pattern = .ok next) :
    ∃ after later, alone.run token.pattern = .ok after ∧ alone.SameAround after ∧
      after.InClass next later ∧ (filling.after token).Fits later := by
  rw [pattern] at ran ⊢
  obtain ⟨opened, taken, ranLetters⟩ := State.run_cons_eq_ok.mp ran
  obtain ⟨between, first, takenAlone, aroundBetween, inEscape⟩ :=
    State.follow_backslash inClass settled taken
  obtain ⟨after, later, ranAlone, around, inClass, has⟩ :=
    State.follow_letters readAs inEscape ranLetters
  refine ⟨after, later, ?_, aroundBetween.trans around, inClass, ?_⟩
  · rw [State.run_cons_of_step takenAlone]
    exact ranAlone
  · rw [Filling.after_eq_filled inside filling (by simp [pattern])]
    exact has

theorem follow_member {token : Token} (inside : Inside token) {filling : Filling}
    {alone whole next : State} {stage : Stage} (inClass : alone.InClass whole stage)
    (fits : filling.Fits stage) (ran : whole.run token.pattern = .ok next) :
    ∃ after later, alone.run token.pattern = .ok after ∧ alone.SameAround after ∧
      after.InClass next later ∧ (filling.after token).Fits later := by
  cases inside with
  | plain c pattern ordinary =>
      rw [pattern] at ran
      obtain ⟨middle, taken, same⟩ := State.run_cons_eq_ok.mp ran
      cases same
      obtain ⟨after, later, takenAlone, around, inClass, leads⟩ :=
        State.follow_plain inClass fits.settled ordinary taken
      refine ⟨after, later, ?_, around, inClass,
        Filling.fits_plain (.plain c pattern ordinary) pattern fits leads⟩
      rw [pattern]
      exact State.run_cons_of_step takenAlone []
  | escaped c operand pattern known notHexadecimal =>
      have complete : Regex.Escape.opened.step c = .complete operand := by
        simp [Regex.Escape.step, known, notHexadecimal]
      exact follow_member_escape (.escaped c operand pattern known notHexadecimal) pattern
        (.last complete) inClass fits.settled ran
  | backspace pattern =>
      have hexadecimal : Regex.Escape.opened.ReadAs (.literal (.hexadecimal '0' '8'))
          ['x', '0', '8'] := .more rfl (.more rfl (.last rfl))
      exact follow_member_escape (.backspace pattern) pattern hexadecimal inClass fits.settled ran

/-- The text that stands in no open group has no branches. -/
def Undivided (draft : Draft) : List OpenGroup → Prop
  | [] => draft.branches = []
  | innermost :: outer => Undivided innermost.outside outer

theorem undivided_of_branches_eq (draft : Draft) {other : Draft} {groups : List OpenGroup}
    (same : other.branches = draft.branches) (undivided : Undivided draft groups) :
    Undivided other groups := by
  cases groups with
  | nil => exact same.trans undivided
  | cons innermost outer => exact undivided

/-- A fragment is read on its own and as part of a whole, and the groups that it
has opened are the braces and groups above the floor.  On the lowest floor there is
nothing that could divide it. -/
structure InStep (context : Context) (filling : Filling) (floor : Nat)
    (alone whole : State) : Prop where
  depth : alone.groups.length + floor = context.depth
  undivided : floor = 0 → Undivided alone.draft alone.groups
  pending : (context.classPart = none ∧ alone.Idle ∧ whole.Idle) ∨
    (context.classPart ≠ none ∧ ∃ stage, alone.InClass whole stage ∧ filling.Fits stage)

namespace InStep

variable {context : Context} {filling : Filling} {floor : Nat} {alone whole next : State}
  {token : Token}

/-- The fragment can be read on through the token, and then it is in step again. -/
def GoesOn (context : Context) (filling : Filling) (floor : Nat) (alone next : State)
    (token : Token) : Prop :=
  ∃ after, alone.run token.pattern = .ok after ∧
    InStep (context.after token) (filling.after token) floor after next

theorem idle (inStep : InStep context filling floor alone whole)
    (outside : context.classPart = none) : alone.Idle ∧ whole.Idle := by
  rcases inStep.pending with ⟨-, idle⟩ | ⟨inside, _⟩
  · exact idle
  · exact absurd outside inside

theorem within (inStep : InStep context filling floor alone whole) {part : ClassPart}
    (inside : context.classPart = some part) :
    ∃ stage, alone.InClass whole stage ∧ filling.Fits stage := by
  rcases inStep.pending with ⟨outside, _⟩ | ⟨_, within⟩
  · rw [inside] at outside
    cases outside
  · exact within

/-- What is open above the floor has been opened by the fragment itself. -/
theorem groups_ne_nil (inStep : InStep context filling floor alone whole)
    (above : floor < context.depth) : alone.groups ≠ [] := by
  intro none
  have depth := inStep.depth
  rw [none, List.length_nil] at depth
  omega

private theorem goesOn_items (inStep : InStep context filling floor alone whole)
    (outside : context.classPart = none) {items : List Regex}
    (reads : Reads token.pattern items) (stays : context.after token = context)
    (ran : whole.run token.pattern = .ok next) : GoesOn context filling floor alone next token := by
  obtain ⟨aloneIdle, wholeIdle⟩ := inStep.idle outside
  obtain ⟨after, ranAlone, afterIdle, draft, groups⟩ := reads alone aloneIdle
  obtain ⟨same, ranWhole, nextIdle, _⟩ := reads whole wholeIdle
  cases ran.symm.trans ranWhole
  refine ⟨after, ranAlone, ?_, ?_, Or.inl ⟨?_, afterIdle, nextIdle⟩⟩
  · rw [stays, groups, inStep.depth]
  · intro lowest
    rw [groups]
    exact undivided_of_branches_eq alone.draft (by rw [draft]; rfl) (inStep.undivided lowest)
  · rw [stays, outside]

private theorem goesOn_classOpen (inStep : InStep context filling floor alone whole)
    (outside : context.classPart = none) (ran : whole.run ['['] = .ok next) :
    GoesOn context filling floor alone next .classOpen := by
  obtain ⟨aloneIdle, wholeIdle⟩ := inStep.idle outside
  have opens : ∀ state : State, state.Idle → state.run ['['] =
      .ok ⟨state.position + 1, state.draft, state.groups,
        .brackets (.opened state.position)⟩ := by
    intro state idle
    exact State.run_cons_of_step (State.step_of_idle idle (c := '[') (by decide) rfl) []
  cases ran.symm.trans (opens whole wholeIdle)
  refine ⟨_, opens alone aloneIdle, inStep.depth, inStep.undivided,
    Or.inr ⟨by simp [Context.after], .opened, ⟨_, _, rfl, rfl, rfl⟩, ?_⟩⟩
  rw [Filling.after, if_pos rfl]
  trivial

private theorem goesOn_opening (inStep : InStep context filling floor alone whole)
    (outside : context.classPart = none)
    (pattern : token.pattern = ['('] ∨ token.pattern = ['(', '?', ':'])
    (deeper : (context.after token).depth = context.depth + 1)
    (outsideToo : (context.after token).classPart = none)
    (ran : whole.run token.pattern = .ok next) : GoesOn context filling floor alone next token := by
  obtain ⟨aloneIdle, wholeIdle⟩ := inStep.idle outside
  obtain ⟨after, group, ranAlone, afterIdle, groups, around, _⟩ := run_opening aloneIdle pattern
  obtain ⟨same, _, ranWhole, nextIdle, _⟩ := run_opening wholeIdle pattern
  cases ran.symm.trans ranWhole
  refine ⟨after, ranAlone, ?_, ?_, Or.inl ⟨outsideToo, afterIdle, nextIdle⟩⟩
  · rw [groups, List.length_cons, deeper, ← inStep.depth]
    omega
  · intro lowest
    rw [groups, Undivided, around]
    exact inStep.undivided lowest

private theorem goesOn_separator (inStep : InStep context filling floor alone whole)
    (outside : context.classPart = none) (pattern : token.pattern = ['|'])
    (inGroup : context.depth ≠ 0) (stays : context.after token = context)
    (ran : whole.run token.pattern = .ok next) : GoesOn context filling floor alone next token := by
  obtain ⟨aloneIdle, wholeIdle⟩ := inStep.idle outside
  rw [pattern] at ran
  obtain ⟨after, ranAlone, afterIdle, draft, groups⟩ := run_separator aloneIdle
  obtain ⟨same, ranWhole, nextIdle, _⟩ := run_separator wholeIdle
  cases ran.symm.trans ranWhole
  refine ⟨after, by rw [pattern, ranAlone], ?_, ?_, Or.inl ⟨?_, afterIdle, nextIdle⟩⟩
  · rw [stays, groups, inStep.depth]
  · -- What is divided on the lowest floor is a group of the fragment.
    intro lowest
    obtain ⟨innermost, outer, written⟩ :=
      List.exists_cons_of_ne_nil (inStep.groups_ne_nil (by omega))
    have below := inStep.undivided lowest
    rw [written] at below
    rw [groups, written]
    exact below
  · rw [stays, outside]

/-- The fragment closes a group of its own, for it stays above the floor. -/
theorem goesOn_closing (inStep : InStep context filling floor alone whole)
    (outside : context.classPart = none) {multiplicity : Multiplicity}
    (pattern : token.pattern = ')' :: multiplicity.operator)
    (shallower : (context.after token).depth + 1 = context.depth)
    (outsideToo : (context.after token).classPart = none)
    (above : floor ≤ (context.after token).depth)
    (ran : whole.run token.pattern = .ok next) : GoesOn context filling floor alone next token := by
  obtain ⟨aloneIdle, wholeIdle⟩ := inStep.idle outside
  rw [pattern] at ran
  obtain ⟨wholeInnermost, wholeOuter, wholeGroups⟩ :=
    List.exists_cons_of_ne_nil (groups_ne_nil_of_run_closing wholeIdle ran)
  obtain ⟨_, ranWhole⟩ := run_closing wholeIdle wholeGroups multiplicity
  cases ran.symm.trans ranWhole
  obtain ⟨innermost, outer, groups⟩ :=
    List.exists_cons_of_ne_nil (inStep.groups_ne_nil (by omega))
  obtain ⟨position, ranAlone⟩ := run_closing aloneIdle groups multiplicity
  refine ⟨_, by rw [pattern, ranAlone], ?_, ?_, Or.inl ⟨outsideToo, Or.inl rfl, Or.inl rfl⟩⟩
  · have depth := inStep.depth
    rw [groups, List.length_cons] at depth
    simp only
    omega
  · intro lowest
    have around := inStep.undivided lowest
    rw [groups] at around
    exact undivided_of_branches_eq innermost.outside rfl around

private theorem goesOn_outside (inStep : InStep context filling floor alone whole)
    (outside : context.classPart = none) (writes : Outside context token)
    (above : floor ≤ (context.after token).depth)
    (ran : whole.run token.pattern = .ok next) : GoesOn context filling floor alone next token := by
  cases writes with
  | items reads stays => exact inStep.goesOn_items outside reads stays ran
  | charClass => exact inStep.goesOn_classOpen outside ran
  | opening pattern deeper outsideToo =>
      exact inStep.goesOn_opening outside pattern deeper outsideToo ran
  | separator pattern inGroup stays =>
      exact inStep.goesOn_separator outside pattern inGroup stays ran
  | closing multiplicity pattern shallower outsideToo =>
      exact inStep.goesOn_closing outside pattern shallower outsideToo above ran

private theorem goesOn_classClose (inStep : InStep context .filled floor alone whole)
    {part : ClassPart}
    (inside : context.classPart = some part) (ran : whole.run [']'] = .ok next) :
    GoesOn context .filled floor alone next .classClose := by
  obtain ⟨stage, inClass, has⟩ := inStep.within inside
  obtain ⟨last, taken, same⟩ := State.run_cons_eq_ok.mp ran
  cases same
  obtain ⟨nextPending, after, item, takenAlone, afterPending, draft, groups⟩ :=
    State.follow_closing inClass has taken
  refine ⟨after, State.run_cons_of_step takenAlone [], ?_, ?_,
    Or.inl ⟨rfl, Or.inl afterPending, Or.inl nextPending⟩⟩
  · rw [groups]
    exact inStep.depth
  · intro lowest
    rw [groups]
    exact undivided_of_branches_eq alone.draft (by rw [draft]; rfl) (inStep.undivided lowest)

private theorem goesOn_member (inStep : InStep context filling floor alone whole) {part : ClassPart}
    (inside : context.classPart = some part) (member : Inside token)
    (stays : context.after token = { context with classPart := some .interior })
    (ran : whole.run token.pattern = .ok next) : GoesOn context filling floor alone next token := by
  obtain ⟨stage, inClass, fits⟩ := inStep.within inside
  obtain ⟨after, later, ranAlone, ⟨draft, groups⟩, inClass, fits⟩ :=
    follow_member member inClass fits ran
  refine ⟨after, ranAlone, ?_, ?_, Or.inr ⟨?_, later, inClass, fits⟩⟩
  · rw [groups, stays]
    exact inStep.depth
  · intro lowest
    rw [groups, draft]
    exact inStep.undivided lowest
  · simp [stays]

/-- Token by token the fragment is read in step. -/
theorem step (inStep : InStep context filling floor alone whole) {c : Char} {rest : Text}
    (filled : context.read c rest = .classClose → filling = .filled)
    (above : floor ≤ (context.after (context.read c rest)).depth)
    (ran : whole.run (context.read c rest).pattern = .ok next) :
    GoesOn context filling floor alone next (context.read c rest) := by
  cases location : context.classPart with
  | none => exact inStep.goesOn_outside location (Context.outside_read location) above ran
  | some part =>
      rcases Context.inside_read location c rest with closes | ⟨member, stays⟩
      · cases filled closes
        rw [closes] at ran ⊢
        exact inStep.goesOn_classClose location ran
      · exact inStep.goesOn_member location member stays ran

end InStep

/-- Whether no token closes more than what is open above the floor. -/
def StaysAbove (floor : Nat) : Context → List Token → Prop
  | _, [] => True
  | context, token :: rest =>
      floor ≤ (context.after token).depth ∧ StaysAbove floor (context.after token) rest

theorem staysAbove_zero (context : Context) (fragment : List Token) :
    StaysAbove 0 context fragment := by
  induction fragment generalizing context with
  | nil => trivial
  | cons token rest ih => exact ⟨Nat.zero_le _, ih _⟩

theorem InStep.run_of_isPrefix {context : Context} {filling : Filling} {floor : Nat}
    {alone whole last : State} {front : List Token} {text : Text}
    (inStep : InStep context filling floor alone whole) (isPrefix : front <+: tokens context text)
    (filled : classesFilled filling front = true) (above : StaysAbove floor context front)
    (ran : whole.run (front.flatMap Token.pattern) = .ok last) :
    ∃ after, alone.run (front.flatMap Token.pattern) = .ok after ∧
      ∃ behind, InStep (context.afterAll front) behind floor after last := by
  -- Token by token; what goes from one token to the next is that both runs are in step.
  induction front generalizing context filling alone whole text with
  | nil =>
      cases ran
      exact ⟨alone, rfl, filling, inStep⟩
  | cons token front ih =>
      obtain ⟨c, rest, rfl, later⟩ := exists_read_of_isPrefix isPrefix
      rw [List.flatMap_cons] at ran ⊢
      obtain ⟨middle, ranToken, ranRest⟩ := State.run_append_eq_ok.mp ran
      simp only [classesFilled, Bool.and_eq_true, Bool.or_eq_true, decide_eq_true_eq] at filled
      obtain ⟨tokenFilled, restFilled⟩ := filled
      have closes : context.read c rest = .classClose → filling = .filled := by
        intro isClosing
        exact tokenFilled.resolve_left (fun different => different isClosing)
      obtain ⟨after, ranAlone, inStep⟩ := inStep.step closes above.1 ranToken
      obtain ⟨final, ranOn, behind, inStep⟩ := ih inStep later restFilled above.2 ranRest
      refine ⟨final, ?_, behind, inStep⟩
      rw [State.run_append_of_run ranAlone]
      exact ranOn

theorem InStep.run {context : Context} {filling : Filling} {floor : Nat}
    {alone whole last : State} {text : Text}
    (inStep : InStep context filling floor alone whole)
    (filled : classesFilled filling (tokens context text) = true)
    (above : StaysAbove floor context (tokens context text))
    (ran : whole.run (patternFrom context text) = .ok last) :
    ∃ after, alone.run (patternFrom context text) = .ok after ∧
      ∃ behind, InStep (context.afterAll (tokens context text)) behind floor after last :=
  inStep.run_of_isPrefix (List.prefix_refl _) filled above ran

def Context.deeper (context : Context) : Context :=
  { context with braces := context.braces + 1 }

section

variable {context : Context} {c : Char} {rest : Text}

theorem Context.one_le_depth_deeper (context : Context) : 1 ≤ context.deeper.depth := by
  simp only [depth, deeper]
  omega

theorem Context.after_deeper {token : Token}
    (opened : token = .braceClose → context.braces ≠ 0) :
    context.deeper.after token = (context.after token).deeper := by
  cases token with
  | escape inClass | backslash inClass =>
      cases inClass with
      | false | true => rfl
  | braceClose =>
      have positive := opened rfl
      simp only [Context.after, Context.deeper, Context.mk.injEq, true_and, and_true]
      omega
  | _ => rfl

theorem Context.braces_ne_zero_of_read (closes : context.read c rest = .braceClose) :
    context.braces ≠ 0 := by
  have written := context.source_read_append c rest
  rw [closes] at written
  cases written
  intro unopened
  cases location : context.classPart with
  | some part =>
      rw [Context.read_member location (by decide)] at closes
      simp [Token.readMember] at closes
  | none =>
      rw [Context.read_plain_of_not_mark (by decide) location rfl] at closes
      simp [Token.readPlain, unopened] at closes

theorem Token.readPlain_deeper (context : Context) (c : Char) (rest : Text) :
    Token.readPlain context.deeper c rest = Token.readPlain context c rest ∨
      (Token.readPlain context c rest = .literal ',' ∧
        Token.readPlain context.deeper c rest = .comma) ∨
      (Token.readPlain context c rest = .literal '}' ∧
        Token.readPlain context.deeper c rest = .braceClose) := by
  have groups : context.deeper.groups = context.groups := rfl
  have opened : context.deeper.braces ≠ 0 := Nat.succ_ne_zero _
  by_cases closes : c = '}'
  · subst closes
    by_cases unopened : context.braces = 0
    · exact Or.inr (Or.inr (by simp [Token.readPlain, unopened, opened]))
    · exact Or.inl (by simp [Token.readPlain, unopened, opened])
  by_cases separates : c = ','
  · subst separates
    by_cases unopened : context.braces = 0
    · exact Or.inr (Or.inl (by simp [Token.readPlain, unopened, opened]))
    · exact Or.inl (by simp [Token.readPlain, unopened, opened])
  apply Or.inl
  unfold Token.readPlain
  rw [groups]
  split
  all_goals first
    | rfl
    | contradiction

/-- One brace deeper only `,` and `}` may be read otherwise. -/
theorem Context.read_deeper (context : Context) (c : Char) (rest : Text) :
    context.deeper.read c rest = context.read c rest ∨
      (context.read c rest = .literal ',' ∧ context.deeper.read c rest = .comma) ∨
      (context.read c rest = .literal '}' ∧ context.deeper.read c rest = .braceClose) := by
  by_cases escape : c = '\\'
  · apply Or.inl
    simp [Context.read, escape, Context.deeper, Context.inClass]
  cases location : context.classPart with
  | some part =>
      have deeperLocation : context.deeper.classPart = some part := location
      rw [Context.read_member location escape, Context.read_member deeperLocation escape]
      exact Or.inl rfl
  | none =>
      have deeperLocation : context.deeper.classPart = none := location
      cases opened : Multiplicity.opening? c rest with
      | some multiplicity =>
          rw [Context.read_opening escape location opened,
            Context.read_opening escape deeperLocation opened]
          exact Or.inl rfl
      | none =>
          rw [Context.read_plain escape location opened,
            Context.read_plain escape deeperLocation opened]
          exact Token.readPlain_deeper context c rest

end

theorem Context.afterAll_deeper (context : Context) (text : Text) :
    context.deeper.afterAll (tokens context text) =
      (context.afterAll (tokens context text)).deeper := by
  induction context, text using tokens.induct with
  | case1 context => rw [tokens_nil, Context.afterAll_nil, Context.afterAll_nil]
  | case2 context c rest token ih =>
      rw [tokens_cons, Context.afterAll_cons, Context.afterAll_cons,
        Context.after_deeper Context.braces_ne_zero_of_read]
      exact ih

/-- A text that is read one brace deeper leaves that brace open, or closes it and
then goes on as if it had not been there. -/
theorem staysAbove_or_same (context : Context) (text : Text) :
    StaysAbove 1 context.deeper (tokens context.deeper text) ∨
      context.deeper.afterAll (tokens context.deeper text) =
        context.afterAll (tokens context text) := by
  induction context, text using tokens.induct with
  | case1 context =>
      rw [tokens_nil]
      exact Or.inl trivial
  | case2 context c rest token ih =>
      rw [tokens_cons, tokens_cons]
      -- Behind a `}` that closes the extra brace the two contexts are the same one.
      rcases Context.read_deeper context c rest with same | ⟨read, deeper⟩ | ⟨read, deeper⟩
      · rw [same, Context.afterAll_cons, Context.afterAll_cons, StaysAbove,
          Context.after_deeper Context.braces_ne_zero_of_read]
        rcases ih with above | closed
        · exact Or.inl ⟨Context.one_le_depth_deeper _, above⟩
        · exact Or.inr closed
      · simp only [token, read] at ih
        rw [read, deeper]
        rcases ih with above | closed
        · exact Or.inl ⟨Context.one_le_depth_deeper _, above⟩
        · exact Or.inr closed
      · rw [read, deeper]
        exact Or.inr rfl

/-- A fragment that leaves the context alike with and without a brace does not
close that brace. -/
theorem staysAbove_one {fragment : Text}
    (leaves : ({} : Context).afterAll (tokens {} fragment) = {})
    (leavesBrace : ({ braces := 1 } : Context).afterAll (tokens { braces := 1 } fragment) =
      { braces := 1 }) :
    StaysAbove 1 { braces := 1 } (tokens { braces := 1 } fragment) := by
  rcases staysAbove_or_same {} fragment with above | same
  · exact above
  · rw [leaves] at same
    cases leavesBrace.symm.trans same

/-- The fragment leaves open what it finds open, no class of it is empty, and no
escape reaches beyond it. -/
structure SelfContained (context : Context) (fragment : Text) : Prop where
  leaves : context.afterAll (tokens context fragment) = context
  filled : classesFilled .filled (tokens context fragment) = true
  paired : escapesPaired fragment = true

instance SelfContained.decidable (context : Context) (fragment : Text) :
    Decidable (SelfContained context fragment) :=
  decidable_of_iff
    (context.afterAll (tokens context fragment) = context ∧
      classesFilled .filled (tokens context fragment) = true ∧ escapesPaired fragment = true)
    ⟨fun ⟨leaves, filled, paired⟩ => ⟨leaves, filled, paired⟩,
      fun contained => ⟨contained.leaves, contained.filled, contained.paired⟩⟩

section

variable {fragment : Text} {whole last : State}

/-- The pattern of a fragment that leaves open what it finds open closes what it opens,
wherever it can be read. -/
theorem closes_of_leaves {context : Context} (outside : context.classPart = none)
    (leaves : context.afterAll (tokens context fragment) = context)
    (filled : classesFilled .filled (tokens context fragment) = true)
    (above : StaysAbove context.depth context (tokens context fragment)) (idle : whole.Idle)
    (ran : whole.run (patternFrom context fragment) = .ok last) :
    last.Idle ∧ ∃ alone, State.Closes (patternFrom context fragment) alone ∧
      (context.depth = 0 → alone.draft.branches = []) := by
  have start : InStep context .filled context.depth {} whole :=
    ⟨Nat.zero_add _, fun _ => rfl, Or.inl ⟨outside, Or.inl rfl, idle⟩⟩
  obtain ⟨alone, ranAlone, behind, inStep⟩ := start.run filled above ran
  rw [leaves] at inStep
  obtain ⟨depth, undivided, pending⟩ := inStep
  have groups : alone.groups = [] := List.length_eq_zero_iff.mp (by omega)
  obtain ⟨-, aloneIdle, lastIdle⟩ := pending.resolve_right fun inside => inside.1 outside
  refine ⟨lastIdle, alone, ⟨ranAlone, aloneIdle, groups⟩, ?_⟩
  intro lowest
  have bottom := undivided lowest
  rw [groups] at bottom
  exact bottom

/-- Outside of braces it is items in a row. -/
theorem reads_of_leaves (leaves : ({} : Context).afterAll (tokens {} fragment) = {})
    (filled : classesFilled .filled (tokens {} fragment) = true) (idle : whole.Idle)
    (ran : whole.run (patternFrom {} fragment) = .ok last) :
    last.Idle ∧ ∃ items, Reads (patternFrom {} fragment) items := by
  obtain ⟨lastIdle, alone, closes, undivided⟩ :=
    closes_of_leaves rfl leaves filled (staysAbove_zero _ _) idle ran
  exact ⟨lastIdle, _, Regex.reads_of_closes closes (undivided rfl)⟩

end

namespace SelfContained

variable {fragment : Text} {whole last : State}

/-- A fragment outside of braces is items in a row. -/
theorem means (contained : SelfContained {} fragment) (idle : whole.Idle)
    (ran : whole.run (patternFrom {} fragment) = .ok last) :
    last.Idle ∧ ∃ extent, Means (patternFrom {} fragment) extent := by
  obtain ⟨lastIdle, items, reads⟩ := reads_of_leaves contained.leaves contained.filled idle ran
  exact ⟨lastIdle, _, items, reads, fun _ _ _ => Iff.rfl⟩

/-- A fragment within braces is branches, for a `,` may divide it there. -/
theorem meansAny (outside : SelfContained {} fragment)
    (within : SelfContained { braces := 1 } fragment) (idle : whole.Idle)
    (ran : whole.run (patternFrom { braces := 1 } fragment) = .ok last) :
    last.Idle ∧ ∃ extent, MeansAny (patternFrom { braces := 1 } fragment) extent := by
  have above := staysAbove_one outside.leaves within.leaves
  obtain ⟨lastIdle, alone, closes, _⟩ :=
    closes_of_leaves rfl within.leaves within.filled above idle ran
  exact ⟨lastIdle, _, alone.draft.split.branches.reverse, by simp [Draft.split],
    Regex.readsBranches_of_closes closes, fun _ _ _ => Iff.rfl⟩

theorem deeper {context : Context} (contained : SelfContained context fragment)
    (alike : tokens context.deeper fragment = tokens context fragment) :
    SelfContained context.deeper fragment := by
  refine ⟨?_, ?_, contained.paired⟩
  · rw [alike, Context.afterAll_deeper, contained.leaves]
  · rw [alike]
    exact contained.filled

theorem patternFrom_append {context : Context} (contained : SelfContained context fragment)
    {c : Char} (apart : c ∉ ['-', '*', '(', '/']) (rest : Text) :
    patternFrom context (fragment ++ c :: rest) =
      patternFrom context fragment ++ patternFrom context (c :: rest) := by
  rw [patternFrom, tokens_append_of_escapesPaired contained.paired apart, contained.leaves,
    List.flatMap_append]
  rfl

end SelfContained

end ShellGlob.Glob
