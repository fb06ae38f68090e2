import ShellGlob.Proofs.Glob.Nesting
import ShellGlob.Proofs.Glob.Refusal

/-!
# Which parenthesis closes which

The pattern of a glob has a `(` for each brace and each extended group that is opened, and a `)`
for each one that is closed.  The glob counts the ones and stacks the others, while its expression
knows only one kind of group, so a `)` there closes the group opened last.  The two agree on
every pair exactly if the brackets of the glob are nested (`pairsAlike_iff`).  Then the suffix of
an extended group repeats what is written in it.  In `{*(a}b)` it repeats the braces
instead.

An empty class of the glob is not closed in its expression, and swallows the parentheses behind
it.  Globs with such classes are left out.
-/

namespace ShellGlob

namespace Regex

/-- In the expression the `)` at a place closes the group whose `(` stands at another one. -/
def Pairs (pattern : Text) (opening closing : Nat) : Prop :=
  pattern[closing]? = some ')' ∧ ∃ state innermost outer,
    State.run {} (pattern.take closing) = .ok state ∧ state.Idle ∧
      state.groups = innermost :: outer ∧ innermost.start = opening

theorem State.position_run {state next : State} {text : Text} (ran : state.run text = .ok next) :
    next.position = state.position + text.length := by
  induction text generalizing state with
  | nil =>
      cases ran
      rfl
  | cons c rest ih =>
      obtain ⟨middle, taken, ranRest⟩ := State.run_cons_eq_ok.mp ran
      have counted : middle.position = state.position + 1 := by
        obtain ⟨after, _, rfl⟩ := State.exists_pendingStep_of_step taken
        rfl
      rw [ih ranRest, counted, List.length_cons]
      omega

end Regex

namespace Glob

open Regex (State ReadsAs ReadsBranches ofBranches ofItems)

section

variable {context : Context} {text : Text} {inner : List Token} {stack own base : List Bracket}
  {state last : State}

private theorem staysAbove_of_nests (tallies : Tallies (stack ++ base) context)
    (nests : nestFrom stack inner = some own) : StaysAbove base.length context inner := by
  induction inner generalizing stack context with
  | nil => trivial
  | cons token inner ih =>
      obtain ⟨middle, first, rest⟩ := nestFrom_cons_eq_some.mp nests
      have talliesBehind := tallies.after (Token.nest_append first)
      refine ⟨?_, ih talliesBehind rest⟩
      rw [talliesBehind.depth, List.length_append]
      exact Nat.le_add_left _ _

/-- Tokens that are nested on their own close what they open, wherever they can be read. -/
theorem closes_of_nests (isPrefix : inner <+: tokens context text) (tallies : Tallies base context)
    (nests : nestFrom [] inner = some []) (outside : context.classPart = none)
    (outsideBehind : (context.afterAll inner).classPart = none)
    (filled : classesFilled .filled inner = true) (idle : state.Idle)
    (ran : state.run (inner.flatMap Token.pattern) = .ok last) :
    ∃ alone, State.Closes (inner.flatMap Token.pattern) alone := by
  have above : StaysAbove context.depth context inner := by
    rw [tallies.depth]
    exact staysAbove_of_nests (show Tallies ([] ++ base) context from tallies) nests
  have start : InStep context .filled context.depth {} state :=
    ⟨Nat.zero_add _, fun _ => rfl, Or.inl ⟨outside, Or.inl rfl, idle⟩⟩
  obtain ⟨alone, ranAlone, behind, inStep⟩ := start.run_of_isPrefix isPrefix filled above ran
  obtain ⟨depth, _, pending⟩ := inStep
  have sameDepth : (context.afterAll inner).depth = context.depth := by
    have nestsBelow : nestFrom base inner = some base := nestFrom_below nests
    rw [(tallies.afterAll nestsBelow).depth, tallies.depth]
  obtain ⟨-, aloneIdle, -⟩ := pending.resolve_right fun inside => inside.1 outsideBehind
  exact ⟨alone, ranAlone, aloneIdle, List.length_eq_zero_iff.mp (by omega)⟩

end

/-- The place in the expression behind the patterns of the tokens. -/
def placeBehind (anchored : Bool) (front : List Token) : Nat :=
  (start anchored).position + (front.flatMap Token.pattern).length

section

variable {glob : Text} {anchored : Bool} {front rest : List Token} {token : Token}
  {bracket : Bracket} {state : State}

/-- A token that opens or closes a bracket is read outside of classes. -/
theorem idle_of_bracket (filled : classesFilled .filled (tokens {} glob) = true)
    (whole : tokens {} glob = front ++ token :: rest)
    (isBracket : token.opens? = some bracket ∨ token.closes? = some bracket)
    (ran : (start anchored).run (front.flatMap Token.pattern) = .ok state) :
    (({} : Context).afterAll front).classPart = none ∧ state.Idle := by
  obtain ⟨c, behind, rfl⟩ := exists_read_of_append whole
  have outside := Context.outside_of_bracket isBracket
  refine ⟨outside, ?_⟩
  have isPrefix : front <+: tokens {} glob := whole ▸ List.prefix_append _ _
  rcases (follows_start anchored .filled).run isPrefix (classesFilled_of_isPrefix isPrefix filled)
    (by simp) with ⟨last, _, _, reached, follows, _⟩ | ⟨error, failed, _⟩
  · cases ran.symm.trans reached
    obtain ⟨_, ⟨_, idle, _⟩ | ⟨_, _, _, inside, _⟩⟩ := follows
    · exact idle
    · cases outside.symm.trans inside
  · cases ran.symm.trans failed

private theorem Token.pattern_of_opens (opens : token.opens? = some bracket) :
    token.pattern = ['('] ∨ token.pattern = ['(', '?', ':'] := by
  cases token with
  | braceOpen => exact Or.inl rfl
  | groupOpen => exact Or.inr rfl
  | _ => cases opens

private theorem Token.pattern_of_closes (closes : token.closes? = some bracket) :
    ∃ multiplicity : Multiplicity, token.pattern = ')' :: multiplicity.operator := by
  cases token with
  | braceClose => exact ⟨.exactlyOne, rfl⟩
  | groupClose multiplicity => exact ⟨multiplicity, rfl⟩
  | _ => cases closes

private theorem Filling.after_of_opens (opens : token.opens? = some bracket) (filling : Filling) :
    filling.after token = .filled := by
  cases token with
  | braceOpen | groupOpen => simp [Filling.after, Token.pattern]
  | _ => cases opens

private theorem Filling.after_of_closes (closes : token.closes? = some bracket)
    (filling : Filling) :
    filling.after token = .filled := by
  cases token with
  | braceClose | groupClose => simp [Filling.after, Token.pattern]
  | _ => cases closes

private theorem Context.classPart_of_opens {context : Context}
    (opens : token.opens? = some bracket) :
    (context.after token).classPart = context.classPart := by
  cases token with
  | braceOpen | groupOpen => rfl
  | _ => cases opens

/-- Behind a token that opens a bracket the expression has one more group, which starts
there. -/
theorem run_of_opens (opens : token.opens? = some bracket) (idle : state.Idle) :
    ∃ after innermost, state.run token.pattern = .ok after ∧ after.Idle ∧
      after.groups = innermost :: state.groups ∧ innermost.start = state.position := by
  have opened := State.step_of_idle idle (c := '(') (by decide) rfl
  rcases Token.pattern_of_opens opens with pattern | pattern
  · rw [pattern, State.run_cons_of_step opened]
    exact ⟨_, _, rfl, Or.inr rfl, rfl, rfl⟩
  · rw [pattern, State.run_cons_of_step opened, State.run_cons_of_step rfl]
    exact ⟨_, _, State.run_cons_of_step rfl [], Or.inl rfl, rfl, rfl⟩

private theorem position_of_run_start
    (ran : (start anchored).run (front.flatMap Token.pattern) = .ok state) :
    state.position = placeBehind anchored front :=
  Regex.State.position_run ran

/-- Where what stands between two brackets is nested, it reads on its own, and the innermost
group behind it is the one of the first bracket. -/
theorem exists_closes {opening closing : Token} {inner : List Token} {other : Bracket}
    {base : List Bracket} (filled : classesFilled .filled (tokens {} glob) = true)
    (whole : tokens {} glob = front ++ opening :: (inner ++ closing :: rest))
    (opens : opening.opens? = some bracket) (closes : closing.closes? = some other)
    (frontNests : nestFrom [] front = some base) (innerNests : nestFrom [] inner = some [])
    (ran : (start anchored).run ((front ++ opening :: inner).flatMap Token.pattern) = .ok state) :
    (∃ alone, State.Closes (inner.flatMap Token.pattern) alone) ∧
      ∃ innermost outer, state.groups = innermost :: outer ∧
        innermost.start = placeBehind anchored front := by
  have split : tokens {} glob = (front ++ opening :: inner) ++ closing :: rest := by simp [whole]
  have wholeRan := ran
  rw [List.flatMap_append, List.flatMap_cons] at ran
  obtain ⟨before, ranFront, ran⟩ := State.run_append_eq_ok.mp ran
  obtain ⟨entered, ranOpening, ranInner⟩ := State.run_append_eq_ok.mp ran
  obtain ⟨outside, idle⟩ := idle_of_bracket filled whole (Or.inl opens) ranFront
  obtain ⟨outsideBehind, _⟩ := idle_of_bracket filled split (Or.inr closes) wholeRan
  obtain ⟨_, innermost, reached, enteredIdle, groups, started⟩ := run_of_opens opens idle
  cases ranOpening.symm.trans reached
  have tallies : Tallies (bracket :: base) ((({} : Context).afterAll front).after opening) :=
    (tallies_start.afterAll frontNests).after (Token.nest_of_opens opens)
  obtain ⟨behind, isText⟩ : ∃ behind, inner ++ closing :: rest =
      tokens ((({} : Context).afterAll front).after opening) behind := by
    rw [List.append_cons] at whole
    obtain ⟨behind, isText⟩ := exists_tokens_of_append whole
    refine ⟨behind, ?_⟩
    rw [isText, Context.afterAll_append]
    rfl
  rw [whole] at filled
  obtain ⟨_, filled⟩ := classesFilled_of_append (Filling.after_of_opens opens) filled
  obtain ⟨innerFilled, _⟩ := classesFilled_of_append (Filling.after_of_closes closes) filled
  rw [Context.afterAll_append] at outsideBehind
  have isPrefix : inner <+: tokens ((({} : Context).afterAll front).after opening) behind :=
    isText ▸ List.prefix_append inner _
  obtain ⟨alone, closed⟩ := closes_of_nests isPrefix tallies innerNests
    ((Context.classPart_of_opens opens).trans outside) outsideBehind innerFilled enteredIdle
    ranInner
  refine ⟨⟨alone, closed⟩, innermost, before.groups, ?_, ?_⟩
  · obtain ⟨after, ranAgain, _, atop⟩ := closed.atop enteredIdle
    cases ranInner.symm.trans ranAgain
    rw [← groups]
    generalize alone.draft = draft, state.draft = below, state.groups = outer at atop
    cases atop with
    | items | branches => rfl
  · rw [started, position_of_run_start ranFront]

/-- What the expression pairs shows in the groups that are open before a closing token. -/
theorem pairs_iff (whole : tokens {} glob = front ++ token :: rest)
    (closes : token.closes? = some bracket)
    (ran : (start anchored).run (front.flatMap Token.pattern) = .ok state) (idle : state.Idle)
    (opening : Nat) :
    Regex.Pairs (enclose anchored (patternFrom {} glob)) opening (placeBehind anchored front) ↔
      ∃ innermost outer, state.groups = innermost :: outer ∧ innermost.start = opening := by
  obtain ⟨multiplicity, pattern⟩ := Token.pattern_of_closes closes
  have body : patternFrom {} glob = front.flatMap Token.pattern ++
      (')' :: (multiplicity.operator ++ rest.flatMap Token.pattern)) := by
    rw [patternFrom, whole, List.flatMap_append, List.flatMap_cons, pattern, List.cons_append]
  obtain ⟨before, behind, parts, length, ranBefore⟩ : ∃ before behind : Text,
      enclose anchored (patternFrom {} glob) = before ++ ')' :: behind ∧
        before.length = placeBehind anchored front ∧ State.run {} before = .ok state := by
    cases anchored with
    | false => exact ⟨_, _, body, (Nat.zero_add _).symm, ran⟩
    | true =>
        refine ⟨'^' :: front.flatMap Token.pattern,
          multiplicity.operator ++ rest.flatMap Token.pattern ++ ['$'], ?_, Nat.add_comm _ 1, ?_⟩
        · rw [enclose, if_pos rfl, anchor, body, List.append_assoc]
          rfl
        · exact (State.run_cons_of_step rfl _).trans ran
  rw [parts, ← length, Regex.Pairs, List.getElem?_append_right (Nat.le_refl _),
    List.take_left]
  simp [ranBefore, idle]

end

/-- In the expression each bracket is closed where it is closed in the glob. -/
def PairsAlike (glob : Text) (anchored : Bool) : Prop :=
  ∀ pair : Pair (tokens {} glob),
    Regex.Pairs (enclose anchored (patternFrom {} glob)) (placeBehind anchored pair.front)
      (placeBehind anchored pair.before)

section

variable {glob : Text} {anchored : Bool} {regex : Regex}

theorem exists_run_of_prefix {front rest : List Token}
    (parsed : Regex.parse (enclose anchored (patternFrom {} glob)) = .ok regex)
    (whole : tokens {} glob = front ++ rest) :
    ∃ state, (start anchored).run (front.flatMap Token.pattern) = .ok state := by
  rw [parse_enclose, patternFrom, whole, List.flatMap_append] at parsed
  cases ran : (start anchored).run (front.flatMap Token.pattern) with
  | ok state => exact ⟨state, rfl⟩
  | error error =>
      rw [State.run_append, ran] at parsed
      cases parsed

private theorem eq_of_placeBehind_eq {front other whole : List Token} (isPrefix : front <+: whole)
    (otherPrefix : other <+: whole)
    (same : placeBehind anchored front = placeBehind anchored other) : front = other := by
  have longer : ∀ {short long : List Token}, short <+: long →
      (short.flatMap Token.pattern).length = (long.flatMap Token.pattern).length →
        short = long := by
    rintro short _ ⟨rest, rfl⟩ length
    rw [List.flatMap_append, List.length_append, Nat.left_eq_add,
      List.length_eq_zero_iff] at length
    cases rest with
    | nil => exact (List.append_nil short).symm
    | cons token rest =>
        rw [List.flatMap_cons, List.append_eq_nil_iff] at length
        exact absurd length.1 token.pattern_ne_nil
  have length := Nat.add_left_cancel same
  rcases List.prefix_or_prefix_of_prefix isPrefix otherPrefix with before | behind
  · exact longer before length
  · exact (longer behind length.symm).symm

private theorem pairsAlike_of_isNested (filled : classesFilled .filled (tokens {} glob) = true)
    (parsed : Regex.parse (enclose anchored (patternFrom {} glob)) = .ok regex)
    (nests : isNested (tokens {} glob) = true) : PairsAlike glob anchored := by
  intro pair
  obtain ⟨state, ran⟩ := exists_run_of_prefix parsed pair.whole_eq
  obtain ⟨_, idle⟩ := idle_of_bracket filled pair.whole_eq (Or.inr pair.closes) ran
  obtain ⟨base, frontNests⟩ := pair.exists_frontNests nests
  exact (pairs_iff pair.whole_eq pair.closes ran idle _).mpr
    (exists_closes filled pair.whole pair.opens pair.closes frontNests (pair.nested nests) ran).2

theorem isNested_of_pairsAlike (filled : classesFilled .filled (tokens {} glob) = true)
    (parsed : Regex.parse (enclose anchored (patternFrom {} glob)) = .ok regex)
    (alike : PairsAlike glob anchored) : isNested (tokens {} glob) = true := by
  refine Decidable.byContradiction fun crosses => ?_
  obtain ⟨pair, front, opening, inner, bracket, base, before, opens, frontNests, innerNests,
    different⟩ := exists_crossing (Bool.eq_false_iff.mpr crosses)
  obtain ⟨state, ran⟩ := exists_run_of_prefix parsed pair.whole_eq
  obtain ⟨_, idle⟩ := idle_of_bracket filled pair.whole_eq (Or.inr pair.closes) ran
  obtain ⟨_, _, groups, startsPair⟩ :=
    (pairs_iff pair.whole_eq pair.closes ran idle _).mp (alike pair)
  -- The innermost group of the expression is that of the bracket opened last.
  have whole := pair.whole_eq
  rw [before] at ran
  rw [before, List.append_assoc] at whole
  obtain ⟨_, _, _, groupsLast, startsLast⟩ :=
    exists_closes filled whole opens pair.closes frontNests innerNests ran
  cases groups.symm.trans groupsLast
  have isPrefix : front <+: pair.before := before ▸ List.prefix_append _ _
  exact different
    (eq_of_placeBehind_eq isPrefix (List.prefix_append _ _) (startsLast.symm.trans startsPair))

end

/-- A group as often as the multiplicity says. -/
def Multiplicity.repeated (multiplicity : Multiplicity) (group : Regex) : Regex :=
  match multiplicity with
  | .zeroOrOne => .repetition .optional true group
  | .zeroOrMore => .repetition .star true group
  | .oneOrMore => .repetition .plus true group
  | .exactlyOne => group

/-- The item that an opening token starts, if the body stands in its bracket. -/
def Token.item (opening : Token) (body : Regex) : Regex :=
  match opening with
  | .groupOpen multiplicity => multiplicity.repeated (.group false body)
  | _ => .group true body

private theorem readsAs_group {body : Text} {branches : List Regex}
    (reads : ReadsBranches body branches)
    (multiplicity : Multiplicity) :
    ReadsAs ('(' :: '?' :: ':' :: (body ++ ')' :: multiplicity.operator))
      (multiplicity.repeated (.group false (ofBranches branches))) := by
  have suffix : ∀ operator : Text, '(' :: '?' :: ':' :: (body ++ ')' :: operator) =
      '(' :: '?' :: ':' :: (body ++ [')']) ++ operator := by simp
  rw [suffix]
  cases multiplicity with
  | zeroOrOne => exact reads.group.repeated (by simp) .optional
  | zeroOrMore => exact reads.group.repeated (by simp) .star
  | oneOrMore => exact reads.group.repeated (by simp) .plus
  | exactlyOne =>
      rw [Multiplicity.operator, List.append_nil]
      exact reads.group

private theorem Token.eq_braceClose {token : Token} (closes : token.closes? = some .braces) :
    token = .braceClose := by
  cases token with
  | braceClose => rfl
  | _ => cases closes

private theorem Token.eq_groupClose {token : Token} (closes : token.closes? = some .group) :
    ∃ multiplicity, token = .groupClose multiplicity := by
  cases token with
  | groupClose multiplicity => exact ⟨multiplicity, rfl⟩
  | _ => cases closes

section

variable {context : Context} {token : Token} {inner : List Token} {stack own : List Bracket}
  {added outer : List Multiplicity}

/-- A token that nests leaves the extended groups below its own as they are. -/
theorem groups_of_nest (groups : context.groups = added ++ outer)
    (length : added.length = stack.count .group) (nests : token.nest stack = some own) :
    ∃ more, (context.after token).groups = more ++ outer ∧ more.length = own.count .group := by
  rcases Token.nest_cases nests with
    ⟨bracket, opens, rfl⟩ | ⟨bracket, closes, rfl⟩ | ⟨notOpening, notClosing, rfl⟩
  · cases token with
    | braceOpen =>
        cases opens
        exact ⟨added, groups, by simpa using length⟩
    | groupOpen multiplicity =>
        cases opens
        exact ⟨multiplicity :: added, congrArg (multiplicity :: ·) groups, by simpa using length⟩
    | _ => cases opens
  · cases token with
    | braceClose =>
        cases closes
        exact ⟨added, groups, by simpa using length⟩
    | groupClose multiplicity =>
        cases closes
        cases added with
        | nil => simp at length
        | cons innermost added =>
            exact ⟨added, by simp [Context.after, groups], by simpa using length⟩
    | _ => cases closes
  · refine ⟨added, ?_, length⟩
    cases token with
    | groupOpen => cases notOpening
    | groupClose => cases notClosing
    | escape inClass | backslash inClass =>
        cases inClass with
        | true | false => exact groups
    | _ => exact groups

private theorem groups_of_nests (groups : context.groups = added ++ outer)
    (length : added.length = stack.count .group) (nests : nestFrom stack inner = some own) :
    ∃ more, (context.afterAll inner).groups = more ++ outer ∧
      more.length = own.count .group := by
  induction inner generalizing context stack added with
  | nil =>
      cases nests
      exact ⟨added, groups, length⟩
  | cons token inner ih =>
      obtain ⟨middle, first, rest⟩ := nestFrom_cons_eq_some.mp nests
      obtain ⟨more, moreGroups, moreLength⟩ := groups_of_nest groups length first
      exact ih moreGroups moreLength rest

end

/-- The `)` that closes an extended group is written for the multiplicity of that group. -/
theorem Pair.closing_eq {glob : Text} (pair : Pair (tokens {} glob))
    (nests : nestFrom [] pair.inner = some []) {multiplicity : Multiplicity}
    (opening : pair.opening = .groupOpen multiplicity) :
    pair.closing = .groupClose multiplicity := by
  have kind : Token.opens? (.groupOpen multiplicity) = some pair.bracket := opening ▸ pair.opens
  obtain ⟨other, closing⟩ := Token.eq_groupClose (pair.closes.trans kind.symm)
  obtain ⟨c, behind, read⟩ := exists_read_of_append pair.whole_eq
  rw [closing] at read
  obtain ⟨outer, groups⟩ := Context.groups_of_read read.symm
  -- Behind what is nested the innermost group is the one that was opened before it.
  let opened := (({} : Context).afterAll pair.front).after pair.opening
  obtain ⟨more, innerGroups, length⟩ : ∃ more : List Multiplicity,
      (opened.afterAll pair.inner).groups = more ++ opened.groups ∧ more.length = 0 :=
    groups_of_nests (show opened.groups = [] ++ opened.groups from rfl) rfl nests
  rw [List.length_eq_zero_iff.mp length, List.nil_append] at innerGroups
  have whole : ({} : Context).afterAll pair.before = opened.afterAll pair.inner := by
    rw [before, Context.afterAll_append]
    rfl
  rw [whole, innerGroups] at groups
  simp only [opened, opening, Context.after, List.cons.injEq] at groups
  rw [closing, groups.1]

theorem Pair.readsAs {glob : Text} {anchored : Bool} {regex : Regex}
    (pair : Pair (tokens {} glob)) (filled : classesFilled .filled (tokens {} glob) = true)
    (parsed : Regex.parse (enclose anchored (patternFrom {} glob)) = .ok regex)
    (nests : isNested (tokens {} glob) = true) :
    ∃ branches, ReadsBranches (pair.inner.flatMap Token.pattern) branches ∧
      ReadsAs ((pair.opening :: (pair.inner ++ [pair.closing])).flatMap Token.pattern)
        (pair.opening.item (ofBranches branches)) := by
  obtain ⟨state, ran⟩ := exists_run_of_prefix parsed pair.whole_eq
  obtain ⟨base, frontNests⟩ := pair.exists_frontNests nests
  obtain ⟨⟨alone, closed⟩, _⟩ := exists_closes filled pair.whole pair.opens pair.closes frontNests
    (pair.nested nests) ran
  have reads := Regex.readsBranches_of_closes closed
  refine ⟨_, reads, ?_⟩
  rw [List.flatMap_cons, List.flatMap_append, List.flatMap_singleton]
  cases opening : pair.opening with
  | groupOpen multiplicity =>
      rw [pair.closing_eq (pair.nested nests) opening]
      exact readsAs_group reads multiplicity
  | braceOpen =>
      have kind : Token.opens? .braceOpen = some pair.bracket := opening ▸ pair.opens
      rw [Token.eq_braceClose (pair.closes.trans kind.symm)]
      exact reads.capture
  | _ =>
      have opens := pair.opens
      rw [opening] at opens
      cases opens

/-- As long as no class is empty, the expression of a glob pairs the parentheses that are
written for braces and groups like the glob does if and only if these do not cross.  What is
repeated then is what is written in the group. -/
theorem pairsAlike_iff (glob : Text) (anchored : Bool)
    (filled : classesFilled .filled (tokens {} glob) = true) {regex : Regex}
    (parsed : Regex.parse (enclose anchored (patternFrom {} glob)) = .ok regex) :
    (PairsAlike glob anchored ↔ isNested (tokens {} glob) = true) ∧
      (PairsAlike glob anchored → ∀ pair : Pair (tokens {} glob),
        ∃ branches, ReadsBranches (pair.inner.flatMap Token.pattern) branches ∧
          ReadsAs ((pair.opening :: (pair.inner ++ [pair.closing])).flatMap Token.pattern)
            (pair.opening.item (ofBranches branches))) := by
  refine ⟨⟨isNested_of_pairsAlike filled parsed, pairsAlike_of_isNested filled parsed⟩, ?_⟩
  intro alike pair
  exact pair.readsAs filled parsed (isNested_of_pairsAlike filled parsed alike)

theorem pairsAlike_iff_interleaved :
    let glob := "\x7ba,*(b|\x7bc\x7d)@(d)\x7d".toList
    (classesFilled .filled (tokens {} glob) = true ∧ isNested (tokens {} glob) = true) ∧
      PairsAlike glob true ∧
      ∀ pair : Pair (tokens {} glob),
        ∃ branches, ReadsBranches (pair.inner.flatMap Token.pattern) branches ∧
          ReadsAs ((pair.opening :: (pair.inner ++ [pair.closing])).flatMap Token.pattern)
            (pair.opening.item (ofBranches branches)) := by
  intro glob
  have nested : isNested (tokens {} glob) = true := by
    unfold glob
    cbv
  have filled : classesFilled .filled (tokens {} glob) = true := by
    unfold glob
    cbv
  have accepted : (Regex.parse (enclose true (patternFrom {} glob))).isOk = true := by
    unfold glob
    cbv
  obtain ⟨regex, parsed⟩ := exists_of_isOk accepted
  obtain ⟨alikeIff, readsEach⟩ := pairsAlike_iff glob true filled parsed
  exact ⟨⟨filled, nested⟩, alikeIff.mpr nested, readsEach (alikeIff.mpr nested)⟩

/-- A group that is opened in braces and closed behind them is repeated with the braces, which
its `)` closes in the expression. -/
theorem not_pairsAlike_of_crossing :
    let glob := "\x7b*(a\x7db)".toList
    (¬ PairsAlike glob true ∧ isNested (tokens {} glob) = false) ∧
      enclose true (patternFrom {} glob) = "^((?:a)b)*$".toList ∧
      Regex.Pairs "^((?:a)b)*$".toList 1 8 ∧
      (Matcher.ofGlob glob true).map (·.isMatch "abab".toList) = .ok true := by
  intro glob
  have crosses : isNested (tokens {} glob) = false := by
    unfold glob
    cbv
  have filled : classesFilled .filled (tokens {} glob) = true := by
    unfold glob
    cbv
  have pattern : enclose true (patternFrom {} glob) = "^((?:a)b)*$".toList := by
    unfold glob
    cbv
  have parsed : Regex.parse (enclose true (patternFrom {} glob)) =
      .ok (Regex.anchored [.repetition .star true (.group true (ofItems
        [.group false (.atom (.literal (.plain 'a'))), .atom (.literal (.plain 'b'))]))]) := by
    rw [pattern]
    rfl
  have paired : Regex.Pairs "^((?:a)b)*$".toList 1 8 :=
    ⟨rfl, _, _, _, rfl, Or.inl rfl, rfl, rfl⟩
  have matched : (Matcher.ofGlob glob true).map (·.isMatch "abab".toList) = .ok true := by
    unfold glob
    cbv
  refine ⟨⟨?_, crosses⟩, pattern, paired, matched⟩
  intro alike
  cases crosses.symm.trans (isNested_of_pairsAlike filled parsed alike)

end Glob

end ShellGlob
