import Mathlib
import ShellGlob.Proofs.Glob.MemberSets
import ShellGlob.Proofs.Glob.PatternEnds
import ShellGlob.Proofs.Glob.WholeCandidate
import ShellGlob.Proofs.Regex.Features

/-!
# No other features

No glob without empty classes reaches a feature of regular expressions that its syntax does
not stand for.  Its pattern is an expression with the documented features only, or one of
the four things is wrong with it that can be wrong with a glob
(`parse_pattern?_isDocumented`).

Token by token, what has been read is documented, its groups are those that the glob has
opened, and an open class holds nothing but single members (`Documented`).  Each token is
read as a whole item or as an end of one, so no operator is read as part of another, and
no dash or bracket within a class as part of an operator or a class.
-/

namespace ShellGlob.Glob

open Regex (State Stage Brackets Operand ClassSet ReadsAs)

/-- The item has only documented features, and no groups. -/
def IsPlainItem (item : Regex) : Prop :=
  item.isDocumented .item = true ∧ item.groups = []

private theorem isPlainItem_of_ofEscaped? {c : Char} {operand : Operand}
    (known : Operand.ofEscaped? c = some operand) : IsPlainItem operand.regex := by
  unfold Operand.ofEscaped? at known
  split at known
  · split at known
    · cases known
    · cases known
      exact ⟨rfl, rfl⟩
  split at known
  all_goals first
    | cases known
      exact ⟨rfl, rfl⟩
    | obtain ⟨shorthand, _, rfl⟩ := Option.map_eq_some_iff.mp known
      exact ⟨rfl, rfl⟩

theorem exists_readsAs_escaped {c : Char} {operand : Operand}
    (known : Operand.ofEscaped? c = some operand) (notHexadecimal : c ≠ 'x') :
    ∃ item, ReadsAs ['\\', c] item ∧ IsPlainItem item :=
  ⟨_, Regex.readsAs_escaped known notHexadecimal, isPlainItem_of_ofEscaped? known⟩

theorem exists_readsAs_escapePattern (escaped : Char) :
    ∃ item, ReadsAs (escapePattern false escaped) item ∧ IsPlainItem item := by
  by_cases special : escaped ∈ ['b', 'B', 'd', 'w', 's', 'D', 'W', 'S', 'n', 'r', 't']
  · simp only [List.mem_cons, List.not_mem_nil, or_false] at special
    rcases special with rfl | rfl | rfl | rfl | rfl | rfl | rfl | rfl | rfl | rfl | rfl
    all_goals exact exists_readsAs_escaped rfl (by decide)
  simp only [List.mem_cons, List.not_mem_nil, or_false, not_or] at special
  by_cases angle : escaped = '<' ∨ escaped = '>'
  · rcases angle with rfl | rfl
    all_goals exact ⟨_, Regex.readsAs_literal rfl, rfl, rfl⟩
  by_cases punctuation : isPunctuation escaped = true
  · have pattern : escapePattern false escaped = ['\\', escaped] := by
      simp [escapePattern, special, angle, punctuation]
    rw [pattern]
    refine exists_readsAs_escaped (ofEscaped?_of_isPunctuation punctuation angle) ?_
    rintro rfl
    exact absurd punctuation (by decide)
  · have pattern : escapePattern false escaped = [escaped] := by
      simp [escapePattern, special, angle, punctuation]
    rw [pattern]
    exact ⟨_, Regex.readsAs_literal
      (isOperator_of_not_isPunctuation (by simpa using punctuation)), rfl, rfl⟩

private theorem isPlainItem_literal (c : Char) :
    IsPlainItem (.atom (.literal (.ofCharacter c))) := by
  unfold Regex.Literal.ofCharacter
  split
  · exact ⟨rfl, rfl⟩
  · exact ⟨rfl, rfl⟩

theorem ordinary_of_read {context : Context} (outside : context.classPart = none) {c d : Char}
    {rest : Text} (read : context.read c rest = .literal d) : d ∉ ['*', '?', '['] := by
  have written := context.source_read_append c rest
  rw [read] at written
  obtain rfl : d = c := (List.cons.inj written).1
  intro special
  have notEscape : d ≠ '\\' := by
    rintro rfl
    exact absurd special (by decide)
  cases opened : Multiplicity.opening? d rest with
  | some multiplicity =>
      rw [Context.read_opening notEscape outside opened] at read
      cases read
  | none =>
      rw [Context.read_plain notEscape outside opened] at read
      simp only [List.mem_cons, List.not_mem_nil, or_false] at special
      rcases special with rfl | rfl | rfl
      · simp only [Token.readPlain] at read
        unfold Token.readStar at read
        split at read
        all_goals cases read
      · cases read
      · cases read

private theorem Member.ReadsAs.isSingle {member : Member} {set : ClassSet}
    (reads : member.ReadsAs set) :
    set.isSingle = true := by
  cases reads with
  | dash | range => rfl
  | @operand token operand reads =>
      cases operand with
      | literal | shorthand => rfl
      | boundary negated => exact absurd rfl (reads.1.listed negated)

private theorem isSingle_of_reads {listed : List Member} {sets : List ClassSet}
    (reads : List.Forall₂ Member.ReadsAs listed sets) : ∀ set ∈ sets, set.isSingle = true := by
  induction reads with
  | nil => simp
  | cons read _ ih => exact List.forall_mem_cons.mpr ⟨read.isSingle, ih⟩

/-- The class has no operator and no class within it, and where its last member is complete
there is one. -/
structure FlatSoFar (stage : Stage) (current : Regex.Bracket) : Prop where
  left : current.left = none
  single : ∀ member ∈ current.members, member.isSingle = true
  written : stage = .ready ∨ stage = .dashes → current.members ≠ []

section

variable {filling : Filling} {stage stageLater : Stage} {awaited further : List Token}
  {token : Token} {state : State} {current later : Regex.Bracket} {listed : List Member}

theorem members_ne_nil {content : List Token} (written : content ≠ []) : members content ≠ [] := by
  fun_cases members content with
  | case1 | case2 => exact List.cons_ne_nil _ _
  | case3 => exact absurd rfl written

theorem FlatSoFar.adds (flat : FlatSoFar stage current) (adds : Adds current later listed)
    (written : stageLater = .ready ∨ stageLater = .dashes → listed ≠ [] ∨ current.members ≠ []) :
    FlatSoFar stageLater later := by
  obtain ⟨sets, members, reads⟩ := adds.members
  refine ⟨adds.left.trans flat.left, ?_, ?_⟩
  · intro member inLater
    rw [members] at inLater
    rcases List.mem_append.mp inLater with added | before
    · exact isSingle_of_reads reads member (List.mem_reverse.mp added)
    · exact flat.single member before
  · intro complete
    rw [members]
    rcases written complete with some | some
    · cases reads with
      | nil => exact absurd rfl some
      | cons => simp
    · simp [some]

private theorem FlatSoFar.listsOn (flat : FlatSoFar stage current)
    (lists : ListsOn state current stage awaited token later stageLater further) :
    FlatSoFar stageLater later := by
  obtain ⟨listed, adds, same⟩ := lists.adds
  refine flat.adds adds fun complete => Or.inl ?_
  have caughtUp : unlisted stageLater further = [] := by
    have awaits := lists.awaits
    rcases complete with rfl | rfl
    · cases awaits
      rfl
    · rfl
  have whole := same [] (by simp)
  rw [caughtUp] at whole
  intro none
  rw [none] at whole
  exact members_ne_nil (by simp) whole

private theorem FlatSoFar.closed (flat : FlatSoFar stage current)
    (awaits : Awaits .filled stage awaited)
    (adds : Adds current later (members (unlisted stage awaited))) :
    later.contents.isFlat = true := by
  have some : members (unlisted stage awaited) ≠ [] ∨ current.members ≠ [] := by
    cases awaits with
    | dashes => exact Or.inr (flat.written (Or.inr rfl))
    | ready => exact Or.inr (flat.written (Or.inl rfl))
    | symbol | operand | dash => exact Or.inl (members_ne_nil (by simp [unlisted]))
  have whole : FlatSoFar .ready later := flat.adds adds fun _ => some
  rw [Regex.Bracket.contents, whole.left]
  apply Regex.isFlat_ofMembers
  · simpa using whole.written (Or.inl rfl)
  · intro member inLater
    exact whole.single member (List.mem_reverse.mp inLater)

end

/-- Whether the token opens a group, and whether that group captures. -/
def Token.group? : Token → Option Bool
  | .braceOpen => some true
  | .groupOpen _ => some false
  | _ => none

/-- What has been read has only documented features, and its groups are the given ones. -/
structure Documented (opened : List Bool) (state : State) : Prop where
  shares : state.IsDocumented
  captures : state.captures = opened
  flat : ∀ current stage, state.pending = .brackets ⟨current, [], stage⟩ →
    FlatSoFar stage current

section

variable {opened : List Bool} {state next : State}

theorem flat_of_idle (idle : state.Idle) {current : Regex.Bracket} {stage : Stage}
    (pending : state.pending = .brackets ⟨current, [], stage⟩) : FlatSoFar stage current := by
  rcases idle with nothing | parenthesis
  · cases nothing.symm.trans pending
  · cases parenthesis.symm.trans pending

theorem Documented.push (documented : Documented opened state) {item : Regex}
    (plain : IsPlainItem item) (position : Nat) :
    Documented opened ⟨position, state.draft.push item, state.groups, .nothing⟩ := by
  refine ⟨⟨Regex.Hereditary.push documented.shares.draft plain.1, documented.shares.outside⟩,
    ?_, fun _ _ => flat_of_idle (Or.inl rfl)⟩
  rw [← documented.captures]
  simp [State.captures, Regex.Draft.captures_push, plain.2]

theorem Documented.reading (documented : Documented opened state) {current : Regex.Bracket}
    {stage : Stage} (flat : FlatSoFar stage current) (position : Nat) :
    Documented opened
      ⟨position, state.draft, state.groups, .brackets ⟨current, [], stage⟩⟩ := by
  refine ⟨⟨documented.shares.draft, documented.shares.outside⟩, documented.captures, ?_⟩
  intro other otherStage pending
  cases pending
  exact flat

private theorem Documented.run_item (documented : Documented opened state) {pattern : Text}
    {item : Regex}
    (readsAs : ReadsAs pattern item) (plain : IsPlainItem item) (idle : state.Idle)
    (ran : state.run pattern = .ok next) : Documented opened next := by
  obtain ⟨position, arrives⟩ := readsAs state idle
  cases ran.symm.trans arrives
  exact documented.push plain position

private theorem Documented.run_opening (documented : Documented opened state) (idle : state.Idle)
    {pattern : Text} (opening : pattern = ['('] ∨ pattern = ['(', '?', ':'])
    (ran : state.run pattern = .ok next) :
    Documented (opened ++ [decide (pattern = ['('])]) next := by
  obtain ⟨after, group, opens, afterIdle, groups, outside, draft, capturing⟩ :=
    Glob.run_opening idle opening
  cases ran.symm.trans opens
  refine ⟨⟨?_, ?_⟩, ?_, fun _ _ => flat_of_idle afterIdle⟩
  · rw [draft]
    exact Regex.Hereditary.shares_empty
  · rw [groups]
    exact List.forall_mem_cons.mpr ⟨outside ▸ documented.shares.draft, documented.shares.outside⟩
  · rw [← documented.captures, ← capturing]
    simp [State.captures, groups, draft, outside, Regex.Draft.captures]

private theorem Documented.run_separator (documented : Documented opened state) (idle : state.Idle)
    (ran : state.run ['|'] = .ok next) : Documented opened next := by
  obtain ⟨after, separates, afterIdle, draft, groups⟩ := Glob.run_separator idle
  cases ran.symm.trans separates
  have last : (Regex.ofItems state.draft.items.reverse).isDocumented .branch = true :=
    Regex.isDocumented_ofItems fun item member =>
      documented.shares.draft.items item (List.mem_reverse.mp member)
  refine ⟨⟨?_, groups ▸ documented.shares.outside⟩, ?_, fun _ _ => flat_of_idle afterIdle⟩
  · rw [draft]
    exact ⟨by simp [Regex.Draft.split],
      List.forall_mem_cons.mpr ⟨last, documented.shares.draft.branches⟩⟩
  · rw [← documented.captures, State.captures, State.captures, draft, groups,
      Regex.Draft.captures_split]

theorem Multiplicity.isDocumented_item (multiplicity : Multiplicity) (capturing : Bool)
    {body : Regex} (documented : body.isDocumented .group = true) :
    (multiplicity.item (.group capturing body)).isDocumented .item = true := by
  cases multiplicity with
  | exactlyOne | zeroOrOne | zeroOrMore | oneOrMore => exact documented

theorem Multiplicity.groups_item (multiplicity : Multiplicity) (capturing : Bool) (body : Regex) :
    (multiplicity.item (.group capturing body)).groups = capturing :: body.groups := by
  cases multiplicity with
  | zeroOrOne | zeroOrMore | oneOrMore | exactlyOne => rfl

private theorem Documented.run_closing (documented : Documented opened state) (idle : state.Idle)
    (multiplicity : Multiplicity) (ran : state.run (')' :: multiplicity.operator) = .ok next) :
    Documented opened next := by
  obtain ⟨innermost, outer, groups⟩ :=
    List.exists_cons_of_ne_nil (groups_ne_nil_of_run_closing idle ran)
  obtain ⟨position, closes⟩ := Glob.run_closing idle groups multiplicity
  cases ran.symm.trans closes
  obtain ⟨shares, outside⟩ := documented.shares
  rw [groups] at outside
  obtain ⟨innermostShares, outerShares⟩ := List.forall_mem_cons.mp outside
  have item := multiplicity.isDocumented_item innermost.capturing (Regex.isDocumented_regex shares)
  refine ⟨⟨Regex.Hereditary.push innermostShares item, outerShares⟩, ?_,
    fun _ _ => flat_of_idle (Or.inl rfl)⟩
  rw [← documented.captures]
  simp [State.captures, Regex.Draft.captures_push, multiplicity.groups_item,
    Regex.Draft.groups_regex, groups]

/-- Every token outside of classes is an item, opens or closes a group, or separates
branches. -/
theorem Documented.run_token (documented : Documented opened state) (idle : state.Idle)
    {token : Token} (outside : token.ofClass = false)
    (ordinary : ∀ c, token = .literal c → c ∉ ['*', '?', '['])
    (ran : state.run token.pattern = .ok next) :
    Documented (opened ++ token.group?.toList) next := by
  have item : ∀ {item : Regex}, token.group? = none → ReadsAs token.pattern item →
      IsPlainItem item → Documented (opened ++ token.group?.toList) next := by
    intro item noGroup readsAs plain
    rw [noGroup, Option.toList_none, List.append_nil]
    exact documented.run_item readsAs plain idle ran
  have kept : token.group? = none → Documented opened next →
      Documented (opened ++ token.group?.toList) next := by
    intro noGroup documented
    rwa [noGroup, Option.toList_none, List.append_nil]
  cases token with
  | escape inClass escaped =>
      cases outside
      obtain ⟨_, readsAs, plain⟩ := exists_readsAs_escapePattern escaped
      exact item rfl readsAs plain
  | backslash =>
      obtain ⟨_, readsAs, plain⟩ := exists_readsAs_escaped (c := '\\') rfl (by decide)
      exact item rfl readsAs plain
  | classOpen | classClose | complement | member => cases outside
  | groupOpen => exact documented.run_opening idle (Or.inr rfl) ran
  | braceOpen => exact documented.run_opening idle (Or.inl rfl) ran
  | groupClose multiplicity => exact kept rfl (documented.run_closing idle multiplicity ran)
  | braceClose => exact kept rfl (documented.run_closing idle .exactlyOne ran)
  | comma | bar => exact kept rfl (documented.run_separator idle ran)
  | tree => exact item rfl (Regex.readsAs_dot.repeated (by simp) .star) ⟨rfl, rfl⟩
  | star => exact item rfl (readsAs_segmentCharacter.repeated (by simp) .star) ⟨rfl, rfl⟩
  | one => exact item rfl readsAs_segmentCharacter ⟨rfl, rfl⟩
  | literal c => exact item rfl (readsAs_literalPattern (ordinary c rfl)) (isPlainItem_literal c)

private theorem Documented.step_outside (documented : Documented opened state) (idle : state.Idle)
    {context : Context} (outside : context.classPart = none) {c : Char} {rest : Text}
    (ran : state.run (context.read c rest).pattern = .ok next) :
    Documented (opened ++ (context.read c rest).group?.toList) next := by
  rcases Context.read_outside outside c rest with opens | ofClass
  · rw [opens] at ran ⊢
    have bracket := State.step_of_idle idle (c := '[') (by decide) rfl
    cases ran.symm.trans (State.run_cons_of_step bracket [])
    have noGroup : Token.classOpen.group? = none := rfl
    rw [noGroup, Option.toList_none, List.append_nil]
    exact documented.reading ⟨rfl, by simp, by simp⟩ _
  · exact documented.run_token idle ofClass (fun _ read => ordinary_of_read outside read) ran

end

private theorem group?_of_inside {context : Context} {part : ClassPart}
    (inside : context.classPart = some part) (c : Char) (rest : Text) :
    (context.read c rest).group? = none := by
  by_cases escape : c = '\\'
  · rw [Context.read, if_pos escape]
    cases rest with
    | nil | cons => rfl
  · rw [Context.read_member inside escape]
    unfold Token.readMember
    repeat' split
    all_goals rfl

/-- A token within a class completes members of it, or the class itself. -/
theorem Documented.step_inside {opened : List Bool} {context : Context} {filling : Filling}
    {awaited : List Token} {state next : State} (documented : Documented opened state)
    (follows : Follows context filling awaited state) {part : ClassPart}
    (inside : context.classPart = some part) {c : Char} {rest : Text}
    (filled : context.read c rest = .classClose → filling = .filled)
    (apart : awaited.getLast? = some .dash → context.read c rest ≠ .dash)
    (ran : state.run (context.read c rest).pattern = .ok next) :
    Documented opened next := by
  obtain ⟨_, ⟨outside, _⟩ | ⟨_, current, stage, located, leading, pending, awaits⟩⟩ := follows
  · cases inside.symm.trans outside
  cases inside.symm.trans located
  have flat := documented.flat current stage pending
  have listed : (context.read c rest).Lists →
      ¬ (filling = .opened ∧ (context.read c rest).pattern = ['^']) → Documented opened next := by
    intro lists notCaret
    have plain : stage = .opened → (context.read c rest).pattern ≠ ['^'] := by
      rintro rfl caret
      exact notCaret ⟨awaits.filling_eq_opened, caret⟩
    obtain ⟨later, stageLater, further, listsOn⟩ := awaits.step pending lists plain apart ran
    obtain ⟨position, arrives⟩ := listsOn.arrives
    cases ran.symm.trans arrives
    exact documented.reading (flat.listsOn listsOn) position
  by_cases caret : filling = .opened ∧ (context.read c rest).pattern = ['^']
  · obtain ⟨rfl, pattern⟩ := caret
    cases awaits with
    | opened =>
        obtain ⟨position, arrives⟩ := State.run_reading (c := '^') pending fun _ => rfl
        rw [pattern] at ran
        cases ran.symm.trans arrives
        have complemented : FlatSoFar .complemented { current with negated := true } :=
          ⟨flat.left, flat.single, by simp⟩
        exact documented.reading complemented position
  rcases Context.operand_read inside c rest with
    closing | ⟨dash, _⟩ | ⟨complement, isLeading⟩ | operand
  · obtain rfl := filled closing
    obtain ⟨whole, ⟨position, arrives⟩, adds⟩ := awaits.run_classClose pending
    rw [closing] at ran
    cases ran.symm.trans arrives
    have plain : IsPlainItem (.atom (.bracket whole.negated whole.contents)) :=
      ⟨flat.closed awaits adds, rfl⟩
    exact documented.push plain position
  · exact listed (Or.inl dash) caret
  · exact absurd ⟨leading isLeading, by rw [complement]; rfl⟩ caret
  · exact listed (Or.inr operand) caret

theorem Documented.step {opened : List Bool} {context : Context} {filling : Filling}
    {awaited : List Token} {state next : State} (documented : Documented opened state)
    (follows : Follows context filling awaited state) {c : Char} {rest : Text}
    (filled : context.read c rest = .classClose → filling = .filled)
    (apart : awaited.getLast? = some .dash → context.read c rest ≠ .dash)
    (ran : state.run (context.read c rest).pattern = .ok next) :
    Documented (opened ++ (context.read c rest).group?.toList) next := by
  cases location : context.classPart with
  | none =>
      obtain ⟨_, ⟨_, idle, _⟩ | ⟨_, _, _, inside, _⟩⟩ := follows
      · exact documented.step_outside idle location ran
      · cases location.symm.trans inside
  | some part =>
      rw [group?_of_inside location, Option.toList_none, List.append_nil]
      exact documented.step_inside follows location filled apart ran

/-- Whatever can be read of the tokens is documented. -/
theorem Documented.run {opened : List Bool} {context : Context} {filling : Filling}
    {awaited front : List Token} {state last : State} {text : Text}
    (documented : Documented opened state) (follows : Follows context filling awaited state)
    (isPrefix : front <+: tokens context text) (filled : classesFilled filling front = true)
    (apart : awaited.getLast? = some .dash → front.head? ≠ some .dash)
    (ran : state.run (front.flatMap Token.pattern) = .ok last) :
    Documented (opened ++ front.filterMap Token.group?) last := by
  induction front generalizing opened context filling awaited state text with
  | nil =>
      cases ran
      simpa using documented
  | cons token front ih =>
      obtain ⟨tokenFilled, restFilled⟩ := classesFilled_cons_iff.mp filled
      rw [List.flatMap_cons] at ran
      obtain ⟨middle, ranToken, ranRest⟩ := State.run_append_eq_ok.mp ran
      rcases follows.step_of_isPrefix isPrefix tokenFilled apart with
        ⟨next, further, later, readsToken, continues, laterPrefix, laterApart⟩ |
        ⟨error, failed, _⟩
      · cases ranToken.symm.trans readsToken
        have stepped : Documented (opened ++ token.group?.toList) middle := by
          obtain ⟨c, rest, rfl, _⟩ := exists_read_of_isPrefix isPrefix
          exact documented.step follows tokenFilled
            (fun isLast isDash => apart isLast (congrArg some isDash)) ranToken
        have whole := ih stepped continues.follows laterPrefix restFilled laterApart ranRest
        have listed : (token :: front).filterMap Token.group? =
            token.group?.toList ++ front.filterMap Token.group? := by
          cases group : token.group? with
          | none | some => simp [group]
        rwa [listed, ← List.append_assoc]
      · cases ranToken.symm.trans failed

/-- The pattern of a glob without empty classes has only the features that the syntax of
globs stands for, and the groups that the glob opens.  It may only leave something open, or
have a range that is refused. -/
theorem parse_pattern?_isDocumented {glob pattern : Text}
    (filled : classesFilled .filled (tokens {} glob) = true)
    (written : pattern? glob false = some pattern) :
    (∃ regex, Regex.parse pattern = .ok regex ∧ regex.isDocumented .branch = true ∧
        regex.groups = (tokens {} glob).filterMap Token.group?) ∨
      ∃ error, Regex.parse pattern = .error error ∧ error.cause ∈ readingCauses := by
  obtain rfl : patternFrom {} glob = pattern := by
    rw [← getD_pattern?, written]
    rfl
  rcases parse_enclose_patternFrom glob false filled with
    ⟨regex, parsed, closed, _⟩ | ⟨error, failed, cause, _⟩
  · left
    have start : Documented [] {} :=
      ⟨⟨Regex.Hereditary.shares_empty, by simp⟩, rfl, fun _ _ pending => by cases pending⟩
    obtain ⟨last, ran, _, groups, whole⟩ := Regex.exists_run_of_parse parsed
    have documented := start.run (follows_start false .filled) (List.prefix_refl _) filled
      (by simp) ran
    obtain ⟨_, items, reads⟩ :=
      reads_of_leaves (Context.eq_of_not_isOpen closed) filled (Or.inl rfl) ran
    -- Nothing divides the whole into branches, so it is its items in a row.
    obtain ⟨same, readsOn, _, draft, _⟩ := reads {} (Or.inl rfl)
    cases readsOn.symm.trans ran
    have undivided : last.draft.branches = [] := congrArg Regex.Draft.branches draft
    refine ⟨regex, parsed, ?_, ?_⟩
    · rw [← whole, Regex.Draft.regex_of_branches_eq_nil undivided]
      apply Regex.isDocumented_ofItems
      exact fun item member => documented.shares.draft.items item (List.mem_reverse.mp member)
    · have captures := documented.captures
      rw [State.captures, groups] at captures
      rw [← whole, Regex.Draft.groups_regex]
      exact captures
  · exact Or.inr ⟨error, failed, cause⟩

theorem parse_pattern?_isDocumented_lookalikes :
    let glob := "\x7b*(\\d|[!a--c[:&&]?),**?\x7d+(^$)".toList
    let pattern := "((?:\\d|[^a\\--c\\[:\\&\\&][^/\\\\])*|.*[^/\\\\])(?:\\^\\$)+".toList
    pattern? glob false = some pattern ∧
      ∃ regex, Regex.parse pattern = .ok regex ∧ regex.isDocumented .branch = true ∧
        regex.groups = [true, false, false] := by
  intro glob pattern
  have filled : classesFilled .filled (tokens {} glob) = true := by
    simp only [glob]
    cbv
  have written : pattern? glob false = some pattern := by
    simp only [glob, pattern]
    cbv
  have opened : (tokens {} glob).filterMap Token.group? = [true, false, false] := by
    simp only [glob]
    cbv
  have accepted : (Regex.parse pattern).isOk = true := by
    simp only [pattern]
    cbv
  refine ⟨written, ?_⟩
  rcases parse_pattern?_isDocumented filled written with
    ⟨regex, parsed, documented, groups⟩ | ⟨error, failed, _⟩
  · exact ⟨regex, parsed, documented, groups.trans opened⟩
  · rw [failed] at accepted
    cases accepted

end ShellGlob.Glob
