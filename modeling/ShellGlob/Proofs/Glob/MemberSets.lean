import Mathlib.Data.List.Chain
import Mathlib.Data.List.Forall2
import ShellGlob.Proofs.Glob.Classes

/-!
# The sets that members are read as

The class of the regular expression has a set for each member of the class of the glob
(`Member.ReadsAs`), in the same order.  What may still become part of a range has no set
yet (`unlisted`), so the sets of what has been read lag behind its tokens by at most two
(`Awaits.step`).  They have caught up when the class is closed (`Awaits.run_class`).

No set is made of an operator or of a class within the class: neither is ever begun.
-/

namespace ShellGlob.Glob

open Regex (State Stage Brackets Operand ClassSet)

/-- The set that a member of a class is read as. -/
inductive Member.ReadsAs : Member → ClassSet → Prop where
  | dash : ReadsAs (.single .dash) (.literal (.plain '-'))
  | operand {token : Token} {operand : Operand} :
      token.ReadsAsOperand operand → ReadsAs (.single token) operand.set
  | range {first last : Token} {low high : Regex.Literal} :
      first.ReadsAsOperand (.literal low) → last.ReadsAsOperand (.literal high) →
      ReadsAs (.range first last) (.range low high)

/-- The second class is the first one with the sets of further members. -/
structure Adds (current later : Regex.Bracket) (listed : List Member) : Prop where
  negated : later.negated = current.negated
  left : later.left = current.left
  members : ∃ sets, later.members = sets.reverse ++ current.members ∧
    List.Forall₂ Member.ReadsAs listed sets

namespace Adds

variable {current middle later : Regex.Bracket} {listed more : List Member}

theorem refl (current : Regex.Bracket) : Adds current current [] :=
  ⟨rfl, rfl, [], rfl, .nil⟩

theorem add {member : Member} {set : ClassSet} (reads : member.ReadsAs set) :
    Adds current (current.add set) [member] :=
  ⟨rfl, rfl, [set], rfl, .cons reads .nil⟩

theorem addLeading : Adds current (current.addLeading '-') [.single .dash] :=
  ⟨rfl, rfl, [_], rfl, .cons .dash .nil⟩

theorem trans (adds : Adds current middle listed) (addsMore : Adds middle later more) :
    Adds current later (listed ++ more) := by
  obtain ⟨sets, members, reads⟩ := adds.members
  obtain ⟨moreSets, moreMembers, moreReads⟩ := addsMore.members
  refine ⟨addsMore.negated.trans adds.negated, addsMore.left.trans adds.left,
    sets ++ moreSets, ?_, List.rel_append reads moreReads⟩
  rw [moreMembers, members, List.reverse_append, List.append_assoc]

end Adds

/-- A token that a class may hold behind its opening: a dash or an operand. -/
def Token.Lists (token : Token) : Prop :=
  token = .dash ∨ ∃ operand, token.ReadsAsOperand operand

/-- The tokens that are part of no set yet.  A leading dash is one at once. -/
def unlisted : Stage → List Token → List Token
  | .dashes, _ => []
  | _, awaited => awaited

section

variable {filling : Filling} {stage : Stage} {awaited : List Token} {token : Token}
  {state next last : State} {current : Regex.Bracket}

/-- Where an operand starts, those before it have their sets. -/
theorem Awaits.exists_adds (awaits : Awaits filling stage awaited)
    (notDash : ∀ first, stage ≠ .dash first) (current : Regex.Bracket) :
    ∃ before, Brackets.Begins current stage before ∧
      Adds current before (members (unlisted stage awaited)) ∧
      ∀ token behind, token ≠ .dash → members (unlisted stage awaited ++ token :: behind) =
        members (unlisted stage awaited) ++ members (token :: behind) := by
  cases awaits with
  | opened => exact ⟨current, .opened, .refl _, fun _ _ _ => rfl⟩
  | complemented => exact ⟨current, .complemented, .refl _, fun _ _ _ => rfl⟩
  | dashes => exact ⟨current, .dashes, .refl _, fun _ _ _ => rfl⟩
  | ready => exact ⟨current, .ready, .refl _, fun _ _ _ => rfl⟩
  | symbol => exact ⟨_, .symbol, .add .dash, fun _ behind apart => members_of_ne_dash apart behind⟩
  | operand reads =>
      exact ⟨_, .operand reads.1.listed, .add (.operand reads),
        fun _ behind apart => members_of_ne_dash apart behind⟩
  | dash reads => exact absurd rfl (notDash _)

/-- The token is read, and its class then has the sets of the members that it completes.
Whatever comes next is listed as it would be without them. -/
structure ListsOn (state : State) (current : Regex.Bracket) (stage : Stage) (awaited : List Token)
    (token : Token) (later : Regex.Bracket) (stageLater : Stage) (further : List Token) : Prop where
  arrives : state.ArrivesIn token.pattern later stageLater
  awaits : Awaits .filled stageLater further
  apart : further.getLast? = some .dash → token = .dash
  adds : ∃ listed, Adds current later listed ∧
    ∀ behind, (token = .dash → behind.head? ≠ some .dash) →
      members (unlisted stage awaited ++ token :: behind) =
        listed ++ members (unlisted stageLater further ++ behind)

theorem Awaits.step_operand (awaits : Awaits filling stage awaited)
    (pending : state.pending = .brackets ⟨current, [], stage⟩)
    (notDash : ∀ first, stage ≠ .dash first) {operand : Operand}
    (reads : token.ReadsAsOperand operand) (notCaret : stage = .opened → token.pattern ≠ ['^']) :
    ∃ later stageLater further,
      ListsOn state current stage awaited token later stageLater further := by
  obtain ⟨before, begins, adds, lists⟩ := awaits.exists_adds notDash current
  refine ⟨before, _, [token], State.run_operand pending begins reads.1 notCaret, .operand reads,
    Option.some.inj, _, adds, ?_⟩
  intro behind _
  exact lists token behind reads.ne_dash

/-- A range that has been read does not end before it starts. -/
theorem exists_literals_of_range {stop : Nat} {first last : Operand} {set : ClassSet}
    (ranges : Brackets.range stop first last = .ok set) :
    ∃ low high, first = .literal low ∧ last = .literal high ∧ set = .range low high := by
  cases first with
  | literal low =>
      cases last with
      | literal high =>
          simp only [Brackets.range] at ranges
          split at ranges
          · cases ranges
            exact ⟨low, high, rfl, rfl, rfl⟩
          · cases ranges
      | shorthand | boundary => cases ranges
  | shorthand | boundary => cases ranges

theorem Awaits.step_range (awaits : Awaits filling stage awaited)
    (pending : state.pending = .brackets ⟨current, [], stage⟩) {first operand : Operand}
    (dash : stage = .dash first) (reads : token.ReadsAsOperand operand)
    (ran : state.run token.pattern = .ok next) :
    ∃ later stageLater further,
      ListsOn state current stage awaited token later stageLater further := by
  subst dash
  cases awaits with
  | @dash start _ startReads =>
      obtain ⟨stop, position, readsOn⟩ := State.run_range pending reads.1
      cases ranges : Brackets.range stop first operand with
      | error error =>
          rw [ranges, ran] at readsOn
          cases readsOn
      | ok set =>
          obtain ⟨low, high, rfl, rfl, rfl⟩ := exists_literals_of_range ranges
          rw [ranges] at readsOn
          exact ⟨_, .ready, [], ⟨position, readsOn⟩, .ready, by simp, [.range start token],
            .add (.range startReads reads), fun _ _ => rfl⟩

theorem Awaits.step_dash (awaits : Awaits filling stage awaited)
    (pending : state.pending = .brackets ⟨current, [], stage⟩)
    (apart : awaited.getLast? ≠ some .dash) :
    ∃ later stageLater further,
      ListsOn state current stage awaited .dash later stageLater further := by
  have single : ∀ behind : List Token, behind.head? ≠ some .dash →
      members (.dash :: behind) = .single .dash :: members behind := by
    intro behind notDoubled
    cases behind with
    | nil => rfl
    | cons next rest => exact members_of_ne_dash (by simpa using notDoubled) rest
  have leading : ∀ behind : List Token, (Token.dash = .dash → behind.head? ≠ some .dash) →
      members (.dash :: behind) = [.single .dash] ++ members ([] ++ behind) :=
    fun behind notDoubled => single behind (notDoubled rfl)
  cases awaits with
  | opened =>
      exact ⟨_, .dashes, [.dash], State.run_dash_leading pending (Or.inl rfl), .dashes,
        fun _ => rfl, _, .addLeading, leading⟩
  | complemented =>
      exact ⟨_, .dashes, [.dash], State.run_dash_leading pending (Or.inr rfl), .dashes,
        fun _ => rfl, _, .addLeading, leading⟩
  | ready =>
      exact ⟨_, .symbol .difference, [.dash], State.run_dash_ready pending, .symbol,
        fun _ => rfl, [], .refl _, fun _ _ => rfl⟩
  | @operand token first reads =>
      exact ⟨_, .dash first, [token, .dash], State.run_dash_behind_operand pending, .dash reads,
        fun _ => rfl, [], .refl _, fun _ _ => rfl⟩
  | dashes | symbol | dash => exact absurd rfl apart

/-- Any token of a class that can be read adds the members that it completes. -/
theorem Awaits.step (awaits : Awaits filling stage awaited)
    (pending : state.pending = .brackets ⟨current, [], stage⟩) (lists : token.Lists)
    (notCaret : stage = .opened → token.pattern ≠ ['^'])
    (apart : awaited.getLast? = some .dash → token ≠ .dash)
    (ran : state.run token.pattern = .ok next) :
    ∃ later stageLater further,
      ListsOn state current stage awaited token later stageLater further := by
  rcases lists with rfl | ⟨operand, reads⟩
  · exact awaits.step_dash pending fun last => apart last rfl
  · by_cases isDash : ∃ first, stage = .dash first
    · obtain ⟨first, dash⟩ := isDash
      exact awaits.step_range pending dash reads ran
    · exact awaits.step_operand pending (fun first dash => isDash ⟨first, dash⟩) reads notCaret

/-- The set of the members that have been read up to the `]`. -/
theorem Awaits.run_classClose (awaits : Awaits .filled stage awaited)
    (pending : state.pending = .brackets ⟨current, [], stage⟩) :
    ∃ whole, state.Arrives [']'] (state.draft.push (.atom (.bracket whole.negated whole.contents)))
        state.groups ∧
      Adds current whole (members (unlisted stage awaited)) := by
  by_cases isDash : ∃ first, stage = .dash first
  · obtain ⟨first, rfl⟩ := isDash
    cases awaits with
    | dash reads =>
        exact ⟨_, State.run_classClose_behind_dash reads.1.listed pending rfl,
          (Adds.add (.operand reads)).trans (.add .dash)⟩
  · obtain ⟨before, begins, adds, _⟩ :=
      awaits.exists_adds (fun first dash => isDash ⟨first, dash⟩) current
    have begun : stage ≠ .opened ∧ stage ≠ .complemented := by
      constructor
      · rintro rfl
        cases awaits
      · rintro rfl
        cases awaits
    exact ⟨before, State.run_classClose pending begins begun.1 begun.2, adds⟩

/-- The text of a class is one item, which has a set for each member. -/
theorem Awaits.run_class {content : List Token} (awaits : Awaits filling stage awaited)
    (pending : state.pending = .brackets ⟨current, [], stage⟩)
    (written : content = [] → filling = .filled)
    (lists : ∀ token ∈ content, token.Lists)
    (apart : content.IsChain fun token next => token = .dash → next ≠ .dash)
    (begins : awaited.getLast? = some .dash → content.head? ≠ some .dash)
    (notCaret : stage = .opened → ∀ token ∈ content.head?, token.pattern ≠ ['^'])
    (ran : state.run (content.flatMap Token.pattern ++ [']']) = .ok last) :
    ∃ position whole, last = ⟨position,
        state.draft.push (.atom (.bracket whole.negated whole.contents)), state.groups, .nothing⟩ ∧
      Adds current whole (members (unlisted stage awaited ++ content)) := by
  induction content generalizing filling stage awaited state current with
  | nil =>
      obtain rfl := written rfl
      obtain ⟨whole, ⟨position, closes⟩, adds⟩ := awaits.run_classClose pending
      rw [List.append_nil]
      exact ⟨position, whole, Except.ok.inj (ran.symm.trans closes), adds⟩
  | cons token content ih =>
      rw [List.flatMap_cons, List.append_assoc] at ran
      obtain ⟨middle, ranToken, ranRest⟩ := State.run_append_eq_ok.mp ran
      obtain ⟨later, stageLater, further, ⟨position, arrives⟩, awaitsLater, apartLater,
          listed, adds, same⟩ :=
        awaits.step pending (lists token List.mem_cons_self)
          (fun opened => notCaret opened token rfl)
          (fun isLast isDash => begins isLast (congrArg some isDash)) ranToken
      obtain ⟨apartToken, apartRest⟩ := List.isChain_cons.mp apart
      have notDoubled : token = .dash → content.head? ≠ some .dash :=
        fun isDash next => apartToken .dash next isDash rfl
      cases ranToken.symm.trans arrives
      obtain ⟨lastPosition, whole, same', addsRest⟩ := ih awaitsLater rfl (fun _ => rfl)
        (fun other member => lists other (List.mem_cons_of_mem _ member)) apartRest
        (fun isLast => notDoubled (apartLater isLast))
        (fun opened => by rw [opened] at awaitsLater; cases awaitsLater) ranRest
      refine ⟨lastPosition, whole, same', ?_⟩
      rw [same content notDoubled]
      exact adds.trans addsRest

end

theorem Adds.exists_contents {whole : Regex.Bracket} {start : Nat} {negated : Bool}
    {listed : List Member} (adds : Adds { start := start, negated := negated } whole listed) :
    whole.negated = negated ∧ ∃ sets, whole.contents = .ofMembers sets ∧
      List.Forall₂ Member.ReadsAs listed sets := by
  obtain ⟨sets, members, reads⟩ := adds.members
  refine ⟨adds.negated, sets, ?_, reads⟩
  rw [Regex.Bracket.contents, adds.left, members, List.append_nil, List.reverse_reverse]

/-- A class is read as the sets of its members, whether or not it is complemented. -/
theorem run_bracket {state last : State} (idle : state.Idle) {complemented : Bool}
    {content : List Token} (written : content ≠ []) (lists : ∀ token ∈ content, token.Lists)
    (apart : content.IsChain fun token next => token = .dash → next ≠ .dash)
    (notCaret : complemented = false → ∀ token ∈ content.head?, token.pattern ≠ ['^'])
    (ran : state.run
      (ClassSet.opening complemented ++ (content.flatMap Token.pattern ++ [']'])) = .ok last) :
    ∃ position sets,
      last = ⟨position, state.draft.push (.atom (.bracket complemented (.ofMembers sets))),
        state.groups, .nothing⟩ ∧
      List.Forall₂ Member.ReadsAs (members content) sets := by
  have opened := State.step_of_idle idle (c := '[') (by decide) rfl
  cases complemented with
  | false =>
      have readsOn := (State.run_cons_of_step opened _).symm.trans ran
      obtain ⟨position, whole, rfl, adds⟩ := Awaits.opened.run_class rfl
        (fun empty => absurd empty written) lists apart (by simp) (fun _ => notCaret rfl) readsOn
      obtain ⟨negated, sets, contents, reads⟩ := adds.exists_contents
      exact ⟨position, sets, by rw [negated, contents], reads⟩
  | true =>
      have readsOn := (State.run_cons_of_step opened _).symm.trans ran
      obtain ⟨middle, complements, readsOn⟩ := State.run_cons_eq_ok.mp readsOn
      cases complements
      obtain ⟨position, whole, rfl, adds⟩ := Awaits.complemented.run_class rfl
        (fun empty => absurd empty written) lists apart (by simp)
        (fun opened => by cases opened) readsOn
      obtain ⟨negated, sets, contents, reads⟩ := adds.exists_contents
      exact ⟨position, sets, by rw [negated, contents], reads⟩

end ShellGlob.Glob
