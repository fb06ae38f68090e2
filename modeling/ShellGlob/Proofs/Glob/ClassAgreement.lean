import Mathlib
import ShellGlob.Proofs.Glob.Refusal

/-!
# Classes of the glob and of its pattern

While a glob is read its pattern is written, and at every point of the way each of them
is in a class or is not.  They agree on this exactly as long as no class is closed
without a member (`agreeOnClasses_iff`).

The `]` that closes an empty class is a member of the class in the pattern, for regular
expressions take a `]` directly behind `[` or `[^` as one.  What follows it in the glob
is then outside of the class, and in the pattern it still is within.
-/

namespace ShellGlob.Glob

open Regex (State Stage Brackets ParseError)

/-- Behind each of the tokens whose pattern can be read, a class is open in the regular
expression if and only if one is open in the glob. -/
def AgreeOnClasses (context : Context) (state : State) (front : List Token) : Prop :=
  ∀ before, before <+: front → ∀ middle, state.run (before.flatMap Token.pattern) = .ok middle →
    middle.inClass = (context.afterAll before).inClass

section

variable {context : Context} {filling : Filling} {awaited front : List Token} {state : State}
  {token : Token}

private theorem AgreeOnClasses.tail {next : State}
    (agree : AgreeOnClasses context state (token :: front))
    (ran : state.run token.pattern = .ok next) :
    AgreeOnClasses (context.after token) next front := by
  intro before isPrefix middle readsOn
  have whole : state.run ((token :: before).flatMap Token.pattern) = .ok middle := by
    rw [List.flatMap_cons, State.run_append_of_run ran, readsOn]
  exact agree (token :: before) (List.cons_prefix_cons.mpr ⟨rfl, isPrefix⟩) middle whole

private theorem Context.read_ne_classClose (outside : context.classPart = none) (c : Char)
    (rest : Text) :
    context.read c rest ≠ .classClose := by
  intro closing
  have writes := context.source_read_append c rest
  rw [closing] at writes
  obtain ⟨rfl, -⟩ := List.cons.inj writes
  cases opened : Multiplicity.opening? ']' rest with
  | some multiplicity =>
      rw [Context.read_opening (by decide) outside opened] at closing
      cases closing
  | none =>
      rw [Context.read_plain (by decide) outside opened] at closing
      cases closing

private theorem Follows.inClass_eq (follows : Follows context filling awaited state) :
    state.inClass = context.inClass := by
  obtain ⟨_, ⟨outside, idle, _⟩ | ⟨_, _, _, inside, _, pending, _⟩⟩ := follows
  · rw [Context.inClass, outside]
    rcases idle with nothing | parenthesis
    · rw [State.inClass, nothing]
      rfl
    · rw [State.inClass, parenthesis]
      rfl
  · rw [Context.inClass, inside, State.inClass, pending]
    rfl

/-- A `]` that closes an empty class of the glob is a member of the class in the
pattern. -/
theorem Follows.run_classClose_of_empty (follows : Follows context filling awaited state)
    (inside : context.inClass = true) (empty : filling ≠ .filled) :
    ∃ next, state.run (Token.classClose).pattern = .ok next ∧ next.inClass = true := by
  obtain ⟨_, ⟨outside, _⟩ | ⟨_, current, stage, _, _, pending, awaits⟩⟩ := follows
  · rw [Context.inClass, outside] at inside
    cases inside
  · have listed : ∀ position, (⟨current, [], stage⟩ : Brackets).step position ']' =
        .ok (.reading ⟨current.addLeading ']', [], .ready⟩) := by
      intro position
      cases awaits with
      | opened | complemented => rfl
      | _ => exact absurd rfl empty
    obtain ⟨position, ran⟩ := State.run_reading pending listed
    exact ⟨_, ran, rfl⟩

private theorem Follows.agreeOnClasses {text : Text}
    (follows : Follows context filling awaited state)
    (isPrefix : front <+: tokens context text) (filled : classesFilled filling front = true)
    (apart : awaited.getLast? = some .dash → front.head? ≠ some .dash) :
    AgreeOnClasses context state front := by
  intro before beforeFront middle ran
  have beforeApart : awaited.getLast? = some .dash → before.head? ≠ some .dash := by
    intro last dash
    obtain ⟨rest, rfl⟩ := List.head?_eq_some_iff.mp dash
    obtain ⟨behind, rfl⟩ := beforeFront
    exact apart last rfl
  rcases follows.run (beforeFront.trans isPrefix) (classesFilled_of_isPrefix beforeFront filled)
    beforeApart with ⟨last, _, _, reached, followsLast, _⟩ | ⟨error, failed, _⟩
  · cases ran.symm.trans reached
    exact followsLast.inClass_eq
  · cases ran.symm.trans failed

theorem Follows.classesFilled_of_agree {last : State} {text : Text}
    (follows : Follows context filling awaited state) (isPrefix : front <+: tokens context text)
    (apart : awaited.getLast? = some .dash → front.head? ≠ some .dash)
    (ran : state.run (front.flatMap Token.pattern) = .ok last)
    (agree : AgreeOnClasses context state front) : classesFilled filling front = true := by
  induction front generalizing context filling awaited state text with
  | nil => rfl
  | cons token front ih =>
      have tokenFilled : token = .classClose → filling = .filled := by
        rintro rfl
        refine Decidable.byContradiction fun empty => ?_
        have inside : context.inClass = true := by
          obtain ⟨c, rest, read, _⟩ := exists_read_of_isPrefix isPrefix
          rw [Context.inClass, Option.isSome_iff_ne_none]
          exact fun outside => Context.read_ne_classClose outside c rest read.symm
        obtain ⟨next, listed, stillInside⟩ := follows.run_classClose_of_empty inside empty
        have same := agree [.classClose] (by simp) next (by simpa using listed)
        rw [stillInside] at same
        cases same
      refine classesFilled_cons_iff.mpr ⟨tokenFilled, ?_⟩
      rw [List.flatMap_cons] at ran
      rcases follows.step_of_isPrefix isPrefix tokenFilled apart with
        ⟨next, further, later, ranToken, continues, laterPrefix, laterApart⟩ | ⟨error, failed, _⟩
      · rw [State.run_append_of_run ranToken] at ran
        exact ih continues.follows laterPrefix laterApart ran (agree.tail ranToken)
      · rw [State.run_append, failed] at ran
        cases ran

end

/-- As far as the pattern can be read, the two agree if and only if no class has been
closed without a member, and without such a class only a range can be refused. -/
theorem agreeOnClasses_iff (glob : Text) (anchored : Bool) (count : Nat) :
    let front := (tokens {} glob).take count
    (∀ last, (start anchored).run (front.flatMap Token.pattern) = .ok last →
      (AgreeOnClasses {} (start anchored) front ↔ classesFilled .filled front = true)) ∧
    (classesFilled .filled front = true →
      ∀ error, (start anchored).run (front.flatMap Token.pattern) = .error error →
        error.OfRange) := by
  intro front
  have isPrefix : front <+: tokens {} glob := List.take_prefix _ _
  have follows := follows_start anchored .filled
  constructor
  · intro last ran
    constructor
    · exact follows.classesFilled_of_agree isPrefix (by simp) ran
    · exact fun filled => follows.agreeOnClasses isPrefix filled (by simp)
  · intro filled error failed
    rcases follows.run isPrefix filled (by simp) with ⟨_, _, _, ran, _⟩ | ⟨_, refused, ofRange, _⟩
    · cases failed.symm.trans ran
    · cases failed.symm.trans refused
      exact ofRange

theorem agreeOnClasses_iff_nested :
    let front := (tokens {} "\x7b[!a-z],@([[&&]|b)\x7d".toList).take 14
    classesFilled .filled front = true ∧
      ((start true).run (front.flatMap Token.pattern)).isOk = true ∧
      AgreeOnClasses {} (start true) front := by
  intro front
  have filled : classesFilled .filled front = true := by
    unfold front
    cbv
  have readable : ((start true).run (front.flatMap Token.pattern)).isOk = true := by
    unfold front
    cbv
  obtain ⟨last, ran⟩ := exists_of_isOk readable
  exact ⟨filled, readable, ((agreeOnClasses_iff _ true 14).1 last ran).mpr filled⟩

/-- Behind `[]` the glob is outside of the class and the pattern is not, and what follows
is a member of the class. -/
theorem not_agreeOnClasses_of_empty :
    let glob := "[]a]".toList
    let front := (tokens {} glob).take 2
    front = [.classOpen, .classClose] ∧ (({} : Context).afterAll front).inClass = false ∧
      ((start true).run (front.flatMap Token.pattern)).map State.inClass = .ok true ∧
      (Matcher.ofGlob glob true).map (·.isMatch ['a']) = .ok true := by
  intro glob front
  have read : front = [.classOpen, .classClose] := by
    unfold front glob
    cbv
  refine ⟨read, ?_, ?_, by cbv⟩
  · rw [read]
    rfl
  · rw [read]
    rfl

end ShellGlob.Glob
