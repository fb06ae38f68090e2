/-!
# Outlooks

A search for the preferred match goes through the parts of an expression in
order, and what it finds behind a part depends on what follows.  An outlook says
what a search finds as a function of the end that it would find further on.

Such a function asks for that end at most once: it may prefer an end to it, and
have another one to fall back on.  So outlooks are closed under `andThen` and
`orElse`.
-/

namespace ShellGlob.Regex

/-- What a search finds, if it is known what it finds further on. -/
inductive Outlook where
  /-- The search does not get further. -/
  | closed (found : Option Nat)
  /-- The search gets further if it finds nothing before, and if it finds nothing
  there either, there is a last resort. -/
  | through (before resort : Option Nat)
  deriving DecidableEq

namespace Outlook

/-- The end that the search finds, when `done` is the one further on. -/
def stop (done : Option Nat) : Outlook → Option Nat
  | .closed found => found
  | .through before resort => before.or (done.or resort)

/-- The search finds nothing. -/
def nothing : Outlook := .closed none

/-- The search finds what it finds further on. -/
def pass : Outlook := .through none none

/-- The search goes through one part and then another. -/
def andThen : Outlook → Outlook → Outlook
  | .closed found, _ => .closed found
  | .through before resort, .closed found => .closed (before.or (found.or resort))
  | .through before resort, .through nextBefore nextResort =>
      .through (before.or nextBefore) (nextResort.or resort)

/-- The search takes the first outlook, and the second one if it finds nothing
there. -/
def orElse : Outlook → Outlook → Outlook
  | .closed left, .closed right => .closed (left.or right)
  | .closed left, .through before resort => .through (left.or before) resort
  | .through before resort, .closed right => .through before (resort.or right)
  | .through before resort, .through otherBefore otherResort =>
      .through before (resort.or (otherBefore.or otherResort))

theorem stop_pass (done : Option Nat) : pass.stop done = done := by
  cases done <;> rfl

theorem stop_andThen (first rest : Outlook) (done : Option Nat) :
    (first.andThen rest).stop done = first.stop (rest.stop done) := by
  cases first <;> cases rest <;> simp [andThen, stop, Option.or_assoc]

theorem stop_orElse (left right : Outlook) (done : Option Nat) :
    (left.orElse right).stop done = (left.stop done).or (right.stop done) := by
  cases left with
  | closed found => cases right <;> simp [orElse, stop, Option.or_assoc]
  | through before resort =>
      cases right with
      | closed found => simp [orElse, stop, Option.or_assoc]
      | through otherBefore otherResort =>
          cases before <;> cases done <;> cases resort <;> cases otherBefore <;>
            simp [orElse, stop]

/-- The preferred one of going on and stopping, which a greedy repetition puts in
this order and a lazy one the other way round. -/
def choose (greedy : Bool) (goOn stop : Outlook) : Outlook :=
  if greedy then goOn.orElse stop else stop.orElse goOn

end Outlook

end ShellGlob.Regex
