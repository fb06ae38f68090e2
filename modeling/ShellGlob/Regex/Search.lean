import ShellGlob.Regex.Form
import ShellGlob.Regex.Outlook
import ShellGlob.Regex.Place

/-!
# Searching

A text is searched from its end to its start, once.  At each place the search
decides where the preferred match from there ends, and to decide it looks only
one place ahead: every atom of the expression carries a mark, which says where
the match ends if it goes on behind the atom at the next place.

From a place on, a search enters each part of the expression at most once
before it reads a character.  What it did not find in a part it does not look
for again, so a repetition that comes back to its start without having read
anything does not go around in circles.

`Marked.step` looks at a place and moves all marks there.  Its work is bounded
by the size of the expression, whatever the text is.
-/

namespace ShellGlob.Regex

/-- A form whose atoms carry the end of the preferred match that goes on behind
them, at the place that was looked at last. -/
inductive Marked where
  | empty
  | atom (characters : Unicode.CharacterSet) (next : Option Nat)
  | assertion (value : Assertion)
  | repetition (operator : Repetition) (greedy : Bool) (body : Marked)
  | concat (first rest : Marked)
  | alternate (first rest : Marked)

namespace Marked

/-- An atom behind the end of the text. -/
def ofCharacters (characters : Unicode.CharacterSet) : Marked :=
  .atom characters none

/-- A literal behind the end of the text. -/
def ofText : Text → Marked
  | [] => .empty
  | [c] => ofCharacters (.single c)
  | c :: rest => .concat (ofCharacters (.single c)) (ofText rest)

/-- The form behind the end of the text, where no match goes on. -/
def ofForm : Form → Marked
  | .empty => .empty
  | .literal text => ofText text
  | .set characters => ofCharacters characters
  | .assertion value => .assertion value
  | .capture body => ofForm body
  | .repetition operator greedy body => .repetition operator greedy (ofForm body)
  | .concat first rest => .concat (ofForm first) (ofForm rest)
  | .alternate first rest => .alternate (ofForm first) (ofForm rest)

/-- What the search finds from a place, as a function of what it finds behind
the form there, and the form with its marks moved to the place.

The marks depend on the `sequel`: what the search finds behind the form, as a
function of what it finds if a repetition around the form leads back to its
start.  On the way back to the start of a part, the parts before it and the
alternatives to it are met again, but not what lies behind them. -/
def step (place : Place) : Marked → Outlook × ((sequel : Outlook) → Marked)
  | .empty => (.pass, fun _ => .empty)
  | .atom characters next =>
      let found := if place.after.any characters.contains then next else none
      (.closed found, fun sequel => .atom characters (sequel.stop found))
  | .assertion value =>
      (if value.holds place then .pass else .nothing, fun _ => .assertion value)
  | .repetition operator greedy body =>
      let (once, move) := body.step place
      let again (sequel : Outlook) : Outlook := .choose greedy .pass sequel
      match operator with
      | .optional =>
          (.choose greedy once .pass, fun sequel => .repetition .optional greedy (move sequel))
      | .star =>
          (.choose greedy once .pass, fun sequel => .repetition .star greedy (move (again sequel)))
      | .plus => (once, fun sequel => .repetition .plus greedy (move (again sequel)))
  | .concat first rest =>
      let (front, moveFirst) := first.step place
      let (back, moveRest) := rest.step place
      (front.andThen back, fun sequel =>
        .concat (moveFirst (back.andThen sequel)) (moveRest (sequel.andThen front)))
  | .alternate first rest =>
      let (left, moveFirst) := first.step place
      let (right, moveRest) := rest.step place
      (left.orElse right, fun sequel =>
        .alternate (moveFirst (sequel.andThen (.orElse .pass (.closed (right.stop none)))))
          (moveRest (sequel.andThen (.orElse (.closed (left.stop none)) .pass))))

end Marked

namespace Form

/-- For each of a list of places, the end of the preferred match from there, and
the form as it is marked at the first of them. -/
def scan (form : Form) (places : List Place) : List (Option Nat) × Marked :=
  places.foldr
    (fun place later =>
      let (outlook, move) := later.2.step place
      let done := some place.position
      (outlook.stop done :: later.1, move (.closed done)))
    ([], .ofForm form)

/-- For each place of the text, the end of the preferred match from there. -/
def preferredEnds (form : Form) (text : Text) : List (Option Nat) :=
  (form.scan (Place.all text)).1

/-- Whether the form matches some part of the text. -/
def isMatch (form : Form) (text : Text) : Bool :=
  (form.preferredEnds text).any Option.isSome

/-- The leftmost match at or behind a place: the first place from which there
is one, and the preferred end from there. -/
def find? (form : Form) (text : Text) (position : Nat) : Option (Nat × Nat) :=
  (((form.preferredEnds text).zipIdx).drop position).findSome? fun (stop, start) =>
    stop.map fun stop => (start, stop)

end Form

end ShellGlob.Regex
