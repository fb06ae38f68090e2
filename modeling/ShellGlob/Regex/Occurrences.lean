import ShellGlob.Regex.Search

/-!
# Occurrences

The occurrences of a regular expression in a text are its preferred matches
from left to right.  Each is searched behind the one before it, and behind an
empty one the search goes on one character later, so that it always goes on.
-/

namespace ShellGlob.Regex

/-- A part of a text that a regular expression matches. -/
structure Occurrence where
  start : Nat
  stop : Nat
  deriving DecidableEq

/-- The text of an occurrence. -/
def Occurrence.text (occurrence : Occurrence) (whole : Text) : Text :=
  whole.slice occurrence.start occurrence.stop

/-- The place at which the search goes on behind an occurrence. -/
def Occurrence.resume (occurrence : Occurrence) : Nat :=
  max occurrence.stop (occurrence.start + 1)

/-- The occurrences at or behind `resume`, from the preferred ends of the places
at `position` and behind. -/
def occurrencesFrom (position resume : Nat) : List (Option Nat) → List Occurrence
  | [] => []
  | none :: rest => occurrencesFrom (position + 1) resume rest
  | some stop :: rest =>
      if position < resume then occurrencesFrom (position + 1) resume rest
      else
        let occurrence : Occurrence := ⟨position, stop⟩
        occurrence :: occurrencesFrom (position + 1) occurrence.resume rest

/-- All occurrences in the text, from left to right. -/
def Form.occurrences (form : Form) (text : Text) : List Occurrence :=
  occurrencesFrom 0 0 (form.preferredEnds text)

end ShellGlob.Regex
