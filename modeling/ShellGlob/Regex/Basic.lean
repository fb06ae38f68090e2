import ShellGlob.Regex.Atom

/-!
# Regular expressions

The tree of a regular expression.  Concatenations and alternations of many
parts lean to the right: their first part is never of the same kind.  The tree
keeps the spelling, and `Regex.source` prints the text that it was read from.
-/

namespace ShellGlob

/-- A condition on a place between two characters. -/
inductive Regex.Assertion where
  /-- `^`: the start of the text. -/
  | start
  /-- `$`: the end of the text. -/
  | stop
  /-- `\b`: a word character on exactly one side. -/
  | boundary
  /-- `\B`: no such boundary. -/
  | noBoundary
  deriving DecidableEq

/-- How often the part before the operator may occur. -/
inductive Regex.Repetition where
  | optional
  | star
  | plus
  deriving DecidableEq

/-- A regular expression. -/
inductive Regex where
  | empty
  | atom (value : Regex.Atom)
  | assertion (value : Regex.Assertion)
  | group (capturing : Bool) (body : Regex)
  /-- A greedy repetition prefers to go on, a lazy one to end. -/
  | repetition (operator : Regex.Repetition) (greedy : Bool) (body : Regex)
  | concat (first rest : Regex)
  /-- Alternatives in order of preference. -/
  | alternate (first rest : Regex)
  deriving DecidableEq

namespace Regex

def Assertion.source : Assertion → Text
  | .start => ['^']
  | .stop => ['$']
  | .boundary => ['\\', 'b']
  | .noBoundary => ['\\', 'B']

def Repetition.symbol : Repetition → Char
  | .optional => '?'
  | .star => '*'
  | .plus => '+'

def Repetition.ofSymbol? : Char → Option Repetition
  | '?' => some .optional
  | '*' => some .star
  | '+' => some .plus
  | _ => none

theorem Repetition.ofSymbol?_eq_some_iff {c : Char} {operator : Repetition} :
    Repetition.ofSymbol? c = some operator ↔ operator.symbol = c := by
  constructor
  · intro read
    unfold Repetition.ofSymbol? at read
    split at read <;> cases read <;> rfl
  · rintro rfl
    cases operator <;> rfl

def source : Regex → Text
  | .empty => []
  | .atom value => value.source
  | .assertion value => value.source
  | .group capturing body => '(' :: ((if capturing then [] else ['?', ':']) ++ body.source ++ [')'])
  | .repetition operator greedy body =>
      body.source ++ operator.symbol :: (if greedy then [] else ['?'])
  | .concat first rest => first.source ++ rest.source
  | .alternate first rest => first.source ++ '|' :: rest.source

/-- The items one after the other. -/
def ofItems : List Regex → Regex
  | [] => .empty
  | [item] => item
  | item :: rest => .concat item (ofItems rest)

/-- The choice between branches, and for none of them the empty text. -/
def ofBranches : List Regex → Regex
  | [] => .empty
  | [branch] => branch
  | branch :: rest => .alternate branch (ofBranches rest)

/-- The number of characters of the text. -/
def width (regex : Regex) : Nat :=
  regex.source.length

end Regex

end ShellGlob
