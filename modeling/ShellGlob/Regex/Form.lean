import ShellGlob.Regex.Atom.Characters
import ShellGlob.Regex.Basic

/-!
# Normal forms

The normal form of a regular expression forgets how it is spelled: atoms are
sets of characters, groups that do not capture are gone, and characters in a
row are one literal.  `Regex.normal` yields it.

Alternatives that are single characters or sets become one set.  If all
alternatives of a choice start with the same items, those stand once, before
the choice of what is left of them.  The normal form matches the same texts as
the expression.  Of several matches from a place it may prefer another one: an
alternative that comes later in the choice may come earlier behind the common
items.
-/

namespace ShellGlob.Regex

open Unicode (CharacterSet)

/-- A regular expression in normal form.  Concatenations and alternations of
many parts lean to the right, and none of their parts is of the same kind or, in
a concatenation, empty. -/
inductive Form where
  | empty
  /-- Characters in a row, at least one. -/
  | literal (text : Text)
  /-- A character out of a set that has not just one. -/
  | set (characters : CharacterSet)
  | assertion (value : Assertion)
  | capture (body : Form)
  | repetition (operator : Repetition) (greedy : Bool) (body : Form)
  | concat (first rest : Form)
  /-- Alternatives in order of preference. -/
  | alternate (first rest : Form)
  deriving DecidableEq

namespace Form

def ofCharacters (characters : CharacterSet) : Form :=
  match characters.ranges with
  | [(first, last)] => if first = last then .literal [Char.ofNat first] else .set characters
  | _ => .set characters

/-- The parts that follow one another. -/
def items : Form → List Form
  | .empty => []
  | .concat first rest => first :: rest.items
  | form => [form]

/-- The parts one after the other. -/
def ofItems : List Form → Form
  | [] => .empty
  | [item] => item
  | item :: rest => .concat item (ofItems rest)

def branches : Form → List Form
  | .alternate first rest => first :: rest.branches
  | form => [form]

/-- The choice between the alternatives, and for none of them what matches
nothing. -/
def ofBranches : List Form → Form
  | [] => .set .empty
  | [branch] => branch
  | branch :: rest => .alternate branch (ofBranches rest)

/-- A part and what follows it.  Literals in a row become one. -/
def prepend (item : Form) : (rest : Form) → Form
  | .empty => item
  | .literal text =>
      match item with
      | .literal front => .literal (front ++ text)
      | _ => .concat item (.literal text)
  | .concat (.literal text) rest =>
      match item with
      | .literal front => .concat (.literal (front ++ text)) rest
      | _ => .concat item (.concat (.literal text) rest)
  | rest => .concat item rest

/-- One form followed by another. -/
def append : Form → Form → Form
  | .empty, rest => rest
  | .concat first middle, rest => first.prepend (middle.append rest)
  | form, rest => form.prepend rest

/-- Whether the form matches nothing but the empty text, for the reason that no
part of it matches a character. -/
def isHollow : Form → Bool
  | .empty | .assertion _ => true
  | .literal _ | .set _ => false
  | .capture body | .repetition _ _ body => body.isHollow
  | .concat first rest | .alternate first rest => first.isHollow && rest.isHollow

/-- A repetition of a form.  A second occurrence of what matches only the empty
text makes no difference. -/
def repeated (operator : Repetition) (greedy : Bool) (body : Form) : Form :=
  if body.isHollow then
    match operator with
    | .optional | .star => .repetition .optional greedy body
    | .plus => body
  else .repetition operator greedy body

/-- The set of a form that is one character. -/
def character? : Form → Option CharacterSet
  | .literal [c] => some (.single c)
  | _ => none

/-- The set of a form that is one. -/
def set? : Form → Option CharacterSet
  | .set characters => some characters
  | _ => none

/-- The characters of all alternatives, if each of them is a character or each
of them is a set. -/
def union? (branches : List Form) : Option CharacterSet :=
  ((branches.mapM character?).or (branches.mapM set?)).map (·.foldl CharacterSet.union .empty)

/-- A choice between alternatives that stay as they are, unless they are just
characters. -/
def plainChoice (branches : List Form) : Form :=
  match branches with
  | [branch] => branch
  | _ =>
      match union? branches with
      | some characters => ofCharacters characters
      | none => ofBranches branches

/-- Whether the form has a part that captures what it matches. -/
def captures : Form → Bool
  | .empty | .literal _ | .set _ | .assertion _ => false
  | .capture _ => true
  | .repetition _ _ body => body.captures
  | .concat first rest | .alternate first rest => first.captures || rest.captures

/-- The items that two lists start with.  Parts that capture are never the
same. -/
def sharedItems : List Form → List Form → List Form
  | left :: leftRest, right :: rightRest =>
      if left = right && !left.captures then left :: sharedItems leftRest rightRest else []
  | _, _ => []

/-- Whether the form has several items. -/
def isConcat : Form → Bool
  | .concat _ _ => true
  | _ => false

/-- The items that all alternatives start with, if each alternative has several
items. -/
def commonItems : (branches : List Form) → List Form
  | [] => []
  | branch :: rest =>
      if (branch :: rest).all isConcat then
        rest.foldl (fun shared other => sharedItems shared other.items) branch.items
      else []

/-- A choice between alternatives, none of which is a choice itself.  What all of
them start with stands before the choice. -/
def choice (branches : List Form) : Form :=
  match branches with
  | [branch] => branch
  | _ =>
      match commonItems branches with
      | [] => plainChoice branches
      | common =>
          let suffixes := branches.map fun branch => ofItems (branch.items.drop common.length)
          (ofItems common).append (plainChoice (suffixes.flatMap Form.branches))

end Form

/-- The normal forms of the alternatives of an expression.  An alternative that
is a choice itself stands for its own alternatives. -/
def alternatives : Regex → List Form
  | .empty => [.empty]
  | .atom value => [.ofCharacters value.characters]
  | .assertion value => [.assertion value]
  | .group false body => (Form.choice body.alternatives).branches
  | .group true body => [.capture (.choice body.alternatives)]
  | .repetition operator greedy body =>
      (Form.repeated operator greedy (.choice body.alternatives)).branches
  | .concat first rest =>
      ((Form.choice first.alternatives).append (.choice rest.alternatives)).branches
  | .alternate first rest => first.alternatives ++ rest.alternatives

/-- The normal form of an expression. -/
def normal (regex : Regex) : Form :=
  .choice regex.alternatives

end ShellGlob.Regex
