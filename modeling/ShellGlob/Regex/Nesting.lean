import ShellGlob.Regex.Basic
import ShellGlob.Regex.ParseError

/-!
# Nesting

Groups, repetitions, concatenations, alternations and classes are levels of a
regular expression, and so are unions, operators and classes within a class.
The parts of one concatenation, alternation or union are all on the same level.
`exceeding` finds the first part that lies deeper than a number of levels, in
the order in which the parts start, an outer part before its inner ones.
-/

namespace ShellGlob.Regex

namespace ClassSet

/-- Whether the set is a union, whose parts share their level with the parts
of a union around it. -/
def isUnion : ClassSet → Bool
  | .union _ _ => true
  | _ => false

/-- The number of levels of a set. -/
def depth : ClassSet → Nat
  | .empty | .literal _ | .range _ _ | .shorthand _ | .named _ _ => 0
  | .bracket _ members => members.depth + 1
  | .union first rest =>
      max (first.depth + 1) (if rest.isUnion then rest.depth else rest.depth + 1)
  | .combine _ left right => max left.depth right.depth + 1

/-- The first part at `start` or behind it for which `levels` do not
suffice. -/
def exceeding (levels start : Nat) : ClassSet → Option Span
  | .empty | .literal _ | .range _ _ | .shorthand _ | .named _ _ => none
  | set@(.bracket negated members) =>
      match levels with
      | 0 => some ⟨start, start + set.source.length⟩
      | levels + 1 => members.exceeding levels (start + (opening negated).length)
  | set@(.union first rest) =>
      match levels with
      | 0 => some ⟨start, start + set.source.length⟩
      | levels + 1 =>
          (first.exceeding levels start).or
            (rest.exceeding (if rest.isUnion then levels + 1 else levels)
              (start + first.source.length))
  | set@(.combine _ left right) =>
      match levels with
      | 0 => some ⟨start, start + set.source.length⟩
      | levels + 1 =>
          (left.exceeding levels start).or
            (right.exceeding levels (start + left.source.length + 2))

end ClassSet

def Atom.depth : Atom → Nat
  | .bracket negated members => (ClassSet.bracket negated members).depth
  | _ => 0

/-- The first part of an atom for which the levels do not suffice. -/
def Atom.exceeding (levels start : Nat) : Atom → Option Span
  | .bracket negated members => (ClassSet.bracket negated members).exceeding levels start
  | _ => none

def isConcat : Regex → Bool
  | .concat _ _ => true
  | _ => false

def isAlternate : Regex → Bool
  | .alternate _ _ => true
  | _ => false

/-- The number of levels of a regular expression. -/
def depth : Regex → Nat
  | .empty | .assertion _ => 0
  | .atom value => value.depth
  | .group _ body => body.depth + 1
  | .repetition _ _ body => body.depth + 1
  | .concat first rest =>
      max (first.depth + 1) (if rest.isConcat then rest.depth else rest.depth + 1)
  | .alternate first rest =>
      max (first.depth + 1) (if rest.isAlternate then rest.depth else rest.depth + 1)

/-- The first part at `start` or behind it for which `levels` do not
suffice. -/
def exceeding (levels start : Nat) : Regex → Option Span
  | .empty | .assertion _ => none
  | .atom value => value.exceeding levels start
  | regex@(.group capturing body) =>
      match levels with
      | 0 => some ⟨start, start + regex.width⟩
      | levels + 1 => body.exceeding levels (start + if capturing then 1 else 3)
  | regex@(.repetition _ _ body) =>
      match levels with
      | 0 => some ⟨start, start + regex.width⟩
      | levels + 1 => body.exceeding levels start
  | regex@(.concat first rest) =>
      match levels with
      | 0 => some ⟨start, start + regex.width⟩
      | levels + 1 =>
          (first.exceeding levels start).or
            (rest.exceeding (if rest.isConcat then levels + 1 else levels) (start + first.width))
  | regex@(.alternate first rest) =>
      match levels with
      | 0 => some ⟨start, start + regex.width⟩
      | levels + 1 =>
          (first.exceeding levels start).or
            (rest.exceeding (if rest.isAlternate then levels + 1 else levels)
              (start + first.width + 1))

/-- The first part of an expression that is nested too deep. -/
def overNested? (regex : Regex) : Option Span :=
  regex.exceeding nestingLimit 0

end ShellGlob.Regex
