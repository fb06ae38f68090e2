import ShellGlob.Regex.ParseError
import ShellGlob.Regex.Parser.Escape

/-!
# Reading classes

A class in brackets is read one character at a time.  Between two characters
the state holds the classes that are open, innermost first, and how far the
next member of the innermost has been read: a member may turn out to be the
start of a range, and `&`, `-` and `~` are operators only if they are doubled.

Dashes directly behind the opening bracket are members, and so is a `]` there
if no dash stands before it.  Any other `]` closes the innermost class.
-/

namespace ShellGlob.Regex

/-- A class that is open. -/
structure Bracket where
  /-- The place of its `[`. -/
  start : Nat
  negated : Bool := false
  /-- The number of members that stand directly behind the opening bracket
  and are literal only there. -/
  leading : Nat := 0
  /-- The last operator, and the set on its left. -/
  left : Option (SetOperator × ClassSet) := none
  /-- The members behind the last operator, the latest first. -/
  members : List ClassSet := []
  deriving DecidableEq

namespace Bracket

/-- The class with one more member. -/
def add (bracket : Bracket) (member : ClassSet) : Bracket :=
  { bracket with members := member :: bracket.members }

/-- The class with one more member that is literal for its place only. -/
def addLeading (bracket : Bracket) (c : Char) : Bracket :=
  { bracket.add (.literal (.plain c)) with leading := bracket.leading + 1 }

/-- The set that has been read so far. -/
def contents (bracket : Bracket) : ClassSet :=
  let right := ClassSet.ofMembers bracket.members.reverse
  match bracket.left with
  | none => right
  | some (operator, left) => .combine operator left right

/-- The class behind an operator. -/
def operate (bracket : Bracket) (operator : SetOperator) : Bracket :=
  { bracket with left := some (operator, bracket.contents), members := [] }

/-- The place behind the opening bracket and the leading members. -/
def openingStop (bracket : Bracket) : Nat :=
  bracket.start + (ClassSet.opening bracket.negated).length + bracket.leading

end Bracket

/-- How far the next member of a class has been read. -/
inductive Stage where
  /-- Only the `[` has been read. -/
  | opened
  /-- Only the `[^` has been read. -/
  | complemented
  /-- All members are leading dashes. -/
  | dashes
  /-- The last member is complete. -/
  | ready
  /-- A member has been read that may start a range. -/
  | operand (first : Operand)
  /-- The same, and a dash behind it. -/
  | dash (first : Operand)
  /-- The first of the two characters of an operator has been read, if it is
  one. -/
  | symbol (operator : SetOperator)
  /-- Part of an escape has been read, which ends a range if there is a start
  of one. -/
  | escape (first : Option Operand) (escape : Escape)
  deriving DecidableEq

/-- The open classes, of which there is at least one. -/
structure Brackets where
  current : Bracket
  outer : List Bracket
  stage : Stage
  deriving DecidableEq

namespace Brackets

/-- The outcome of one more character of a class. -/
inductive Progress where
  | reading (brackets : Brackets)
  | complete (negated : Bool) (members : ClassSet)
  deriving DecidableEq

/-- The state when the `[` at the given place has been read. -/
def opened (position : Nat) : Brackets :=
  ⟨{ start := position }, [], .opened⟩

/-- Closes the innermost class. -/
def close (current : Bracket) : List Bracket → Progress
  | [] => .complete current.negated current.contents
  | outer :: rest =>
      .reading ⟨outer.add (.nested current.negated current.contents), rest, .ready⟩

/-- Reads a character with which a new member starts. -/
def stepReady (position : Nat) (current : Bracket) (outer : List Bracket) (c : Char) : Progress :=
  if c = ']' then close current outer
  else if c = '[' then .reading ⟨{ start := position }, current :: outer, .opened⟩
  else if c = '\\' then .reading ⟨current, outer, .escape none .opened⟩
  else
    match SetOperator.ofSymbol? c with
    | some operator => .reading ⟨current, outer, .symbol operator⟩
    | none => .reading ⟨current, outer, .operand (.literal (.plain c))⟩

/-- Takes an operand that ends at `stop` as a member of its own. -/
def commit (stop : Nat) (current : Bracket) : Operand → Except ParseError Bracket
  | .literal value => .ok (current.add (.literal value))
  | .shorthand value => .ok (current.add (.shorthand value))
  | .boundary negated =>
      .error ⟨.boundaryInClass, ⟨stop - (Operand.boundary negated).source.length, stop⟩⟩

/-- The range from one operand to another that ends at `stop`. -/
def range (stop : Nat) (first last : Operand) : Except ParseError ClassSet :=
  let lastStart := stop - last.source.length
  let firstStart := lastStart - 1 - first.source.length
  match first, last with
  | .literal low, .literal high =>
      if low.value ≤ high.value then .ok (.range low high)
      else .error ⟨.descendingRange, ⟨firstStart, stop⟩⟩
  | .literal _, _ => .error ⟨.rangeBound, ⟨lastStart, stop⟩⟩
  | _, _ => .error ⟨.rangeBound, ⟨firstStart, lastStart - 1⟩⟩

/-- Takes the range from one operand to another as a member. -/
def commitRange (stop : Nat) (brackets : Brackets) (first last : Operand) :
    Except ParseError Progress := do
  let member ← range stop first last
  return .reading { brackets with current := brackets.current.add member, stage := .ready }

/-- Reads a character behind an operand. -/
def stepOperand (position : Nat) (brackets : Brackets) (first : Operand) (c : Char) :
    Except ParseError Progress :=
  if c = '-' then .ok (.reading { brackets with stage := .dash first })
  else do
    let current ← commit position brackets.current first
    return stepReady position current brackets.outer c

/-- Reads a character behind an operand and a dash.  The dash is a member of
its own before a `]`, and half of an operator before another dash. -/
def stepDash (position : Nat) (brackets : Brackets) (first : Operand) (c : Char) :
    Except ParseError Progress :=
  if c = ']' then do
    let current ← commit (position - 1) brackets.current first
    return close (current.add (.literal (.plain '-'))) brackets.outer
  else if c = '-' then do
    let current ← commit (position - 1) brackets.current first
    return .reading ⟨current.operate .difference, brackets.outer, .ready⟩
  else if c = '\\' then .ok (.reading { brackets with stage := .escape (some first) .opened })
  else commitRange (position + 1) brackets first (.literal (.plain c))

/-- Reads one more character of an escape. -/
def stepEscape (position : Nat) (brackets : Brackets) (first : Option Operand) (escape : Escape)
    (c : Char) : Except ParseError Progress :=
  match escape.step c, first with
  | .reading further, _ => .ok (.reading { brackets with stage := .escape first further })
  | .complete operand, none => .ok (.reading { brackets with stage := .operand operand })
  | .complete last, some first => commitRange (position + 1) brackets first last
  | .unknown, _ =>
      .error ⟨.unknownEscape, ⟨position - escape.source.length, position + 1⟩⟩

/-- Reads the character `c` at the given place. -/
def step (position : Nat) (brackets : Brackets) (c : Char) : Except ParseError Progress :=
  let ⟨current, outer, stage⟩ := brackets
  match stage with
  | .opened =>
      if c = '^' then .ok (.reading ⟨{ current with negated := true }, outer, .complemented⟩)
      else if c = '-' then .ok (.reading ⟨current.addLeading c, outer, .dashes⟩)
      else if c = ']' then .ok (.reading ⟨current.addLeading c, outer, .ready⟩)
      else .ok (stepReady position current outer c)
  | .complemented =>
      if c = '-' then .ok (.reading ⟨current.addLeading c, outer, .dashes⟩)
      else if c = ']' then .ok (.reading ⟨current.addLeading c, outer, .ready⟩)
      else .ok (stepReady position current outer c)
  | .dashes =>
      if c = '-' then .ok (.reading ⟨current.addLeading c, outer, .dashes⟩)
      else .ok (stepReady position current outer c)
  | .ready => .ok (stepReady position current outer c)
  | .operand first => stepOperand position brackets first c
  | .dash first => stepDash position brackets first c
  | .symbol operator =>
      if c = operator.symbol then .ok (.reading ⟨current.operate operator, outer, .ready⟩)
      else stepOperand position brackets (.literal (.plain operator.symbol)) c
  | .escape first escape => stepEscape position brackets first escape c

/-- The error when the text ends here.  It points at the innermost class, and
at nothing but its place if the text ends among its leading dashes. -/
def unclosed (brackets : Brackets) : ParseError :=
  let start := brackets.current.start
  match brackets.stage with
  | .dashes => ⟨.unclosedClass, ⟨start, start⟩⟩
  | _ => ⟨.unclosedClass, ⟨start, brackets.current.openingStop⟩⟩

end Brackets

end ShellGlob.Regex
