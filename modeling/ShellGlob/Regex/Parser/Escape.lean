import ShellGlob.Regex.Atom

/-!
# Reading escapes

An escape is a backslash with one character behind it, or `\x` with two
hexadecimal digits.  It means the same within classes and outside of them,
where a class has no use for a word boundary.
-/

namespace ShellGlob.Regex

/-- What an escape, or a character that stands for itself, denotes. -/
inductive Operand where
  | literal (value : Literal)
  | shorthand (value : Shorthand)
  | boundary (negated : Bool)
  deriving DecidableEq

/-- The text of an operand. -/
def Operand.source : Operand → Text
  | .literal value => value.source
  | .shorthand value => value.source
  | .boundary negated => ['\\', if negated then 'B' else 'b']

/-- The operand that a backslash and one character denote. -/
def Operand.ofEscaped? (c : Char) : Option Operand :=
  if isPunctuation c then
    if c = '<' ∨ c = '>' then none else some (.literal (.escaped c))
  else
    match c with
    | 'n' => some (.literal .newline)
    | 'r' => some (.literal .carriageReturn)
    | 't' => some (.literal .tab)
    | 'b' => some (.boundary false)
    | 'B' => some (.boundary true)
    | _ => (Shorthand.ofLetter? c).map .shorthand

/-- An escape of which more has to be read. -/
inductive Escape where
  /-- `\` -/
  | opened
  /-- `\x` -/
  | hexadecimal
  /-- `\x` and a hexadecimal digit. -/
  | hexadecimalDigit (high : Char)
  deriving DecidableEq

namespace Escape

/-- The text of the escape so far. -/
def source : Escape → Text
  | .opened => ['\\']
  | .hexadecimal => ['\\', 'x']
  | .hexadecimalDigit high => ['\\', 'x', high]

/-- The outcome of one more character of an escape. -/
inductive Progress where
  | reading (escape : Escape)
  | complete (operand : Operand)
  | unknown
  deriving DecidableEq

/-- Reads one more character of an escape. -/
def step : Escape → Char → Progress
  | .opened, c =>
      if c = 'x' then .reading .hexadecimal
      else
        match Operand.ofEscaped? c with
        | some operand => .complete operand
        | none => .unknown
  | .hexadecimal, c => if isHexDigit c then .reading (.hexadecimalDigit c) else .unknown
  | .hexadecimalDigit high, c =>
      if isHexDigit c then .complete (.literal (.hexadecimal high c)) else .unknown

end Escape

end ShellGlob.Regex
