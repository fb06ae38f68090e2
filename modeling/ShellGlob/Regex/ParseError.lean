import ShellGlob.Text.Lines

/-!
# Errors of regular expressions

Why a text is no regular expression, and which part of it is to blame.
`ParseError.message` shows the text with that part underlined.
-/

namespace ShellGlob.Regex

/-- The number of levels that a regular expression may nest. -/
def nestingLimit : Nat := 250

/-- A part of a text, from one place up to another. -/
structure Span where
  start : Nat
  stop : Nat
  deriving DecidableEq

/-- Why a text is no regular expression. -/
inductive Cause where
  /-- A `[` is never closed. -/
  | unclosedClass
  /-- A `(` is never closed. -/
  | unclosedGroup
  /-- A `)` closes nothing. -/
  | unopenedGroup
  /-- A range of a class ends before it starts. -/
  | descendingRange
  /-- An end of a range is no single character. -/
  | rangeBound
  /-- A word boundary stands in a class. -/
  | boundaryInClass
  /-- The tree has more levels than `nestingLimit`. -/
  | nestingTooDeep
  /-- A repetition has nothing to repeat. -/
  | danglingRepetition
  /-- A backslash stands before a character that has no escape. -/
  | unknownEscape
  /-- The text ends within an escape. -/
  | unfinishedEscape
  /-- A `(?` is followed by anything but a colon. -/
  | unknownGroup
  /-- A `{` stands where a count would. -/
  | countedRepetition
  deriving DecidableEq

def Cause.description : Cause → String
  | .unclosedClass => "unclosed character class"
  | .unclosedGroup => "unclosed group"
  | .unopenedGroup => "unopened group"
  | .descendingRange => "invalid character class range, the start must be <= the end"
  | .rangeBound => "invalid range boundary, must be a literal"
  | .boundaryInClass => "invalid escape sequence found in character class"
  | .nestingTooDeep =>
      "exceed the maximum number of nested parentheses/brackets (" ++ toString nestingLimit ++ ")"
  | .danglingRepetition => "repetition operator missing expression"
  | .unknownEscape => "unrecognized escape sequence"
  | .unfinishedEscape => "incomplete escape sequence, reached end of pattern prematurely"
  | .unknownGroup => "unrecognized flag"
  | .countedRepetition => "counted repetition is not supported"

/-- What is wrong with a text that is no regular expression. -/
structure ParseError where
  cause : Cause
  span : Span
  deriving DecidableEq

namespace Span

/-- Whether the span starts and ends on the same line. -/
def onOneLine (span : Span) (pattern : Text) : Bool :=
  pattern.lineOf span.start = pattern.lineOf span.stop

/-- Carets under the span, as far as it is on the line it starts on, and one
caret if it is empty. -/
def underline (span : Span) (pattern : Text) : String :=
  let start := pattern.columnOf span.start
  let stop := pattern.columnOf span.stop
  "".pushn ' ' (start - 1) ++ "".pushn '^' (max 1 (stop - start))

/-- The lines and columns of a span over several lines; the last column is the
one before its end. -/
def extent (span : Span) (pattern : Text) : String :=
  "on line " ++ toString (pattern.lineOf span.start)
    ++ " (column " ++ toString (pattern.columnOf span.start)
    ++ ") through line " ++ toString (pattern.lineOf span.stop)
    ++ " (column " ++ toString (pattern.columnOf span.stop - 1) ++ ")"

end Span

def padNumber (width number : Nat) : String :=
  "".pushn ' ' (width - (toString number).length) ++ toString number

/-- The lines of the pattern, each behind the margin for its number.  The
underline of a span that lies on one line stands below that line, behind
`marginWidth` blanks. -/
def annotatedLines (pattern : Text) (span : Span) (marginWidth : Nat) (margin : Nat → String) :
    List String :=
  (pattern.lines.zipIdx 1).flatMap fun (line, number) =>
    let shown := margin number ++ String.ofList line
    if span.onOneLine pattern && pattern.lineOf span.start = number then
      [shown, "".pushn ' ' marginWidth ++ span.underline pattern]
    else [shown]

namespace ParseError

/-- The message for a pattern of one line. -/
def singleLineMessage (error : ParseError) (pattern : Text) : List String :=
  ["regex parse error:"] ++ annotatedLines pattern error.span 4 (fun _ => "    ")
    ++ ["error: " ++ error.cause.description]

/-- The message for a pattern with line feeds.  Its lines are numbered and
stand between two dividers. -/
def multiLineMessage (error : ParseError) (pattern : Text) : List String :=
  let numberWidth := (toString pattern.lineCount).length
  let divider := "".pushn '~' 79
  ["regex parse error:", divider]
    ++ annotatedLines pattern error.span (numberWidth + 2)
      (fun number => padNumber numberWidth number ++ ": ")
    ++ [divider]
    ++ (if error.span.onOneLine pattern then [] else [error.span.extent pattern])
    ++ ["error: " ++ error.cause.description]

/-- The whole message about a pattern. -/
def message (error : ParseError) (pattern : Text) : String :=
  "\n".intercalate <|
    if '\n' ∈ pattern then error.multiLineMessage pattern else error.singleLineMessage pattern

end ParseError

end ShellGlob.Regex
