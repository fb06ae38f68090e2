import ShellGlob.Glob.Token

/-!
# From globs to regular expressions

The pattern of a glob is the text of a regular expression.  Each token of the
glob has a fixed text in it (`Token.pattern`), and the pattern is the
concatenation of these texts.  Negations have no meaning here: a `!` and a `(`
that open no extended group stand for themselves.

The pattern is not checked.  A class, brace or group that is left open shows
when the regular expression is read.
-/

namespace ShellGlob.Glob

/-- One character that is no path separator, as a class of a regular
expression. -/
def segmentCharacter : Text := ['[', '^', '/', '\\', '\\', ']']

/-- The operator behind an extended group. -/
def Multiplicity.operator : Multiplicity → Text
  | .zeroOrOne => ['?']
  | .zeroOrMore => ['*']
  | .oneOrMore => ['+']
  | .exactlyOne => []

/-- An escape keeps its meaning if regular expressions give it the same one;
any other escaped character stands for itself.  A word boundary has no place
in a class, where `\b` is a backspace. -/
def escapePattern (inClass : Bool) (escaped : Char) : Text :=
  if inClass && escaped = 'b' then ['\\', 'x', '0', '8']
  else if !inClass && (escaped = 'b' || escaped = 'B') then ['\\', escaped]
  else if escaped ∈ ['d', 'w', 's', 'D', 'W', 'S', 'n', 'r', 't'] then ['\\', escaped]
  else if escaped = '<' ∨ escaped = '>' then [escaped]
  else if isPunctuation escaped then ['\\', escaped]
  else [escaped]

/-- The characters that a literal of a glob needs a backslash for. -/
def metaCharacters : List Char :=
  ['.', '|', '+', '$', '^', '(', ')', '{', '}', '\\', '/', '-']

/-- A character that stands for itself outside of classes. -/
def literalPattern (c : Char) : Text :=
  if c ∈ metaCharacters then ['\\', c] else [c]

/-- The text of a token in the pattern. -/
def Token.pattern : Token → Text
  | .escape inClass escaped => escapePattern inClass escaped
  | .backslash _ => ['\\', '\\']
  | .classOpen => ['[']
  | .classClose => [']']
  | .complement => ['^']
  | .member guarded c => if guarded then ['\\', c] else [c]
  | .groupOpen _ => ['(', '?', ':']
  | .groupClose multiplicity => ')' :: multiplicity.operator
  | .tree _ => ['.', '*']
  | .star => segmentCharacter ++ ['*']
  | .one => segmentCharacter
  | .braceOpen => ['(']
  | .braceClose => [')']
  | .comma => ['|']
  | .bar => ['|']
  | .literal c => literalPattern c

/-- The pattern of a text that is read in the given context. -/
def patternFrom (context : Context) (glob : Text) : Text :=
  (tokens context glob).flatMap Token.pattern

/-- The pattern between the assertions for the two ends of a candidate. -/
def anchor (pattern : Text) : Text :=
  '^' :: (pattern ++ ['$'])

/-- The pattern of a glob, or nothing if it is empty.  An anchored glob has to
match an entire candidate. -/
def pattern? (glob : Text) (anchored : Bool) : Option Text :=
  let body := patternFrom {} glob
  let pattern := if anchored then anchor body else body
  if pattern.isEmpty then none else some pattern

/-- Only an empty pattern is left out. -/
theorem getD_pattern? (glob : Text) : (pattern? glob false).getD [] = patternFrom {} glob := by
  unfold pattern?
  cases patternFrom {} glob with
  | nil => rfl
  | cons c rest => rfl

end ShellGlob.Glob
