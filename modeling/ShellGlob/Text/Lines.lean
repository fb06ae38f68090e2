import ShellGlob.Text

/-!
# Lines

The lines of a text, and the line and column of a place in it.  A line ends
with a line feed; a carriage return before the line feed belongs to the
ending.  A line feed at the end of the text opens no further line, although a
place behind it counts as one on the next line.
-/

namespace ShellGlob.Text

/-- The lines of a text, without their endings. -/
def lines : Text → List Text
  | [] => []
  | '\n' :: rest => [] :: lines rest
  | '\r' :: '\n' :: rest => [] :: lines rest
  | c :: rest =>
      match lines rest with
      | [] => [[c]]
      | line :: more => (c :: line) :: more

/-- The number of the line that a place is on, counted from one. -/
def lineOf (text : Text) (place : Nat) : Nat :=
  (text.take place).count '\n' + 1

/-- The column of a place on its line, counted from one in characters. -/
def columnOf (text : Text) (place : Nat) : Nat :=
  ((text.take place).reverse.takeWhile (· != '\n')).length + 1

/-- The number of lines that a place in the text can be on. -/
def lineCount (text : Text) : Nat :=
  (lines text).length + if text.getLast? = some '\n' then 1 else 0

end ShellGlob.Text
