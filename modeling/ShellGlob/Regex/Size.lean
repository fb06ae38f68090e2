import ShellGlob.Regex.Form
import ShellGlob.Unicode.ByteRanges

/-!
# The size of a regular expression

An expression is refused if the automaton that searches for it takes more than
`sizeLimit` bytes.  How many it takes is up to the engine.  The number here is an
estimate: a state for each byte of a literal, shared states for the byte ranges
of a class, and links where ways part.  It leaves out what an automaton takes
whatever it searches for, and the bookkeeping of groups, so that close to the
limit the engine may decide otherwise.

What is proved about refusals therefore never says when an expression is too
large, only that this is the one reason left (`GlobError.OfSize`).  The number
itself counts only for single expressions that are far from the limit.
-/

namespace ShellGlob.Regex

/-- The number of bytes that an automaton may take: ten mebibytes. -/
def sizeLimit : Nat := 10 * 1024 * 1024

/-- The number of bytes of a state. -/
def stateSize : Nat := 32

/-- The number of bytes of a successor. -/
def linkSize : Nat := 4

/-- The number of bytes of a successor for a range of bytes. -/
def rangeLinkSize : Nat := 8

/-- The number of entries that two lists start with in common. -/
def sharedLength : Unicode.ByteRanges → Unicode.ByteRanges → Nat
  | left :: leftRest, right :: rightRest =>
      if left = right then sharedLength leftRest rightRest + 1 else 0
  | _, _ => 0

/-- The number of ranges in sequences, where a sequence shares those that it
starts with in common with the one before it. -/
def rangeCount (previous : Unicode.ByteRanges) : List Unicode.ByteRanges → Nat
  | [] => 0
  | next :: rest => next.length - sharedLength previous next + rangeCount next rest

/-- The size of a set of characters between its first and its last state.  A set
of ASCII characters needs no further states. -/
def setSize (characters : Unicode.CharacterSet) : Nat :=
  let ranges := characters.ranges
  if ranges.all (·.2 < 0x80) then 2 * stateSize + rangeLinkSize * ranges.length
  else
    let sequences := ranges.byteRanges
    stateSize * (rangeCount [] sequences + 2) + linkSize * sequences.length

/-- The estimated size of a form: a state for each byte of a literal and for each
assertion, and states where ways part and meet. -/
def Form.size : Form → Nat
  | .empty | .assertion _ => stateSize
  | .literal text => stateSize * text.utf8Length
  | .set characters => setSize characters
  | .capture body => body.size
  | .repetition .optional _ body => body.size + 2 * stateSize + 2 * linkSize
  | .repetition .star _ body | .repetition .plus _ body => body.size + stateSize + 2 * linkSize
  | .concat first rest => first.size + rest.size
  | .alternate first rest => first.size + rest.size + 2 * stateSize + 2 * linkSize

end ShellGlob.Regex
