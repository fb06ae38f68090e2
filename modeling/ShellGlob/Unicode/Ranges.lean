/-!
# Intervals of code points

Characters are listed as intervals of their code points.  The intervals are
ascending, so a search may stop at the first one that does not lie wholly below
the code point.  Intervals that overlap or touch are joined.
-/

namespace ShellGlob.Unicode

/-- Intervals of code points, both ends included, in ascending order. -/
abbrev Ranges := List (Nat × Nat)

def lastCodePoint : Nat := 0x10FFFF

/-- The code point of the character behind that of a code point.  No character
has a code point between D800 and DFFF. -/
def codePointAfter (codePoint : Nat) : Nat :=
  if codePoint = 0xD7FF then 0xE000 else codePoint + 1

/-- The code point of the character before that of a code point. -/
def codePointBefore (codePoint : Nat) : Nat :=
  if codePoint = 0xE000 then 0xD7FF else codePoint - 1

namespace Ranges

/-- Whether a code point lies in one of the intervals. -/
def containsCodePoint (codePoint : Nat) : Ranges → Bool
  | [] => false
  | (first, last) :: rest =>
      if last < codePoint then containsCodePoint codePoint rest
      else decide (first ≤ codePoint)

/-- The characters from one up to another. -/
def between (first last : Char) : Ranges :=
  if first ≤ last then [(first.toNat, last.toNat)] else []

/-- One interval and those behind it, which may overlap or touch. -/
def coalesceFrom (first last : Nat) : Ranges → Ranges
  | [] => [(first, last)]
  | (nextFirst, nextLast) :: rest =>
      if nextFirst ≤ last + 1 then coalesceFrom first (max last nextLast) rest
      else (first, last) :: coalesceFrom nextFirst nextLast rest

/-- Intervals that are ordered by their starts, with those joined that overlap or
touch. -/
def coalesce : Ranges → Ranges
  | [] => []
  | (first, last) :: rest => coalesceFrom first last rest

def union (left right : Ranges) : Ranges :=
  coalesce (left.merge right fun one other => one.1 ≤ other.1)

/-- What two intervals have in common. -/
def overlap? (left right : Nat × Nat) : Option (Nat × Nat) :=
  let first := max left.1 right.1
  let last := min left.2 right.2
  if first ≤ last then some (first, last) else none

def intersection (left right : Ranges) : Ranges :=
  left.flatMap fun interval => right.filterMap (overlap? interval)

/-- The gaps before and between intervals and behind them, from a code point
on. -/
def gapsFrom (next : Nat) : Ranges → Ranges
  | [] => if next ≤ lastCodePoint then [(next, lastCodePoint)] else []
  | (first, last) :: rest =>
      if next < first then
        (next, codePointBefore first) :: gapsFrom (codePointAfter last) rest
      else gapsFrom (codePointAfter last) rest

def complement (ranges : Ranges) : Ranges :=
  ranges.gapsFrom 0

end Ranges

end ShellGlob.Unicode
