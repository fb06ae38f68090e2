import ShellGlob.Unicode.Ranges

/-!
# Sets of characters as ranges of bytes

The UTF-8 encodings of a set of characters fall into sequences of byte ranges:
a character belongs to the set if its bytes lie in the ranges of one of the
sequences, one byte in each range.
-/

namespace ShellGlob.Unicode

/-- For each byte of an encoding, the first and last value it may have. -/
abbrev ByteRanges := List (Nat × Nat)

/-- The sequences for the numbers between two bounds, written with `count`
digits of six bits behind a leading digit.  The leading digit is added to
`mark`, and each further one to the mark of continuation bytes. -/
def byteRangesBetween (mark : Nat) : (count : Nat) → (first last : Nat) → List ByteRanges
  | 0, first, last => [[(mark + first, mark + last)]]
  | count + 1, first, last =>
      let block := 1 <<< (6 * (count + 1))
      let leading (digit first last : Nat) : List ByteRanges :=
        (byteRangesBetween 0x80 count first last).map ((mark + digit, mark + digit) :: ·)
      if first / block = last / block then leading (first / block) (first % block) (last % block)
      else
        let front :=
          if first % block = 0 then [] else leading (first / block) (first % block) (block - 1)
        let back :=
          if last % block = block - 1 then [] else leading (last / block) 0 (last % block)
        let low := if first % block = 0 then first / block else first / block + 1
        let high := if last % block = block - 1 then last / block else last / block - 1
        let middle :=
          if low ≤ high then [(mark + low, mark + high) :: .replicate (count + 1) (0x80, 0xBF)]
          else []
        front ++ middle ++ back

/-- Encodings of the same form: of the code points in an interval, with a mark in
the leading byte and a number of bytes behind it. -/
structure Encoding where
  codePoints : Nat × Nat
  mark : Nat
  continuation : Nat

/-- The forms of encodings.  No code point between D800 and DFFF has one. -/
def encodings : List Encoding :=
  [⟨(0x0, 0x7F), 0x00, 0⟩, ⟨(0x80, 0x7FF), 0xC0, 1⟩, ⟨(0x800, 0xD7FF), 0xE0, 2⟩,
    ⟨(0xE000, 0xFFFF), 0xE0, 2⟩, ⟨(0x10000, lastCodePoint), 0xF0, 3⟩]

/-- The sequences of byte ranges of a set, in ascending order. -/
def Ranges.byteRanges (ranges : Ranges) : List ByteRanges :=
  ranges.flatMap fun interval =>
    encodings.flatMap fun encoding =>
      match overlap? interval encoding.codePoints with
      | some (first, last) => byteRangesBetween encoding.mark encoding.continuation first last
      | none => []

end ShellGlob.Unicode
