import ShellGlob.Text
import ShellGlob.Unicode.DecimalDigit
import ShellGlob.Unicode.WhiteSpace
import ShellGlob.Unicode.WordCharacter

/-!
# Atoms

An atom is the part of a regular expression that matches one character: a
literal, the dot, a shorthand such as `\d`, or a class in brackets.  Atoms keep
their spelling, so `source` gives back the text they were read from, while
`accepts` says which characters they match.
-/

namespace ShellGlob.Regex

/-- The value of a hexadecimal digit, and zero for any other character. -/
def hexValue (digit : Char) : Nat :=
  if '0' ≤ digit ∧ digit ≤ '9' then digit.toNat - '0'.toNat
  else if 'a' ≤ digit ∧ digit ≤ 'f' then digit.toNat - 'a'.toNat + 10
  else if 'A' ≤ digit ∧ digit ≤ 'F' then digit.toNat - 'A'.toNat + 10
  else 0

def isHexDigit (c : Char) : Bool :=
  c.isDigit || ('a' ≤ c && c ≤ 'f') || ('A' ≤ c && c ≤ 'F')

/-- A literal character in one of its spellings. -/
inductive Literal where
  /-- The character itself. -/
  | plain (c : Char)
  /-- A backslash and the character. -/
  | escaped (c : Char)
  | newline
  | carriageReturn
  | tab
  /-- `\x` and two hexadecimal digits. -/
  | hexadecimal (high low : Char)
  deriving DecidableEq

def Literal.value : Literal → Char
  | .plain c => c
  | .escaped c => c
  | .newline => '\n'
  | .carriageReturn => '\r'
  | .tab => '\t'
  | .hexadecimal high low => Char.ofNat (16 * hexValue high + hexValue low)

def Literal.source : Literal → Text
  | .plain c => [c]
  | .escaped c => ['\\', c]
  | .newline => ['\\', 'n']
  | .carriageReturn => ['\\', 'r']
  | .tab => ['\\', 't']
  | .hexadecimal high low => ['\\', 'x', high, low]

/-- A property of characters that has a shorthand. -/
inductive Property where
  | digit
  | space
  | word
  deriving DecidableEq

def Property.characters : Property → Unicode.CharacterSet
  | .digit => Unicode.decimalDigits
  | .space => Unicode.whiteSpace
  | .word => Unicode.wordCharacters

def Property.holds (property : Property) (c : Char) : Bool :=
  property.characters.contains c

/-- A shorthand: `\d`, `\s` and `\w` for a property, and `\D`, `\S` and `\W`
for its complement. -/
structure Shorthand where
  negated : Bool
  property : Property
  deriving DecidableEq

def Shorthand.letter : Shorthand → Char
  | ⟨false, .digit⟩ => 'd'
  | ⟨false, .space⟩ => 's'
  | ⟨false, .word⟩ => 'w'
  | ⟨true, .digit⟩ => 'D'
  | ⟨true, .space⟩ => 'S'
  | ⟨true, .word⟩ => 'W'

def Shorthand.ofLetter? : Char → Option Shorthand
  | 'd' => some ⟨false, .digit⟩
  | 's' => some ⟨false, .space⟩
  | 'w' => some ⟨false, .word⟩
  | 'D' => some ⟨true, .digit⟩
  | 'S' => some ⟨true, .space⟩
  | 'W' => some ⟨true, .word⟩
  | _ => none

theorem Shorthand.ofLetter?_eq_some_iff {c : Char} {shorthand : Shorthand} :
    Shorthand.ofLetter? c = some shorthand ↔ shorthand.letter = c := by
  constructor
  · intro read
    unfold Shorthand.ofLetter? at read
    split at read <;> cases read <;> rfl
  · rintro rfl
    obtain ⟨negated, property⟩ := shorthand
    cases negated <;> cases property <;> rfl

def Shorthand.source (shorthand : Shorthand) : Text :=
  ['\\', shorthand.letter]

def Shorthand.contains (shorthand : Shorthand) (c : Char) : Bool :=
  shorthand.property.holds c != shorthand.negated

/-- A named class of ASCII characters, written `[:name:]` within a class. -/
inductive NamedClass where
  | alnum
  | alpha
  | ascii
  | blank
  | cntrl
  | digit
  | graph
  | lower
  | print
  | punct
  | space
  | upper
  | word
  | xdigit
  deriving DecidableEq

def NamedClass.all : List NamedClass :=
  [.alnum, .alpha, .ascii, .blank, .cntrl, .digit, .graph, .lower, .print, .punct, .space, .upper,
    .word, .xdigit]

def NamedClass.name : NamedClass → Text
  | .alnum => "alnum".toList
  | .alpha => "alpha".toList
  | .ascii => "ascii".toList
  | .blank => "blank".toList
  | .cntrl => "cntrl".toList
  | .digit => "digit".toList
  | .graph => "graph".toList
  | .lower => "lower".toList
  | .print => "print".toList
  | .punct => "punct".toList
  | .space => "space".toList
  | .upper => "upper".toList
  | .word => "word".toList
  | .xdigit => "xdigit".toList

def NamedClass.intervals : NamedClass → Unicode.Ranges
  | .alnum => [(0x30, 0x39), (0x41, 0x5A), (0x61, 0x7A)]
  | .alpha => [(0x41, 0x5A), (0x61, 0x7A)]
  | .ascii => [(0x00, 0x7F)]
  | .blank => [(0x09, 0x09), (0x20, 0x20)]
  | .cntrl => [(0x00, 0x1F), (0x7F, 0x7F)]
  | .digit => [(0x30, 0x39)]
  | .graph => [(0x21, 0x7E)]
  | .lower => [(0x61, 0x7A)]
  | .print => [(0x20, 0x7E)]
  | .punct => [(0x21, 0x2F), (0x3A, 0x40), (0x5B, 0x60), (0x7B, 0x7E)]
  | .space => [(0x09, 0x0D), (0x20, 0x20)]
  | .upper => [(0x41, 0x5A)]
  | .word => [(0x30, 0x39), (0x41, 0x5A), (0x5F, 0x5F), (0x61, 0x7A)]
  | .xdigit => [(0x30, 0x39), (0x41, 0x46), (0x61, 0x66)]

def NamedClass.characters (named : NamedClass) : Unicode.CharacterSet :=
  .ofTable named.intervals (by cases named <;> decide)

def NamedClass.contains (named : NamedClass) (c : Char) : Bool :=
  named.characters.contains c

/-- What stands between the brackets of a named class or of its complement. -/
def NamedClass.inside (negated : Bool) (named : NamedClass) : Text :=
  ':' :: ((if negated then ['^'] else []) ++ named.name ++ [':'])

/-- The named class, and whether it is complemented, that stands between two
brackets. -/
def NamedClass.ofInside? (inside : Text) : Option (Bool × NamedClass) :=
  match NamedClass.all.find? (·.inside false = inside),
      NamedClass.all.find? (·.inside true = inside) with
  | some named, _ => some (false, named)
  | none, some named => some (true, named)
  | none, none => none

/-- An operator between two sets of characters. -/
inductive SetOperator where
  | intersection
  | difference
  | symmetricDifference
  deriving DecidableEq

/-- The character that is written twice for the operator. -/
def SetOperator.symbol : SetOperator → Char
  | .intersection => '&'
  | .difference => '-'
  | .symmetricDifference => '~'

/-- The operator that a character stands for when it is written twice. -/
def SetOperator.ofSymbol? : Char → Option SetOperator
  | '&' => some .intersection
  | '-' => some .difference
  | '~' => some .symmetricDifference
  | _ => none

theorem SetOperator.ofSymbol?_eq_some_iff {c : Char} {operator : SetOperator} :
    SetOperator.ofSymbol? c = some operator ↔ operator.symbol = c := by
  constructor
  · intro read
    unfold SetOperator.ofSymbol? at read
    split at read <;> cases read <;> rfl
  · rintro rfl
    cases operator <;> rfl

def SetOperator.apply : SetOperator → Bool → Bool → Bool
  | .intersection, left, right => left && right
  | .difference, left, right => left && !right
  | .symmetricDifference, left, right => left != right

/-- What stands in a class. -/
inductive ClassSet where
  | empty
  | literal (value : Literal)
  | range (first last : Literal)
  | shorthand (value : Shorthand)
  | named (negated : Bool) (value : NamedClass)
  | bracket (negated : Bool) (members : ClassSet)
  /-- Two sets written side by side; the first is no union itself. -/
  | union (first rest : ClassSet)
  | combine (operator : SetOperator) (left right : ClassSet)
  deriving DecidableEq

namespace ClassSet

/-- The set of characters side by side. -/
def ofMembers : List ClassSet → ClassSet
  | [] => .empty
  | [member] => member
  | member :: rest => .union member (ofMembers rest)

/-- The opening bracket of a class. -/
def opening (negated : Bool) : Text :=
  if negated then ['[', '^'] else ['[']

def source : ClassSet → Text
  | .empty => []
  | .literal value => value.source
  | .range first last => first.source ++ '-' :: last.source
  | .shorthand value => value.source
  | .named negated value => '[' :: (value.inside negated ++ [']'])
  | .bracket negated members => opening negated ++ members.source ++ [']']
  | .union first rest => first.source ++ rest.source
  | .combine operator left right =>
      left.source ++ operator.symbol :: operator.symbol :: right.source

/-- Whether a character belongs to the set.  A complement is taken among all
characters. -/
def contains : ClassSet → Char → Bool
  | .empty, _ => false
  | .literal value, c => c = value.value
  | .range first last, c => first.value ≤ c && c ≤ last.value
  | .shorthand value, c => value.contains c
  | .named negated value, c => value.contains c != negated
  | .bracket negated members, c => members.contains c != negated
  | .union first rest, c => first.contains c || rest.contains c
  | .combine operator left right, c => operator.apply (left.contains c) (right.contains c)

/-- The text of a set that lists nothing but characters standing for
themselves. -/
def plainText? : ClassSet → Option Text
  | .empty => some []
  | .literal (.plain c) => some [c]
  | .union (.literal (.plain c)) rest => rest.plainText?.map (c :: ·)
  | _ => none

/-- A class that stands in another one.  One that reads `[:name:]` is a named
class. -/
def nested (negated : Bool) (members : ClassSet) : ClassSet :=
  match negated, members.plainText?.bind NamedClass.ofInside? with
  | false, some (complemented, value) => .named complemented value
  | _, _ => .bracket negated members

end ClassSet

/-- A part of a regular expression that matches one character. -/
inductive Atom where
  | literal (value : Literal)
  /-- Any character but a line feed. -/
  | dot
  | shorthand (value : Shorthand)
  | bracket (negated : Bool) (members : ClassSet)
  deriving DecidableEq

def Atom.source : Atom → Text
  | .literal value => value.source
  | .dot => ['.']
  | .shorthand value => value.source
  | .bracket negated members => (ClassSet.bracket negated members).source

def Atom.accepts : Atom → Char → Bool
  | .literal value, c => c = value.value
  | .dot, c => c != '\n'
  | .shorthand value, c => value.contains c
  | .bracket negated members, c => (ClassSet.bracket negated members).contains c

end ShellGlob.Regex
