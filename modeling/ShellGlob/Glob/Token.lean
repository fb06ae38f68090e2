import ShellGlob.Text

/-!
# Glob tokens

A glob is read from left to right, one token at a time.  Which token starts at
a character depends on the character, on the text after it, and on what is
open there: a character class, braces, or extended groups.  This context
changes by the token alone (`Context.after`), so reading goes on from any
point as soon as the context there is known.

Every token knows the text it was read from (`Token.source`), and the tokens
of a glob give back its text.
-/

namespace ShellGlob.Glob

/-- How often an extended group may occur. -/
inductive Multiplicity where
  /-- `?(…)`: at most once. -/
  | zeroOrOne
  /-- `*(…)`: any number of times. -/
  | zeroOrMore
  /-- `+(…)`: at least once. -/
  | oneOrMore
  /-- `@(…)`: once. -/
  | exactlyOne
  deriving DecidableEq

/-- The character that opens the group when a `(` follows it. -/
def Multiplicity.mark : Multiplicity → Char
  | .zeroOrOne => '?'
  | .zeroOrMore => '*'
  | .oneOrMore => '+'
  | .exactlyOne => '@'

/-- The multiplicity that a character stands for. -/
def Multiplicity.ofMark? : Char → Option Multiplicity
  | '?' => some .zeroOrOne
  | '*' => some .zeroOrMore
  | '+' => some .oneOrMore
  | '@' => some .exactlyOne
  | _ => none

theorem Multiplicity.ofMark?_mark (multiplicity : Multiplicity) :
    Multiplicity.ofMark? multiplicity.mark = some multiplicity := by
  cases multiplicity <;> rfl

theorem Multiplicity.ofMark?_eq_some_iff {c : Char} {multiplicity : Multiplicity} :
    Multiplicity.ofMark? c = some multiplicity ↔ c = multiplicity.mark := by
  constructor
  · intro read
    unfold Multiplicity.ofMark? at read
    split at read <;> simp_all <;> subst read <;> rfl
  · intro written
    rw [written, Multiplicity.ofMark?_mark]

/-- Where in a class a token stands: a `!` complements the class only as its
first character. -/
inductive ClassPart where
  | leading
  | interior
  deriving DecidableEq

/-- What is open at a point of a glob: the part of a class, if any, the number
of braces, and the extended groups, innermost first. -/
structure Context where
  classPart : Option ClassPart := none
  braces : Nat := 0
  groups : List Multiplicity := []
  deriving DecidableEq

/-- Whether the point lies in a class. -/
def Context.inClass (context : Context) : Bool :=
  context.classPart.isSome

/-- A token of a glob. -/
inductive Token where
  /-- A backslash and the character that it escapes. -/
  | escape (inClass : Bool) (escaped : Char)
  /-- A backslash that ends the glob. -/
  | backslash (inClass : Bool)
  /-- The `[` that opens a class. -/
  | classOpen
  /-- The `]` that closes a class. -/
  | classClose
  /-- The `!` that complements a class. -/
  | complement
  /-- A character of a class; it is guarded if it would otherwise have a
  meaning of its own in the class of a regular expression. -/
  | member (guarded : Bool) (c : Char)
  /-- The mark and the `(` that open an extended group. -/
  | groupOpen (multiplicity : Multiplicity)
  /-- The `)` that closes an extended group. -/
  | groupClose (multiplicity : Multiplicity)
  /-- `**`, which takes a following `/` along. -/
  | tree (slash : Bool)
  /-- A single `*`. -/
  | star
  /-- A single `?`. -/
  | one
  /-- The `{` that opens braces. -/
  | braceOpen
  /-- The `}` that closes braces. -/
  | braceClose
  /-- The `,` between two alternatives of braces. -/
  | comma
  /-- The `|` between two alternatives of an extended group. -/
  | bar
  /-- Any other character, which stands for itself. -/
  | literal (c : Char)
  deriving DecidableEq

/-- The text that the token was read from. -/
def Token.source : Token → Text
  | .escape _ escaped => ['\\', escaped]
  | .backslash _ => ['\\']
  | .classOpen => ['[']
  | .classClose => [']']
  | .complement => ['!']
  | .member _ c => [c]
  | .groupOpen multiplicity => [multiplicity.mark, '(']
  | .groupClose _ => [')']
  | .tree slash => if slash then ['*', '*', '/'] else ['*', '*']
  | .star => ['*']
  | .one => ['?']
  | .braceOpen => ['{']
  | .braceClose => ['}']
  | .comma => [',']
  | .bar => ['|']
  | .literal c => [c]

/-- The number of characters of the token after its first. -/
def Token.lookahead (token : Token) : Nat :=
  token.source.length - 1

/-- The token that starts with a backslash. -/
def Token.readEscape (inClass : Bool) : Text → Token
  | [] => .backslash inClass
  | escaped :: _ => .escape inClass escaped

/-- The token that starts with a character in a class.  An unescaped `]`
always closes the class. -/
def Token.readMember (part : ClassPart) (c : Char) (rest : Text) : Token :=
  if c = ']' then .classClose
  else if c = '!' ∧ part = .leading then .complement
  else if c = '[' ∨ c = '&' ∨ c = '~' then .member true c
  else if c = '-' ∧ rest.head? = some '-' then .member true c
  else .member false c

/-- The token that starts with a `*` before which no group opens. -/
def Token.readStar : Text → Token
  | '*' :: '/' :: _ => .tree true
  | '*' :: _ => .tree false
  | _ => .star

/-- The token that starts with a character outside of classes, where no
escape and no extended group starts. -/
def Token.readPlain (context : Context) (c : Char) (rest : Text) : Token :=
  match c, context.groups with
  | ')', multiplicity :: _ => .groupClose multiplicity
  | '|', _ :: _ => .bar
  | '*', _ => .readStar rest
  | '?', _ => .one
  | '[', _ => .classOpen
  | '{', _ => .braceOpen
  | '}', _ => if context.braces = 0 then .literal c else .braceClose
  | ',', _ => if context.braces = 0 then .literal c else .comma
  | _, _ => .literal c

/-- The extended group that a character opens together with the text after
it. -/
def Multiplicity.opening? (c : Char) (rest : Text) : Option Multiplicity :=
  if rest.head? = some '(' then Multiplicity.ofMark? c else none

/-- The token that starts with the character `c`, where `rest` follows it. -/
def Context.read (context : Context) (c : Char) (rest : Text) : Token :=
  if c = '\\' then .readEscape context.inClass rest
  else
    match context.classPart, Multiplicity.opening? c rest with
    | some part, _ => .readMember part c rest
    | none, some multiplicity => .groupOpen multiplicity
    | none, none => .readPlain context c rest

/-- The context behind a token. -/
def Context.after (context : Context) : Token → Context
  | .escape inClass _ | .backslash inClass =>
      if inClass then { context with classPart := some .interior } else context
  | .classOpen => { context with classPart := some .leading }
  | .classClose => { context with classPart := none }
  | .complement | .member _ _ => { context with classPart := some .interior }
  | .groupOpen multiplicity => { context with groups := multiplicity :: context.groups }
  | .groupClose _ => { context with groups := context.groups.tail }
  | .braceOpen => { context with braces := context.braces + 1 }
  | .braceClose => { context with braces := context.braces - 1 }
  | .tree _ | .star | .one | .comma | .bar | .literal _ => context

/-- The context behind a list of tokens. -/
def Context.afterAll (context : Context) (tokens : List Token) : Context :=
  tokens.foldl Context.after context

/-- The tokens of a text that is read in the given context. -/
def tokens (context : Context) : Text → List Token
  | [] => []
  | c :: rest =>
      let token := context.read c rest
      token :: tokens (context.after token) (rest.drop token.lookahead)
termination_by text => text.length
decreasing_by simp only [List.length_drop, List.length_cons]; omega

end ShellGlob.Glob
