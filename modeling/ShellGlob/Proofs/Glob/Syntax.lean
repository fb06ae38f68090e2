import ShellGlob.Proofs.Glob.Escapes
import ShellGlob.Regex.Parser
import ShellGlob.Regex.Spans

/-!
# Syntax trees of globs

A glob without negations is a sequence of parts, and braces and extended groups
hold a choice of sequences.  A tree has a text (`Sequence.text`), and it says
which parts of a candidate it matches (`Sequence.Spans`), without any regular
expression.

Not every tree is written by its text.  `Sequence.Written` asks that the
characters that separate or close something are escaped where they would do so,
and that no two neighbours are read as one token.
-/

namespace ShellGlob.Glob

open Regex (Repeated Place)

/-- A part that matches a single character. -/
inductive Single where
  | literal (c : Char)
  /-- A backslash and a character, but no word boundary. -/
  | escape (escaped : Char)
  | one
  /-- A class with the given text between its brackets. -/
  | charClass (inside : Text)

mutual

inductive Part where
  | single (value : Single)
  /-- `\b`, or `\B` if it is negated. -/
  | boundary (negated : Bool)
  | star
  /-- `**`, which may take a `/` along. -/
  | tree (slash : Bool)
  | braces (choice : Choice)
  | group (multiplicity : Multiplicity) (choice : Choice)

inductive Sequence where
  | empty
  | cons (first : Part) (rest : Sequence)

/-- The alternatives of braces or of a group, of which there is at least one. -/
inductive Choice where
  | last (branch : Sequence)
  | more (branch : Sequence) (rest : Choice)

end

def Single.text : Single → Text
  | .literal c => [c]
  | .escape escaped => ['\\', escaped]
  | .one => ['?']
  | .charClass inside => '[' :: (inside ++ [']'])

mutual

/-- The text of a part. -/
def Part.text : Part → Text
  | .single value => value.text
  | .boundary negated => ['\\', if negated then 'B' else 'b']
  | .star => ['*']
  | .tree slash => if slash then ['*', '*', '/'] else ['*', '*']
  | .braces choice => '{' :: (choice.text ',' ++ ['}'])
  | .group multiplicity choice =>
      multiplicity.mark :: '(' :: (choice.text '|' ++ [')'])

def Sequence.text : Sequence → Text
  | .empty => []
  | .cons first rest => first.text ++ rest.text

def Choice.text (separator : Char) : Choice → Text
  | .last branch => branch.text
  | .more branch rest => branch.text ++ separator :: rest.text separator

end

def classPattern (inside : Text) : Text :=
  '[' :: (patternFrom { classPart := some .leading } inside ++ [']'])

/-- The part is written by its text where the given context is open.  The pattern
of a class has to be a class of a regular expression. -/
def Single.Written (context : Context) : Single → Prop
  | .literal c =>
      c ∉ ['\\', '*', '?', '[', '{', '(', ')'] ∧
        (context.braces ≠ 0 → c ∉ [',', '}']) ∧ (context.groups ≠ [] → c ≠ '|')
  | .escape escaped => escaped ∉ ['b', 'B']
  | .one => True
  | .charClass inside =>
      EscapesAll [']'] inside ∧
        ∃ negated members,
          Regex.parse (classPattern inside) = .ok (.atom (.bracket negated members))

/-- The text behind the part is not read as belonging to it. -/
def Part.Meets (next : Text) : Part → Prop
  | .star => next.head? ≠ some '*'
  | .tree false => next.head? ≠ some '/'
  | _ => True

mutual

/-- The part is written by its text where the given context is open. -/
def Part.Written (context : Context) : Part → Prop
  | .single value => value.Written context
  | .braces choice => choice.Written { context with braces := context.braces + 1 }
  | .group multiplicity choice =>
      choice.Written { context with groups := multiplicity :: context.groups }
  | .boundary _ | .star | .tree _ => True

def Sequence.Written (context : Context) : Sequence → Prop
  | .empty => True
  | .cons first rest =>
      first.Written context ∧ first.Meets rest.text ∧ rest.Written context

def Choice.Written (context : Context) : Choice → Prop
  | .last branch => branch.Written context
  | .more branch rest => branch.Written context ∧ rest.Written context

end

/-- Whether an escape stands for the character `c`. -/
def escapeAccepts (escaped c : Char) : Bool :=
  match escaped with
  | 'n' => c = '\n'
  | 'r' => c = '\r'
  | 't' => c = '\t'
  | _ =>
      match Regex.Shorthand.ofLetter? escaped with
      | some shorthand => shorthand.contains c
      | none => c = escaped

/-- The characters that the part matches.  A class matches those of the class that
its pattern is. -/
def Single.Accepts : Single → Char → Prop
  | .literal value, c => c = value
  | .escape escaped, c => escapeAccepts escaped c = true
  | .one, c => c ≠ '/' ∧ c ≠ '\\'
  | .charClass inside, c =>
      ∃ value, Regex.parse (classPattern inside) = .ok (.atom value) ∧
        value.accepts c = true

/-- From `start` to `stop` there are only characters of the given kind. -/
def Stretch (text : Text) (allowed : Char → Prop) (start stop : Nat) : Prop :=
  start ≤ stop ∧ ∀ place, start ≤ place → place < stop →
    ∃ c, text[place]? = some c ∧ allowed c

/-- What an extended group matches, of alternatives that match what `once`
says. -/
def Multiplicity.Spans (once : Nat → Nat → Prop) (start stop : Nat) :
    Multiplicity → Prop
  | .zeroOrOne => start = stop ∨ once start stop
  | .zeroOrMore => Repeated once start stop
  | .oneOrMore => ∃ middle, once start middle ∧ Repeated once middle stop
  | .exactlyOne => once start stop

mutual

/-- The part matches the text from `start` to `stop`. -/
def Part.Spans (text : Text) : Part → (start stop : Nat) → Prop
  | .single value, start, stop =>
      stop = start + 1 ∧ ∃ c, text[start]? = some c ∧ value.Accepts c
  | .boundary negated, start, stop =>
      start = stop ∧ (Place.ofPosition text start).isBoundary = !negated
  | .star, start, stop => Stretch text (fun c => c ≠ '/' ∧ c ≠ '\\') start stop
  | .tree _, start, stop => Stretch text (fun c => c ≠ '\n') start stop
  | .braces choice, start, stop => choice.Spans text start stop
  | .group multiplicity choice, start, stop =>
      multiplicity.Spans (choice.Spans text) start stop

def Sequence.Spans (text : Text) : Sequence → (start stop : Nat) → Prop
  | .empty, start, stop => start = stop
  | .cons first rest, start, stop =>
      ∃ middle, first.Spans text start middle ∧ rest.Spans text middle stop

def Choice.Spans (text : Text) : Choice → (start stop : Nat) → Prop
  | .last branch, start, stop => branch.Spans text start stop
  | .more branch rest, start, stop =>
      branch.Spans text start stop ∨ rest.Spans text start stop

end

def Sequence.Matches (glob : Sequence) (text : Text) : Prop :=
  glob.Spans text 0 text.length

private theorem Single.exists_text_eq_cons {context : Context} {value : Single}
    (written : value.Written context) :
    ∃ c rest, value.text = c :: rest ∧ c ≠ '(' := by
  cases value with
  | literal c =>
      refine ⟨c, [], rfl, ?_⟩
      rintro rfl
      exact absurd written.1 (by decide)
  | escape escaped => exact ⟨'\\', [escaped], rfl, by decide⟩
  | one => exact ⟨'?', [], rfl, by decide⟩
  | charClass inside => exact ⟨'[', inside ++ [']'], rfl, by decide⟩

theorem Part.exists_text_eq_cons {context : Context} {part : Part}
    (written : part.Written context) :
    ∃ c rest, part.text = c :: rest ∧ c ≠ '(' := by
  cases part with
  | single value =>
      rw [Part.Written] at written
      rw [Part.text]
      exact value.exists_text_eq_cons written
  | boundary negated => exact ⟨'\\', _, by rw [Part.text], by decide⟩
  | star => exact ⟨'*', [], by rw [Part.text], by decide⟩
  | tree slash =>
      rw [Part.text]
      cases slash with
      | false => exact ⟨'*', ['*'], rfl, by decide⟩
      | true => exact ⟨'*', ['*', '/'], rfl, by decide⟩
  | braces choice => exact ⟨'{', _, by rw [Part.text], by decide⟩
  | group multiplicity choice =>
      refine ⟨multiplicity.mark, _, by rw [Part.text], ?_⟩
      cases multiplicity with
      | zeroOrOne | zeroOrMore | oneOrMore | exactlyOne => decide

theorem Sequence.head?_text_ne_paren {context : Context} {sequence : Sequence}
    (written : sequence.Written context) : sequence.text.head? ≠ some '(' := by
  cases sequence with
  | empty => simp [Sequence.text]
  | cons first rest =>
      rw [Sequence.Written] at written
      obtain ⟨c, behind, text, notParen⟩ := Part.exists_text_eq_cons written.1
      simp [Sequence.text, text, notParen]

end ShellGlob.Glob
