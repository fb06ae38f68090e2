import ShellGlob.Regex.Basic
import ShellGlob.Regex.Parser.Brackets

/-!
# Reading regular expressions

A regular expression is read as a left fold over its characters: `State` is
what is known between two of them, and `State.step` reads one.  Reading a text
is therefore reading its front and then going on with the rest, and the first
error from the left is the one that is reported.  Groups that are left open
show only at the end of the text.
-/

namespace ShellGlob.Regex

/-- The text behind an opening parenthesis as far as it has been read. -/
structure Draft where
  /-- The branches before the last `|`, the latest first. -/
  branches : List Regex := []
  /-- The items behind the last `|`, the latest first. -/
  items : List Regex := []
  deriving DecidableEq

namespace Draft

/-- The draft with one more item. -/
def push (draft : Draft) (item : Regex) : Draft :=
  { draft with items := item :: draft.items }

/-- The draft behind a `|`. -/
def split (draft : Draft) : Draft :=
  ⟨ofItems draft.items.reverse :: draft.branches, []⟩

/-- The expression that has been read. -/
def regex (draft : Draft) : Regex :=
  ofBranches draft.split.branches.reverse

/-- The draft behind an operator, which applies to the last item.  A `?`
behind an operator makes that one lazy. -/
def repeatLast? (draft : Draft) (operator : Repetition) : Option Draft :=
  match operator, draft.items with
  | _, [] => none
  | .optional, .repetition inner true body :: rest =>
      some { draft with items := .repetition inner false body :: rest }
  | operator, item :: rest =>
      some { draft with items := .repetition operator true item :: rest }

end Draft

/-- The expression that an operand is outside of classes. -/
def Operand.regex : Operand → Regex
  | .literal value => .atom (.literal value)
  | .shorthand value => .atom (.shorthand value)
  | .boundary false => .assertion .boundary
  | .boundary true => .assertion .noBoundary

/-- A group that is open. -/
structure OpenGroup where
  /-- The place of its `(`. -/
  start : Nat
  capturing : Bool
  /-- What stands before the group. -/
  outside : Draft
  deriving DecidableEq

/-- What the last characters have begun. -/
inductive Pending where
  | nothing
  /-- The `(` of a group, which a `?` may follow. -/
  | parenthesis
  /-- The `(?` of a group. -/
  | question
  | escape (escape : Escape)
  | brackets (brackets : Brackets)
  deriving DecidableEq

/-- What is known between two characters. -/
structure State where
  /-- The number of characters read. -/
  position : Nat := 0
  /-- What has been read of the innermost group. -/
  draft : Draft := {}
  /-- The open groups, innermost first. -/
  groups : List OpenGroup := []
  pending : Pending := .nothing
  deriving DecidableEq

namespace State

/-- Whether a class is open. -/
def inClass (state : State) : Bool :=
  match state.pending with
  | .brackets _ => true
  | _ => false

/-- The part of the text that ends with the current character and starts
`before` characters earlier. -/
def spanBack (state : State) (before : Nat) : Span :=
  ⟨state.position - before, state.position + 1⟩

/-- The state behind an item that ends with the current character. -/
def push (state : State) (item : Regex) : State :=
  { state with draft := state.draft.push item, pending := .nothing }

/-- Closes the innermost group. -/
def closeGroup (state : State) : Except ParseError State :=
  match state.groups with
  | [] => .error ⟨.unopenedGroup, state.spanBack 0⟩
  | innermost :: outer =>
      .ok { state with
        draft := innermost.outside.push (.group innermost.capturing state.draft.regex),
        groups := outer }

/-- Applies an operator to the last item. -/
def repeatLast (state : State) (operator : Repetition) : Except ParseError State :=
  match state.draft.repeatLast? operator with
  | none => .error ⟨.danglingRepetition, state.spanBack 0⟩
  | some draft => .ok { state with draft }

/-- Reads a character that is no part of an escape or a class. -/
def stepPlain (state : State) (c : Char) : Except ParseError State :=
  match c with
  | '(' =>
      .ok { state with
        draft := {}, groups := ⟨state.position, true, state.draft⟩ :: state.groups,
        pending := .parenthesis }
  | ')' => state.closeGroup
  | '|' => .ok { state with draft := state.draft.split }
  | '[' => .ok { state with pending := .brackets (.opened state.position) }
  | '{' => .error ⟨.countedRepetition, state.spanBack 0⟩
  | '\\' => .ok { state with pending := .escape .opened }
  | '.' => .ok (state.push (.atom .dot))
  | '^' => .ok (state.push (.assertion .start))
  | '$' => .ok (state.push (.assertion .stop))
  | c =>
      match Repetition.ofSymbol? c with
      | some operator => state.repeatLast operator
      | none => .ok (state.push (.atom (.literal (.plain c))))

/-- Reads a character, without counting it. -/
def stepPending (state : State) (c : Char) : Except ParseError State :=
  match state.pending, state.groups with
  | .nothing, _ => state.stepPlain c
  | .parenthesis, _ =>
      if c = '?' then .ok { state with pending := .question }
      else { state with pending := .nothing }.stepPlain c
  | .question, innermost :: outer =>
      if c = ':' then
        .ok { state with
          groups := { innermost with capturing := false } :: outer, pending := .nothing }
      else .error ⟨.unknownGroup, state.spanBack 0⟩
  | .question, [] => .error ⟨.unknownGroup, state.spanBack 0⟩
  | .escape escape, _ =>
      match escape.step c with
      | .reading escape => .ok { state with pending := .escape escape }
      | .complete operand => .ok (state.push operand.regex)
      | .unknown => .error ⟨.unknownEscape, state.spanBack escape.source.length⟩
  | .brackets brackets, _ =>
      match brackets.step state.position c with
      | .error error => .error error
      | .ok (.reading brackets) => .ok { state with pending := .brackets brackets }
      | .ok (.complete negated members) => .ok (state.push (.atom (.bracket negated members)))

/-- Reads a character. -/
def step (state : State) (c : Char) : Except ParseError State :=
  (state.stepPending c).map fun next => { next with position := state.position + 1 }

/-- Reads a text. -/
def run (state : State) (text : Text) : Except ParseError State :=
  text.foldlM step state

/-- Reading goes on where the front of a text has left off. -/
theorem run_append (state : State) (front rest : Text) :
    state.run (front ++ rest) = state.run front >>= fun next => next.run rest :=
  List.foldlM_append

/-- The expression, when the text ends here. -/
def finish (state : State) : Except ParseError Regex :=
  match state.pending, state.groups with
  | .brackets brackets, _ => .error brackets.unclosed
  | .escape escape, _ =>
      .error ⟨.unfinishedEscape, ⟨state.position - escape.source.length, state.position⟩⟩
  | _, innermost :: _ => .error ⟨.unclosedGroup, ⟨innermost.start, innermost.start + 1⟩⟩
  | _, [] => .ok state.draft.regex

end State

/-- The tree of a text, of any number of levels. -/
def parse (pattern : Text) : Except ParseError Regex := do
  let state ← State.run {} pattern
  state.finish

end ShellGlob.Regex
