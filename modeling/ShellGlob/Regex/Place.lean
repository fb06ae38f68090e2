import ShellGlob.Regex.Basic

/-!
# Places in a text

A place lies before, between or behind the characters of a text.  What an
assertion asks of a place depends on the characters on its two sides.
-/

namespace ShellGlob.Regex

/-- A place in a text, with the characters next to it. -/
structure Place where
  /-- The number of characters before the place. -/
  position : Nat
  before : Option Char
  after : Option Char
  deriving DecidableEq

namespace Place

/-- The place at a position of a text. -/
def ofPosition (text : Text) (position : Nat) : Place :=
  ⟨position, if position = 0 then none else text[position - 1]?, text[position]?⟩

/-- The places of a text from a position on, where `before` stands before the
first of them and `rest` behind it. -/
def listFrom (position : Nat) (before : Option Char) : (rest : Text) → List Place
  | [] => [⟨position, before, none⟩]
  | c :: rest => ⟨position, before, some c⟩ :: Place.listFrom (position + 1) (some c) rest

/-- All places of a text, from its start to its end. -/
def all (text : Text) : List Place :=
  Place.listFrom 0 none text

/-- Whether a word starts or ends at the place. -/
def isBoundary (place : Place) : Bool :=
  place.before.any Unicode.isWordCharacter != place.after.any Unicode.isWordCharacter

theorem ofPosition_append (front rest : Text) :
    ofPosition (front ++ rest) front.length =
      ⟨front.length, front.getLast?, rest.head?⟩ := by
  rw [ofPosition, List.getLast?_eq_getElem?]
  cases front with
  | nil => simp [List.head?_eq_getElem?]
  | cons c front =>
      rw [List.getElem?_append_left (by simp), List.getElem?_append_right (by simp)]
      simp [List.head?_eq_getElem?]

private theorem listFrom_eq_map (front rest : Text) :
    listFrom front.length front.getLast? rest =
      (List.range' front.length (rest.length + 1)).map (ofPosition (front ++ rest)) := by
  induction rest generalizing front with
  | nil =>
      have here := ofPosition_append front []
      simpa [listFrom, List.range'] using here.symm
  | cons c rest ih =>
      have next := ih (front ++ [c])
      simp only [List.length_append, List.length_cons, List.length_nil, List.getLast?_concat,
        List.append_assoc, List.cons_append, List.nil_append, Nat.zero_add] at next
      have here := ofPosition_append front (c :: rest)
      rw [List.length_cons, List.range'_succ, List.map_cons, here, listFrom, next]
      rfl

/-- The places of a text are those at its positions. -/
theorem all_eq_map (text : Text) :
    all text = (List.range (text.length + 1)).map (ofPosition text) := by
  simpa [List.range_eq_range', all] using listFrom_eq_map [] text

end Place

/-- Whether an assertion holds at a place. -/
def Assertion.holds (place : Place) : Assertion → Bool
  | .start => place.before.isNone
  | .stop => place.after.isNone
  | .boundary => place.isBoundary
  | .noBoundary => !place.isBoundary

end ShellGlob.Regex
