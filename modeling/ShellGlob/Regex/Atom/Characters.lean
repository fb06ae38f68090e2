import ShellGlob.Regex.Atom

/-!
# The characters of an atom

`Atom.characters` is the set of the characters that an atom matches, whatever
its spelling is.  Its members are the characters that the atom accepts
(`Atom.contains_characters`).
-/

namespace ShellGlob.Regex

open Unicode (CharacterSet)

/-- The set, or its complement. -/
def negateIf (negated : Bool) (characters : CharacterSet) : CharacterSet :=
  if negated then characters.complement else characters

/-- The characters of a shorthand. -/
def Shorthand.characters (shorthand : Shorthand) : CharacterSet :=
  negateIf shorthand.negated shorthand.property.characters

/-- The operator on sets. -/
def SetOperator.combine : SetOperator → CharacterSet → CharacterSet → CharacterSet
  | .intersection => CharacterSet.intersection
  | .difference => CharacterSet.difference
  | .symmetricDifference => CharacterSet.symmetricDifference

/-- The characters of a set in a class. -/
def ClassSet.characters : ClassSet → CharacterSet
  | .empty => .empty
  | .literal value => .single value.value
  | .range first last => .between first.value last.value
  | .shorthand value => value.characters
  | .named negated value => negateIf negated value.characters
  | .bracket negated members => negateIf negated members.characters
  | .union first rest => first.characters.union rest.characters
  | .combine operator left right => operator.combine left.characters right.characters

/-- The characters that an atom matches. -/
def Atom.characters : Atom → CharacterSet
  | .literal value => .single value.value
  | .dot => (CharacterSet.single '\n').complement
  | .shorthand value => value.characters
  | .bracket negated members => (ClassSet.bracket negated members).characters

theorem contains_negateIf (negated : Bool) (characters : CharacterSet) (c : Char) :
    (negateIf negated characters).contains c = (characters.contains c != negated) := by
  cases negated
  · simp [negateIf]
  · simp [negateIf, CharacterSet.contains_complement]

theorem Shorthand.contains_characters (shorthand : Shorthand) (c : Char) :
    shorthand.characters.contains c = shorthand.contains c :=
  contains_negateIf shorthand.negated shorthand.property.characters c

private theorem SetOperator.contains_combine (operator : SetOperator) (left right : CharacterSet)
    (c : Char) :
    (operator.combine left right).contains c =
      operator.apply (left.contains c) (right.contains c) := by
  cases operator with
  | intersection => exact CharacterSet.contains_intersection left right c
  | difference => exact CharacterSet.contains_difference left right c
  | symmetricDifference => exact CharacterSet.contains_symmetricDifference left right c

private theorem ClassSet.contains_characters (set : ClassSet) (c : Char) :
    set.characters.contains c = set.contains c := by
  induction set with
  | empty => rfl
  | literal value => exact CharacterSet.contains_single value.value c
  | range first last => exact CharacterSet.contains_between first.value last.value c
  | shorthand value => exact value.contains_characters c
  | named negated value => exact contains_negateIf negated value.characters c
  | bracket negated members ih =>
      rw [ClassSet.characters, contains_negateIf, ih, ClassSet.contains]
  | union first rest firstSame restSame =>
      rw [ClassSet.characters, CharacterSet.contains_union, firstSame, restSame, ClassSet.contains]
  | combine operator left right leftSame rightSame =>
      rw [ClassSet.characters, SetOperator.contains_combine, leftSame, rightSame,
        ClassSet.contains]

/-- The set of an atom has the characters that the atom accepts. -/
theorem Atom.contains_characters (atom : Atom) (c : Char) :
    atom.characters.contains c = atom.accepts c := by
  cases atom with
  | literal value => exact CharacterSet.contains_single value.value c
  | dot =>
      rw [Atom.characters, CharacterSet.contains_complement, CharacterSet.contains_single,
        Atom.accepts, Bool.eq_iff_iff]
      simp
  | shorthand value => exact value.contains_characters c
  | bracket negated members => exact (ClassSet.bracket negated members).contains_characters c

end ShellGlob.Regex
