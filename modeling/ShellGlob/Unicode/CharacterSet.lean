import ShellGlob.Unicode.Ranges.Proper

/-!
# Sets of characters

A set of characters is a proper list of intervals.  Each operation has a law
that says which characters belong to its result.
-/

namespace ShellGlob.Unicode

/-- A set of characters. -/
structure CharacterSet where
  ranges : Ranges
  proper : ranges.Proper
  deriving DecidableEq

namespace CharacterSet

def contains (set : CharacterSet) (c : Char) : Bool :=
  set.ranges.containsCodePoint c.toNat

/-- The set of a table. -/
def ofTable (ranges : Ranges) (checked : ranges.isProperFrom 0 = true) : CharacterSet :=
  ⟨ranges, (Ranges.proper_of_isProperFrom checked).1⟩

def empty : CharacterSet :=
  ⟨[], Ranges.proper_nil⟩

def between (first last : Char) : CharacterSet :=
  ⟨.between first last, Ranges.proper_between first last⟩

def single (c : Char) : CharacterSet :=
  between c c

def union (left right : CharacterSet) : CharacterSet :=
  ⟨left.ranges.union right.ranges, Ranges.proper_union left.proper right.proper⟩

def intersection (left right : CharacterSet) : CharacterSet :=
  ⟨left.ranges.intersection right.ranges, Ranges.proper_intersection left.proper right.proper⟩

def complement (set : CharacterSet) : CharacterSet :=
  ⟨set.ranges.complement, Ranges.proper_complement set.proper⟩

/-- The characters of the first set that are not in the second. -/
def difference (left right : CharacterSet) : CharacterSet :=
  left.intersection right.complement

/-- The characters of exactly one of two sets. -/
def symmetricDifference (left right : CharacterSet) : CharacterSet :=
  (left.union right).difference (left.intersection right)

theorem contains_iff (set : CharacterSet) (c : Char) :
    set.contains c = true ↔ set.ranges.Has c.toNat :=
  Ranges.containsCodePoint_iff set.proper c.toNat

theorem contains_empty (c : Char) : empty.contains c = false :=
  rfl

theorem contains_between (first last c : Char) :
    (between first last).contains c = (decide (first ≤ c) && decide (c ≤ last)) := by
  rw [Bool.eq_iff_iff, contains_iff]
  simp [between, Ranges.has_between]

theorem contains_single (value c : Char) : (single value).contains c = decide (c = value) := by
  rw [single, contains_between, Bool.eq_iff_iff]
  simp only [Bool.and_eq_true, decide_eq_true_eq]
  constructor
  · exact fun between => Char.le_antisymm between.2 between.1
  · rintro rfl
    exact ⟨Char.le_refl c, Char.le_refl c⟩

theorem contains_union (left right : CharacterSet) (c : Char) :
    (left.union right).contains c = (left.contains c || right.contains c) := by
  rw [Bool.eq_iff_iff, Bool.or_eq_true]
  simp only [contains_iff]
  exact Ranges.has_union left.proper right.proper c.toNat

theorem contains_intersection (left right : CharacterSet) (c : Char) :
    (left.intersection right).contains c = (left.contains c && right.contains c) := by
  rw [Bool.eq_iff_iff, Bool.and_eq_true]
  simp only [contains_iff]
  exact Ranges.has_intersection left.ranges right.ranges c.toNat

theorem contains_complement (set : CharacterSet) (c : Char) :
    set.complement.contains c = !set.contains c := by
  rw [Bool.eq_iff_iff, Bool.not_eq_true', ← Bool.not_eq_true]
  simp only [contains_iff]
  exact Ranges.has_complement set.proper c

theorem contains_difference (left right : CharacterSet) (c : Char) :
    (left.difference right).contains c = (left.contains c && !right.contains c) := by
  rw [difference, contains_intersection, contains_complement]

theorem contains_symmetricDifference (left right : CharacterSet) (c : Char) :
    (left.symmetricDifference right).contains c = (left.contains c != right.contains c) := by
  rw [symmetricDifference, contains_difference, contains_union, contains_intersection]
  cases left.contains c <;> cases right.contains c <;> rfl

end CharacterSet

end ShellGlob.Unicode
