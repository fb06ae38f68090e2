import ShellGlob.Unicode.Ranges

/-!
# Proper lists of intervals

A list of intervals is `Proper` if it is ascending and has characters at both
ends of each interval.  Then the search that stops early finds every member
(`containsCodePoint_iff`).  The operations keep lists proper, and their members
are the ones that set theory asks for.
-/

namespace ShellGlob.Unicode.Ranges

/-- An interval whose ends are code points of characters, in order. -/
structure IsInterval (interval : Nat × Nat) : Prop where
  ordered : interval.1 ≤ interval.2
  first : interval.1.isValidChar
  last : interval.2.isValidChar

/-- Intervals of characters in ascending order that do not overlap. -/
structure Proper (ranges : Ranges) : Prop where
  intervals : ∀ interval ∈ ranges, IsInterval interval
  ascending : ranges.Pairwise fun lower upper => lower.2 < upper.1

/-- A code point lies in one of the intervals, wherever that stands. -/
def Has (ranges : Ranges) (codePoint : Nat) : Prop :=
  ∃ interval ∈ ranges, interval.1 ≤ codePoint ∧ codePoint ≤ interval.2

@[simp] theorem has_nil (codePoint : Nat) : ¬ Has [] codePoint := by
  simp [Has]

@[simp] theorem has_cons (interval : Nat × Nat) (rest : Ranges) (codePoint : Nat) :
    Has (interval :: rest) codePoint ↔
      (interval.1 ≤ codePoint ∧ codePoint ≤ interval.2) ∨ Has rest codePoint := by
  simp [Has]

theorem proper_nil : Proper [] :=
  ⟨by simp, .nil⟩

theorem proper_cons {interval : Nat × Nat} {rest : Ranges} :
    Proper (interval :: rest) ↔
      IsInterval interval ∧ (∀ later ∈ rest, interval.2 < later.1) ∧ Proper rest := by
  constructor
  · intro proper
    have parts := List.pairwise_cons.mp proper.ascending
    exact ⟨proper.intervals interval List.mem_cons_self, parts.1,
      fun other member => proper.intervals other (List.mem_cons_of_mem interval member), parts.2⟩
  · intro ⟨isInterval, below, proper⟩
    refine ⟨?_, List.pairwise_cons.mpr ⟨below, proper.ascending⟩⟩
    intro other member
    rcases List.mem_cons.mp member with rfl | member
    · exact isInterval
    · exact proper.intervals other member

theorem containsCodePoint_iff {ranges : Ranges} (proper : Proper ranges) (codePoint : Nat) :
    ranges.containsCodePoint codePoint = true ↔ Has ranges codePoint := by
  induction ranges with
  | nil => simp [containsCodePoint]
  | cons interval rest ih =>
      obtain ⟨first, last⟩ := interval
      have parts := proper_cons.mp proper
      rw [containsCodePoint, has_cons]
      split
      · next beyond =>
          rw [ih parts.2.2]
          constructor
          · exact Or.inr
          · rintro (inside | later)
            · omega
            · exact later
      · next within =>
          simp only [decide_eq_true_eq]
          constructor
          · intro atLeast
            exact Or.inl ⟨atLeast, Nat.le_of_not_lt within⟩
          · rintro (inside | ⟨later, member, inside⟩)
            · exact inside.1
            · have below : last < later.1 := parts.2.1 later member
              have ordered : first ≤ last := parts.1.ordered
              omega

theorem proper_between (first last : Char) : Proper (between first last) := by
  unfold between
  split
  · next ordered => exact proper_cons.mpr ⟨⟨ordered, first.valid, last.valid⟩, by simp, proper_nil⟩
  · exact proper_nil

theorem has_between (first last c : Char) :
    Has (between first last) c.toNat ↔ first ≤ c ∧ c ≤ last := by
  unfold between
  split
  · rw [has_cons]
    simp only [has_nil, or_false]
    rfl
  · next disordered =>
      simp only [has_nil, false_iff]
      intro inside
      exact disordered (Char.le_trans inside.1 inside.2)

/-- Intervals of characters that are ordered by their starts, none of which
starts before `first`. -/
structure OrderedFrom (first : Nat) (ranges : Ranges) : Prop where
  intervals : ∀ interval ∈ ranges, IsInterval interval
  starts : ranges.Pairwise fun lower upper => lower.1 ≤ upper.1
  bounded : ∀ interval ∈ ranges, first ≤ interval.1

theorem orderedFrom_cons {first : Nat} {interval : Nat × Nat} {rest : Ranges}
    (ordered : OrderedFrom first (interval :: rest)) :
    IsInterval interval ∧ first ≤ interval.1 ∧ OrderedFrom interval.1 rest := by
  have parts := List.pairwise_cons.mp ordered.starts
  refine ⟨ordered.intervals interval List.mem_cons_self,
    ordered.bounded interval List.mem_cons_self, ?_, parts.2, parts.1⟩
  exact fun other member => ordered.intervals other (List.mem_cons_of_mem interval member)

private theorem has_coalesceFrom {first last : Nat} {ranges : Ranges} (codePoint : Nat)
    (ordered : OrderedFrom first ranges) :
    Has (coalesceFrom first last ranges) codePoint ↔
      (first ≤ codePoint ∧ codePoint ≤ last) ∨ Has ranges codePoint := by
  induction ranges generalizing first last with
  | nil => simp [coalesceFrom]
  | cons interval rest ih =>
      obtain ⟨nextFirst, nextLast⟩ := interval
      obtain ⟨isInterval, atLeast, tailOrdered⟩ := orderedFrom_cons ordered
      rw [coalesceFrom, has_cons]
      simp only at atLeast tailOrdered ⊢
      split
      · have weaker : OrderedFrom first rest :=
          ⟨tailOrdered.intervals, tailOrdered.starts,
            fun other member => Nat.le_trans atLeast (tailOrdered.bounded other member)⟩
        rw [ih weaker, ← or_assoc]
        refine or_congr_left ?_
        omega
      · rw [has_cons, ih tailOrdered]

theorem proper_coalesceFrom {first last : Nat} {ranges : Ranges}
    (isInterval : IsInterval (first, last)) (ordered : OrderedFrom first ranges) :
    Proper (coalesceFrom first last ranges) ∧
      ∀ interval ∈ coalesceFrom first last ranges, first ≤ interval.1 := by
  induction ranges generalizing first last with
  | nil =>
      refine ⟨proper_cons.mpr ⟨isInterval, by simp, proper_nil⟩, ?_⟩
      intro interval member
      simp [coalesceFrom] at member
      simp [member]
  | cons interval rest ih =>
      obtain ⟨nextFirst, nextLast⟩ := interval
      obtain ⟨nextInterval, atLeast, tailOrdered⟩ := orderedFrom_cons ordered
      rw [coalesceFrom]
      split
      · have weaker : OrderedFrom first rest :=
          ⟨tailOrdered.intervals, tailOrdered.starts,
            fun other member => Nat.le_trans atLeast (tailOrdered.bounded other member)⟩
        refine ih ⟨?_, isInterval.first, ?_⟩ weaker
        · exact Nat.le_trans isInterval.ordered (Nat.le_max_left last nextLast)
        · rcases Nat.le_total last nextLast with below | above
          · simpa [Nat.max_eq_right below] using nextInterval.last
          · simpa [Nat.max_eq_left above] using isInterval.last
      · next apart =>
          obtain ⟨tailProper, tailBounded⟩ := ih nextInterval tailOrdered
          constructor
          · refine proper_cons.mpr ⟨isInterval, ?_, tailProper⟩
            intro later member
            have := tailBounded later member
            simp only
            omega
          · intro interval member
            rcases List.mem_cons.mp member with rfl | member
            · exact Nat.le_refl first
            · exact Nat.le_trans atLeast (tailBounded interval member)

private theorem Proper.starts {ranges : Ranges} (proper : Proper ranges) :
    ranges.Pairwise fun lower upper => lower.1 ≤ upper.1 := by
  induction ranges with
  | nil => exact .nil
  | cons interval rest ih =>
      have parts := proper_cons.mp proper
      refine List.pairwise_cons.mpr ⟨?_, ih parts.2.2⟩
      intro later member
      have below := parts.2.1 later member
      have ordered := parts.1.ordered
      omega

theorem orderedFrom_merge {left right : Ranges} (leftProper : Proper left)
    (rightProper : Proper right) :
    OrderedFrom 0 (left.merge right fun one other => one.1 ≤ other.1) := by
  refine ⟨?_, ?_, fun _ _ => Nat.zero_le _⟩
  · intro interval member
    rcases List.mem_merge.mp member with member | member
    · exact leftProper.intervals interval member
    · exact rightProper.intervals interval member
  · let earlier (one other : Nat × Nat) : Bool := one.1 ≤ other.1
    have transitive : ∀ one other third, earlier one other → earlier other third →
        earlier one third := by
      simp only [earlier, decide_eq_true_eq]
      omega
    have total : ∀ one other, (earlier one other || earlier other one) = true := by
      simp only [earlier, Bool.or_eq_true, decide_eq_true_eq]
      omega
    have sorted := List.pairwise_merge transitive total left right
      (by simpa [earlier] using leftProper.starts) (by simpa [earlier] using rightProper.starts)
    simpa [earlier] using sorted

private theorem has_coalesce {ranges : Ranges} (codePoint : Nat) (ordered : OrderedFrom 0 ranges) :
    Has (coalesce ranges) codePoint ↔ Has ranges codePoint := by
  cases ranges with
  | nil => rfl
  | cons interval rest =>
      rw [coalesce, has_coalesceFrom codePoint (orderedFrom_cons ordered).2.2, has_cons]

private theorem proper_coalesce {ranges : Ranges} (ordered : OrderedFrom 0 ranges) :
    Proper (coalesce ranges) := by
  cases ranges with
  | nil => exact proper_nil
  | cons interval rest =>
      obtain ⟨isInterval, -, tailOrdered⟩ := orderedFrom_cons ordered
      exact (proper_coalesceFrom isInterval tailOrdered).1

theorem proper_union {left right : Ranges} (leftProper : Proper left)
    (rightProper : Proper right) : Proper (left.union right) :=
  proper_coalesce (orderedFrom_merge leftProper rightProper)

theorem has_union {left right : Ranges} (leftProper : Proper left) (rightProper : Proper right)
    (codePoint : Nat) :
    Has (left.union right) codePoint ↔ Has left codePoint ∨ Has right codePoint := by
  rw [union, has_coalesce codePoint (orderedFrom_merge leftProper rightProper)]
  simp only [Has, List.mem_merge]
  constructor
  · rintro ⟨interval, member | member, inside⟩
    · exact Or.inl ⟨interval, member, inside⟩
    · exact Or.inr ⟨interval, member, inside⟩
  · rintro (⟨interval, member, inside⟩ | ⟨interval, member, inside⟩)
    · exact ⟨interval, Or.inl member, inside⟩
    · exact ⟨interval, Or.inr member, inside⟩

theorem overlap?_eq_some_iff {left right interval : Nat × Nat} :
    overlap? left right = some interval ↔
      interval.1 ≤ interval.2 ∧ interval = (max left.1 right.1, min left.2 right.2) := by
  unfold overlap?
  grind

theorem has_intersection (left right : Ranges) (codePoint : Nat) :
    Has (left.intersection right) codePoint ↔ Has left codePoint ∧ Has right codePoint := by
  simp only [Has, intersection, List.mem_flatMap, List.mem_filterMap, overlap?_eq_some_iff]
  constructor
  · rintro ⟨interval, ⟨one, oneMember, other, otherMember, ordered, rfl⟩, inside⟩
    simp only at inside
    exact ⟨⟨one, oneMember, by omega⟩, ⟨other, otherMember, by omega⟩⟩
  · rintro ⟨⟨one, oneMember, oneInside⟩, ⟨other, otherMember, otherInside⟩⟩
    refine ⟨_, ⟨one, oneMember, other, otherMember, ?_, rfl⟩, ?_⟩
    · simp only
      omega
    · simp only
      omega

theorem proper_intersection {left right : Ranges} (leftProper : Proper left)
    (rightProper : Proper right) : Proper (left.intersection right) := by
  constructor
  · intro interval member
    simp only [intersection, List.mem_flatMap, List.mem_filterMap, overlap?_eq_some_iff] at member
    obtain ⟨one, oneMember, other, otherMember, ordered, rfl⟩ := member
    have oneInterval := leftProper.intervals one oneMember
    have otherInterval := rightProper.intervals other otherMember
    refine ⟨ordered, ?_, ?_⟩
    · rcases Nat.le_total one.1 other.1 with below | above
      · simpa [Nat.max_eq_right below] using otherInterval.first
      · simpa [Nat.max_eq_left above] using oneInterval.first
    · rcases Nat.le_total one.2 other.2 with below | above
      · simpa [Nat.min_eq_left below] using oneInterval.last
      · simpa [Nat.min_eq_right above] using otherInterval.last
  · refine List.pairwise_flatMap.mpr ⟨?_, ?_⟩
    · intro one _
      refine List.Pairwise.filterMap _ ?_ rightProper.ascending
      intro lower upper below first firstFound second secondFound
      rw [overlap?_eq_some_iff] at firstFound secondFound
      rw [firstFound.2, secondFound.2]
      simp only
      omega
    · refine List.Pairwise.imp ?_ leftProper.ascending
      intro lower upper below first firstFound second secondFound
      simp only [List.mem_filterMap, overlap?_eq_some_iff] at firstFound secondFound
      obtain ⟨one, -, -, rfl⟩ := firstFound
      obtain ⟨other, -, -, rfl⟩ := secondFound
      simp only
      omega

theorem codePointAfter_le_iff {last codePoint : Nat} (valid : codePoint.isValidChar) :
    codePointAfter last ≤ codePoint ↔ last < codePoint := by
  unfold codePointAfter
  unfold Nat.isValidChar at valid
  split <;> omega

theorem le_codePointBefore_iff {first codePoint : Nat} (valid : codePoint.isValidChar)
    (positive : 0 < first) : codePoint ≤ codePointBefore first ↔ codePoint < first := by
  unfold codePointBefore
  unfold Nat.isValidChar at valid
  split <;> omega

private theorem lt_codePointAfter (last : Nat) : last < codePointAfter last := by
  unfold codePointAfter
  split <;> omega

private theorem isValidChar_codePointAfter {last : Nat} (valid : last.isValidChar) :
    codePointAfter last ≤ lastCodePoint → (codePointAfter last).isValidChar := by
  unfold codePointAfter lastCodePoint
  unfold Nat.isValidChar at valid ⊢
  split <;> omega

private theorem isValidChar_codePointBefore {first : Nat} (valid : first.isValidChar) :
    (codePointBefore first).isValidChar := by
  unfold codePointBefore
  unfold Nat.isValidChar at valid ⊢
  split <;> omega

theorem le_lastCodePoint {codePoint : Nat} (valid : codePoint.isValidChar) :
    codePoint ≤ lastCodePoint := by
  unfold Nat.isValidChar at valid
  unfold lastCodePoint
  omega

/-- Intervals behind another one start behind the code point after it. -/
theorem Proper.codePointAfter_le {last : Nat} {ranges : Ranges} (proper : Proper ranges)
    (below : ∀ later ∈ ranges, last < later.1) :
    ∀ later ∈ ranges, codePointAfter last ≤ later.1 := by
  intro later member
  exact (codePointAfter_le_iff (proper.intervals later member).first).mpr (below later member)

theorem has_gapsFrom {next : Nat} {ranges : Ranges} (proper : Proper ranges)
    (bounded : ∀ interval ∈ ranges, next ≤ interval.1) {codePoint : Nat}
    (valid : codePoint.isValidChar) :
    Has (gapsFrom next ranges) codePoint ↔ next ≤ codePoint ∧ ¬ Has ranges codePoint := by
  induction ranges generalizing next with
  | nil =>
      have inside := le_lastCodePoint valid
      rw [gapsFrom]
      split
      · simp [inside]
      · next beyond =>
          simp only [has_nil, not_false_eq_true, and_true, false_iff]
          omega
  | cons interval rest ih =>
      obtain ⟨first, last⟩ := interval
      obtain ⟨isInterval, below, tailProper⟩ := proper_cons.mp proper
      have ordered : first ≤ last := isInterval.ordered
      have atLeast : next ≤ first := bounded _ List.mem_cons_self
      have tail : Has (gapsFrom (codePointAfter last) rest) codePoint ↔
          last < codePoint ∧ ¬ Has rest codePoint := by
        rw [ih tailProper (tailProper.codePointAfter_le below), codePointAfter_le_iff valid]
      have behind : Has rest codePoint → last < codePoint := by
        rintro ⟨later, member, inside⟩
        exact Nat.lt_of_lt_of_le (below later member) inside.1
      rw [gapsFrom, has_cons]
      split
      · next apart =>
          rw [has_cons, tail, le_codePointBefore_iff valid (Nat.zero_lt_of_lt apart)]
          by_cases there : Has rest codePoint
          · have := behind there
            simp only [there, not_true_eq_false, and_false, or_true, or_false, iff_false]
            omega
          · simp only [there, not_false_eq_true, and_true, or_false]
            omega
      · rw [tail]
        by_cases there : Has rest codePoint
        · simp [there]
        · simp only [there, not_false_eq_true, and_true, or_false]
          omega

theorem proper_gapsFrom {next : Nat} {ranges : Ranges} (proper : Proper ranges)
    (bounded : ∀ interval ∈ ranges, next ≤ interval.1)
    (valid : next ≤ lastCodePoint → next.isValidChar) :
    Proper (gapsFrom next ranges) ∧ ∀ gap ∈ gapsFrom next ranges, next ≤ gap.1 := by
  induction ranges generalizing next with
  | nil =>
      rw [gapsFrom]
      split
      · next inside =>
          have lastValid : lastCodePoint.isValidChar := by decide
          exact ⟨proper_cons.mpr ⟨⟨inside, valid inside, lastValid⟩, by simp, proper_nil⟩, by simp⟩
      · exact ⟨proper_nil, by simp⟩
  | cons interval rest ih =>
      obtain ⟨first, last⟩ := interval
      obtain ⟨isInterval, below, tailProper⟩ := proper_cons.mp proper
      have ordered : first ≤ last := isInterval.ordered
      have firstValid : first.isValidChar := isInterval.first
      have atLeast : next ≤ first := bounded _ List.mem_cons_self
      obtain ⟨gapsProper, gapsBehind⟩ := ih tailProper (tailProper.codePointAfter_le below)
        (isValidChar_codePointAfter isInterval.last)
      have gapsBeyond : ∀ gap ∈ gapsFrom (codePointAfter last) rest, last < gap.1 := by
        intro gap member
        exact Nat.lt_of_lt_of_le (lt_codePointAfter last) (gapsBehind gap member)
      have gapsBounded : ∀ gap ∈ gapsFrom (codePointAfter last) rest, next ≤ gap.1 := by
        intro gap member
        have := gapsBeyond gap member
        omega
      rw [gapsFrom]
      split
      · next apart =>
          have positive : 0 < first := Nat.zero_lt_of_lt apart
          have nextValid : next.isValidChar :=
            valid (Nat.le_trans atLeast (le_lastCodePoint firstValid))
          have gapValid := isValidChar_codePointBefore firstValid
          have gapInterval : IsInterval (next, codePointBefore first) :=
            ⟨(le_codePointBefore_iff nextValid positive).mpr apart, nextValid, gapValid⟩
          have gapStops : codePointBefore first < first :=
            (le_codePointBefore_iff gapValid positive).mp (Nat.le_refl _)
          constructor
          · refine proper_cons.mpr ⟨gapInterval, ?_, gapsProper⟩
            intro gap member
            have := gapsBeyond gap member
            simp only
            omega
          · exact List.forall_mem_cons.mpr ⟨Nat.le_refl next, gapsBounded⟩
      · exact ⟨gapsProper, gapsBounded⟩

theorem proper_complement {ranges : Ranges} (proper : Proper ranges) : Proper ranges.complement :=
  (proper_gapsFrom proper (fun _ _ => Nat.zero_le _) (fun _ => by decide)).1

theorem has_complement {ranges : Ranges} (proper : Proper ranges) (c : Char) :
    Has ranges.complement c.toNat ↔ ¬ Has ranges c.toNat := by
  have valid : c.toNat.isValidChar := c.valid
  rw [complement, has_gapsFrom proper (fun _ _ => Nat.zero_le _) valid]
  simp

/-- Whether the intervals are proper and none of them starts before a code
point. -/
def isProperFrom (next : Nat) : Ranges → Bool
  | [] => true
  | (first, last) :: rest =>
      decide (next ≤ first ∧ first ≤ last ∧ first.isValidChar ∧ last.isValidChar)
        && isProperFrom (last + 1) rest

theorem proper_of_isProperFrom {next : Nat} {ranges : Ranges}
    (checked : isProperFrom next ranges = true) :
    Proper ranges ∧ ∀ interval ∈ ranges, next ≤ interval.1 := by
  induction ranges generalizing next with
  | nil => exact ⟨proper_nil, by simp⟩
  | cons interval rest ih =>
      obtain ⟨first, last⟩ := interval
      rw [isProperFrom, Bool.and_eq_true, decide_eq_true_eq] at checked
      obtain ⟨⟨atLeast, ordered, firstValid, lastValid⟩, restChecked⟩ := checked
      obtain ⟨restProper, restBounded⟩ := ih restChecked
      constructor
      · exact proper_cons.mpr ⟨⟨ordered, firstValid, lastValid⟩, restBounded, restProper⟩
      · intro interval member
        rcases List.mem_cons.mp member with rfl | member
        · exact atLeast
        · have := restBounded interval member
          omega

end ShellGlob.Unicode.Ranges
