import ShellGlob.Proofs.Regex.Anchored

/-!
# Expressions that are refused

A text is refused as a regular expression if it cannot be read, if its tree has more
levels than are accepted, or else for its size (`compile_eq_error_iff`).  Whether it
is nested too deep is a matter of its depth alone, wherever the part is that the
error points at (`overNested?_eq_none_iff`).
-/

namespace ShellGlob.Regex

/-- The rest of a row of parts is on the level of the row if it goes on with it. -/
theorem depths_le_iff (goesOn : Bool) (first rest levels : Nat) :
    (first ≤ levels ∧ rest ≤ if goesOn = true then levels + 1 else levels) ↔
      max (first + 1) (if goesOn = true then rest else rest + 1) ≤ levels + 1 := by
  cases goesOn with
  | true =>
      simp only [if_pos]
      omega
  | false =>
      simp only [Bool.false_eq_true, if_false]
      omega

theorem ClassSet.exceeding_eq_none_iff (set : ClassSet) (levels start : Nat) :
    set.exceeding levels start = none ↔ set.depth ≤ levels := by
  induction set generalizing levels start with
  | empty | literal | range | shorthand | named => simp [exceeding, depth]
  | bracket negated members ih =>
      cases levels with
      | zero => simp [exceeding, depth]
      | succ levels => simp [exceeding, depth, ih]
  | union first rest ihFirst ihRest =>
      cases levels with
      | zero => simp [exceeding, depth]
      | succ levels =>
          simp only [exceeding, depth, Option.or_eq_none_iff, ihFirst, ihRest]
          exact depths_le_iff rest.isUnion first.depth rest.depth levels
  | combine operator left right ihLeft ihRight =>
      cases levels with
      | zero => simp [exceeding, depth]
      | succ levels =>
          simp only [exceeding, depth, Option.or_eq_none_iff, ihLeft, ihRight]
          omega

private theorem Atom.exceeding_eq_none_iff (value : Atom) (levels start : Nat) :
    value.exceeding levels start = none ↔ value.depth ≤ levels := by
  cases value with
  | literal | dot | shorthand => simp [exceeding, depth]
  | bracket negated members => exact ClassSet.exceeding_eq_none_iff _ levels start

theorem exceeding_eq_none_iff (regex : Regex) (levels start : Nat) :
    regex.exceeding levels start = none ↔ regex.depth ≤ levels := by
  induction regex generalizing levels start with
  | empty | assertion => simp [exceeding, depth]
  | atom value => exact value.exceeding_eq_none_iff levels start
  | group capturing body ih | repetition operator greedy body ih =>
      cases levels with
      | zero => simp [exceeding, depth]
      | succ levels => simp [exceeding, depth, ih]
  | concat first rest ihFirst ihRest =>
      cases levels with
      | zero => simp [exceeding, depth]
      | succ levels =>
          simp only [exceeding, depth, Option.or_eq_none_iff, ihFirst, ihRest]
          exact depths_le_iff rest.isConcat first.depth rest.depth levels
  | alternate first rest ihFirst ihRest =>
      cases levels with
      | zero => simp [exceeding, depth]
      | succ levels =>
          simp only [exceeding, depth, Option.or_eq_none_iff, ihFirst, ihRest]
          exact depths_le_iff rest.isAlternate first.depth rest.depth levels

theorem overNested?_eq_none_iff (regex : Regex) :
    regex.overNested? = none ↔ regex.depth ≤ nestingLimit :=
  regex.exceeding_eq_none_iff nestingLimit 0

theorem exists_overNested?_iff (regex : Regex) :
    (∃ span, regex.overNested? = some span) ↔ nestingLimit < regex.depth := by
  rw [← Option.ne_none_iff_exists', Ne, overNested?_eq_none_iff, Nat.not_le]

/-- The size is looked at last. -/
theorem compile_eq_error_iff {pattern : Text} {error : CompileError} :
    Regex.compile pattern = .error error ↔
      (∃ cause, parse pattern = .error cause ∧ error = .invalid cause) ∨
      ∃ regex, parse pattern = .ok regex ∧
        ((∃ span, regex.overNested? = some span ∧ error = .invalid ⟨.nestingTooDeep, span⟩) ∨
          (regex.overNested? = none ∧ sizeLimit < regex.normal.size ∧ error = .tooLarge)) := by
  unfold Regex.compile
  cases read : parse pattern with
  | error cause =>
      have unread : (Except.error cause : Except ParseError Regex).mapError CompileError.invalid =
          .error (.invalid cause) := mapError_eq_error_iff.mpr ⟨cause, rfl, rfl⟩
      simp [unread, bind, Except.bind, eq_comm]
  | ok regex =>
      have parsed : (Except.ok regex : Except ParseError Regex).mapError CompileError.invalid =
          .ok regex := mapError_eq_ok_iff.mpr rfl
      have size : (CompiledRegex.ofRegex regex).form.size = regex.normal.size := rfl
      simp only [parsed, bind, Except.bind, size]
      cases nested : regex.overNested? with
      | some span => simp [nested, throw, throwThe, MonadExceptOf.throw, eq_comm (a := error)]
      | none =>
          by_cases large : sizeLimit < regex.normal.size
          · simp [nested, large, throw, throwThe, MonadExceptOf.throw, eq_comm (a := error)]
          · simp [nested, large, pure, Except.pure]

/-- Whatever is not refused for its size cannot be read or is nested too deep. -/
theorem compile_eq_invalid_iff {pattern : Text} {cause : ParseError} :
    Regex.compile pattern = .error (.invalid cause) ↔
      parse pattern = .error cause ∨
      ∃ regex span, parse pattern = .ok regex ∧ regex.overNested? = some span ∧
        cause = ⟨.nestingTooDeep, span⟩ := by
  simp only [compile_eq_error_iff, CompileError.invalid.injEq, reduceCtorEq, and_false, or_false]
  apply or_congr
  · simp
  · apply exists_congr
    intro regex
    simp

end ShellGlob.Regex
