import Mathlib
import ShellGlob.Proofs.Glob.Enclosed
import ShellGlob.Proofs.Glob.Translation
import ShellGlob.Proofs.Matcher

/-!
# What negations mean

An expression has negations between sequences.  Each of its variants is the text of
a syntax tree, in which a star stands for a negation, or a group of its
alternatives (`Expression.reading`).

If all variants compile, the anchored matcher of the expression matches what the
tree with stars only does, and no tree in which one negation is expanded
(`Expression.isMatch_ofGlob_iff`).  For this the negations have to be kept apart
from each other and from stars.
-/

namespace ShellGlob.Glob

def Sequence.append : Sequence → Sequence → Sequence
  | .empty, rest => rest
  | .cons first middle, rest => .cons first (middle.append rest)

def Sequence.EndsInStar : Sequence → Prop
  | .empty => False
  | .cons .star .empty => True
  | .cons _ rest => rest.EndsInStar

theorem Sequence.text_append (front rest : Sequence) :
    (front.append rest).text = front.text ++ rest.text := by
  cases front with
  | empty => rw [Sequence.append, Sequence.text, List.nil_append]
  | cons first middle =>
      rw [Sequence.append, Sequence.text, Sequence.text, text_append middle rest,
        List.append_assoc]

theorem Sequence.endsInStar_of_rest {first : Part} {rest : Sequence}
    (ends : rest.EndsInStar) : (Sequence.cons first rest).EndsInStar := by
  cases rest with
  | empty => exact ends.elim
  | cons next rest =>
      cases first with
      | _ => exact ends

/-- Sequences are written one after the other if nothing is read across the
seam. -/
theorem Sequence.written_append {context : Context} {front rest : Sequence}
    (frontWritten : front.Written context) (restWritten : rest.Written context)
    (apart : front.EndsInStar → rest.text.head? ≠ some '*')
    (notSlash : rest.text.head? ≠ some '/') : (front.append rest).Written context := by
  cases front with
  | empty => exact restWritten
  | cons first middle =>
      rw [Sequence.Written] at frontWritten
      obtain ⟨firstWritten, meets, middleWritten⟩ := frontWritten
      rw [Sequence.append, Sequence.Written, text_append]
      refine ⟨firstWritten, ?_, ?_⟩
      · cases middle with
        | empty =>
            rw [Sequence.text, List.nil_append]
            cases first with
            | star => exact apart trivial
            | tree slash =>
                cases slash with
                | false => exact notSlash
                | true => trivial
            | _ => trivial
        | cons next middle =>
            rw [Sequence.Written] at middleWritten
            obtain ⟨c, behind, text, -⟩ := Part.exists_text_eq_cons middleWritten.1
            rw [Sequence.text, text] at meets ⊢
            cases first with
            | star => exact meets
            | tree slash =>
                cases slash with
                | false => exact meets
                | true => trivial
            | _ => trivial
      · apply written_append middleWritten restWritten _ notSlash
        intro ends
        exact apart (endsInStar_of_rest ends)

/-- A glob with negations between sequences. -/
inductive Expression where
  | plain (last : Sequence)
  | negated (before : Sequence) (alternatives : Choice) (behind : Expression)

namespace Expression

def text : Expression → Text
  | .plain last => last.text
  | .negated before alternatives behind =>
      before.text ++ '!' :: '(' :: (alternatives.text '|' ++ ')' :: behind.text)

def count : Expression → Nat
  | .plain _ => 0
  | .negated _ _ behind => behind.count + 1

/-- What stands for a negation in a variant. -/
def standIn (expanded : Bool) (alternatives : Choice) : Part :=
  if expanded then .group .exactlyOne alternatives else .star

/-- The tree of a variant, whose first negation has the given number. -/
def readingFrom (expansion : Option Nat) : (index : Nat) → Expression → Sequence
  | _, .plain last => last
  | index, .negated before alternatives behind =>
      before.append (.cons (standIn (expansion = some index) alternatives)
        (behind.readingFrom expansion (index + 1)))

/-- The expression with each negation read as a star, or, if it is the one to be
expanded, as a group of its alternatives. -/
def reading (expression : Expression) (expansion : Option Nat) : Sequence :=
  expression.readingFrom expansion 0

/-- The expression may follow a negation: it does not start with a star, nor with
another negation. -/
def StandsBehind : Expression → Prop
  | .plain last => last.text.head? ≠ some '*'
  | .negated before _ _ => before.text.head? ≠ some '*' ∧ before.text ≠ []

/-- Each sequence and each alternative is written by its text, parentheses belong to
groups, and no star stands next to a negation. -/
def Written : Expression → Prop
  | .plain last => last.Written {} ∧ Enclosed last.text
  | .negated before alternatives behind =>
      (before.Written {} ∧ Enclosed before.text ∧ ¬ before.EndsInStar) ∧
        (alternatives.Written { groups := [.exactlyOne] } ∧
          Enclosed (alternatives.text '|')) ∧
        behind.StandsBehind ∧ behind.Written

theorem text_standIn (expanded : Bool) (alternatives : Choice) :
    (standIn expanded alternatives).text = replacement expanded (alternatives.text '|') := by
  cases expanded with
  | false => rw [standIn, if_neg (by decide), Part.text]; rfl
  | true => rw [standIn, if_pos rfl, Part.text]; rfl

theorem resolveFrom_pieces {expression : Expression} (written : expression.Written)
    (expansion : Option Nat) (index : Nat) :
    resolveFrom expansion index (pieces expression.text) =
      (expression.readingFrom expansion index).text := by
  induction expression generalizing index with
  | plain last =>
      have notParen : ([] : Text).head? ≠ some '(' := by simp
      have whole := resolveFrom_enclosed written.2 notParen expansion index
      rw [List.append_nil, pieces_nil] at whole
      rw [text, whole]
      exact List.append_nil _
  | negated before alternatives behind ih =>
      obtain ⟨⟨-, enclosed, -⟩, ⟨-, inner⟩, -, behindWritten⟩ := written
      rw [text, resolveFrom_enclosed enclosed (by simp), pieces_negation inner, resolveFrom,
        ih behindWritten, readingFrom, Sequence.text_append, Sequence.text, text_standIn]

theorem variant_text {expression : Expression} (written : expression.Written)
    (expansion : Option Nat) :
    variant expression.text expansion = (expression.reading expansion).text :=
  resolveFrom_pieces written expansion 0

theorem length_negations_text {expression : Expression} (written : expression.Written) :
    (negations expression.text).length = expression.count := by
  induction expression with
  | plain last =>
      have notParen : ([] : Text).head? ≠ some '(' := by simp
      have whole := length_negations_enclosed written.2 notParen
      rw [List.append_nil] at whole
      rw [text, whole, negations, pieces_nil]
      rfl
  | negated before alternatives behind ih =>
      obtain ⟨⟨-, enclosed, -⟩, ⟨-, inner⟩, -, behindWritten⟩ := written
      rw [text, length_negations_enclosed enclosed (by simp), length_negations_negation inner,
        ih behindWritten, count]

theorem head?_text_readingFrom {expression : Expression} (stands : expression.StandsBehind)
    (expansion : Option Nat) (index : Nat) :
    (expression.readingFrom expansion index).text.head? ≠ some '*' := by
  cases expression with
  | plain last => exact stands
  | negated before alternatives behind =>
      obtain ⟨notStar, nonempty⟩ := stands
      obtain ⟨c, more, text⟩ := List.exists_cons_of_ne_nil nonempty
      rw [readingFrom, Sequence.text_append, text]
      rw [text] at notStar
      simpa using notStar

theorem written_readingFrom {expression : Expression} (written : expression.Written)
    (expansion : Option Nat) (index : Nat) :
    (expression.readingFrom expansion index).Written {} := by
  induction expression generalizing index with
  | plain last => exact written.1
  | negated before alternatives behind ih =>
      obtain ⟨⟨beforeWritten, -, notStar⟩, ⟨inner, -⟩, stands, behindWritten⟩ := written
      have standInWritten :
          (standIn (expansion = some index) alternatives).Written {} := by
        unfold standIn
        split
        · rw [Part.Written]
          exact inner
        · rw [Part.Written]
          trivial
      have meets : (standIn (expansion = some index) alternatives).Meets
          (behind.readingFrom expansion (index + 1)).text := by
        unfold standIn
        split
        · trivial
        · exact head?_text_readingFrom stands expansion (index + 1)
      have notSlash : ((Sequence.cons (standIn (expansion = some index) alternatives)
          (behind.readingFrom expansion (index + 1))).text).head? ≠ some '/' := by
        rw [Sequence.text, text_standIn, replacement]
        split
        · simp
        · simp
      rw [readingFrom]
      apply Sequence.written_append beforeWritten _ (fun ends => absurd ends notStar) notSlash
      rw [Sequence.Written]
      exact ⟨standInWritten, meets, ih behindWritten (index + 1)⟩

/-- If all variants of an expression compile, its anchored matcher matches a
candidate exactly if the tree with a star for each negation does, and none of the
trees in which one of them is a group of its alternatives. -/
theorem isMatch_ofGlob_iff (expression : Expression) (written : expression.Written)
    (positiveCompiles : ∃ compiled, compile (positive expression.text) true = .ok compiled)
    (exclusionsCompile : ∀ index < expression.count,
      ∃ compiled, compile (exclusion expression.text index) true = .ok compiled) :
    ∃ matcher, Matcher.ofGlob expression.text true = .ok matcher ∧
      ∀ candidate, matcher.isMatch candidate = true ↔
        (expression.reading none).Matches candidate ∧
          ∀ index < expression.count,
            ¬ (expression.reading (some index)).Matches candidate := by
  have variantMatches : ∀ {expansion compiled},
      compile (variant expression.text expansion) true = .ok compiled →
      ∀ candidate, compiled.isMatch candidate = true ↔
        (expression.reading expansion).Matches candidate := by
    intro expansion compiled built
    rw [variant_text written] at built
    exact Sequence.isMatch_of_compile (written_readingFrom written expansion 0) built
  obtain ⟨compiled, built⟩ := positiveCompiles
  obtain ⟨matcher, made, same⟩ := Matcher.exists_ofGlob built
  refine ⟨matcher, made, ?_⟩
  intro candidate
  rw [Matcher.isMatch_of_ofGlob made, same, variantMatches built]
  apply and_congr_right
  intro _
  constructor
  · intro unmatched index inside matched
    obtain ⟨excluding, excludingBuilt⟩ := exclusionsCompile index inside
    have member : excluding ∈ exclusions expression.text := by
      rw [mem_exclusions_iff, length_negations_text written]
      exact ⟨index, inside, excludingBuilt⟩
    rw [← variantMatches excludingBuilt, unmatched excluding member] at matched
    cases matched
  · intro unmatched excluding member
    rw [mem_exclusions_iff, length_negations_text written] at member
    obtain ⟨index, inside, excludingBuilt⟩ := member
    have notMatched := unmatched index inside
    rw [← variantMatches excludingBuilt] at notMatched
    simpa using notMatched

theorem isMatch_ofGlob_iff_twoNegations :
    let expression : Expression :=
      .negated (.cons (.single (.literal 'a')) .empty)
        (.more (.cons (.single (.escape 'd')) .empty)
          (.last (.cons (.group .oneOrMore
            (.last (.cons (.single (.literal 'b')) .empty))) .empty)))
        (.negated (.cons (.single (.literal '.')) .empty)
          (.last (.cons (.single (.literal 'c')) .empty)) (.plain .empty))
    expression.text = "a!(\\d|+(b)).!(c)".toList ∧
      ∃ matcher, Matcher.ofGlob expression.text true = .ok matcher ∧
        ∀ candidate, matcher.isMatch candidate = true ↔
          (expression.reading none).Matches candidate ∧
            ∀ index < expression.count,
              ¬ (expression.reading (some index)).Matches candidate := by
  intro expression
  have written : expression.Written := by
    have enclosed : Enclosed ['\\', 'd', '|', '+', '(', 'b', ')'] :=
      .escape 'd' (.plain (by decide) (.group .oneOrMore (.plain (by decide) .nil) .nil))
    have single : ∀ c, c ∉ ['\\', '(', ')'] → Enclosed [c] :=
      fun c ordinary => .plain ordinary .nil
    simp only [expression, Expression.Written, Expression.StandsBehind, Sequence.Written,
      Choice.Written, Part.Written, Sequence.text, Choice.text, Part.text, Sequence.EndsInStar]
    refine ⟨⟨?_, single 'a' (by decide), id⟩, ⟨?_, enclosed⟩, ?_, ⟨?_, single '.' (by decide), id⟩,
      ⟨?_, single 'c' (by decide)⟩, ?_, trivial, .nil⟩
    all_goals simp [Single.Written, Part.Meets, Single.text]
  have compiles : ∀ expansion ∈ [none, some 0, some 1], ∃ compiled,
      compile (variant expression.text expansion) true = .ok compiled := by
    have checked : ([none, some 0, some 1].all fun expansion =>
        (compile (variant expression.text expansion) true).isOk) = true := by cbv
    exact fun expansion member => exists_of_isOk (List.all_eq_true.mp checked expansion member)
  refine ⟨by decide +kernel, ?_⟩
  apply isMatch_ofGlob_iff expression written (compiles none (by decide))
  intro index inside
  have either : index = 0 ∨ index = 1 := by
    have two : expression.count = 2 := rfl
    omega
  rcases either with rfl | rfl
  · exact compiles (some 0) (by decide)
  · exact compiles (some 1) (by decide)

end Expression

end ShellGlob.Glob
