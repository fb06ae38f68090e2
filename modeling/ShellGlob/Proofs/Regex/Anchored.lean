import ShellGlob.Proofs.Regex.Reading
import ShellGlob.Regex.Compile
import ShellGlob.Regex.SearchAdequacy

/-!
# Anchored expressions

An expression between the assertions for the two ends of a text matches the text
exactly if its items in a row match all of it.  So whether an anchored expression
matches is a matter of `Spans` alone, and no search is left in it
(`isMatch_of_anchored`).
-/

namespace ShellGlob.Regex

variable {text : Text} {start stop : Nat}

/-- The items match one after the other. -/
def SpansItems (text : Text) : List Regex → (start stop : Nat) → Prop
  | [], start, stop => start = stop
  | item :: rest, start, stop =>
      ∃ middle, item.Spans text start middle ∧ SpansItems text rest middle stop

theorem spansItems_singleton (item : Regex) :
    SpansItems text [item] start stop ↔ item.Spans text start stop := by
  simp [SpansItems]

theorem spansItems_append (front rest : List Regex) :
    SpansItems text (front ++ rest) start stop ↔
      ∃ middle, SpansItems text front start middle ∧ SpansItems text rest middle stop := by
  induction front generalizing start with
  | nil => simp [SpansItems]
  | cons item front ih =>
      constructor
      · intro spans
        obtain ⟨middle, itemSpans, later⟩ := spans
        obtain ⟨last, frontSpans, restSpans⟩ := ih.mp later
        exact ⟨last, ⟨middle, itemSpans, frontSpans⟩, restSpans⟩
      · intro spans
        obtain ⟨last, ⟨middle, itemSpans, frontSpans⟩, restSpans⟩ := spans
        exact ⟨middle, itemSpans, ih.mpr ⟨last, frontSpans, restSpans⟩⟩

theorem spans_ofItems (items : List Regex) :
    (ofItems items).Spans text start stop ↔ SpansItems text items start stop := by
  induction items generalizing start with
  | nil => exact Iff.rfl
  | cons item rest ih =>
      cases rest with
      | nil => exact (spansItems_singleton item).symm
      | cons next rest =>
          apply exists_congr
          intro middle
          exact and_congr_right fun _ => ih

theorem spans_ofBranches {branches : List Regex} (written : branches ≠ []) :
    (ofBranches branches).Spans text start stop ↔
      ∃ branch ∈ branches, branch.Spans text start stop := by
  induction branches with
  | nil => exact absurd rfl written
  | cons branch rest ih =>
      cases rest with
      | nil => simp [ofBranches]
      | cons next rest =>
          have later := ih (by simp)
          simp only [ofBranches, Spans, later, List.mem_cons, exists_eq_or_imp]

theorem Repeated.stop_le {once : Nat → Nat → Prop} {bound : Nat}
    (within : ∀ start stop, start ≤ bound → once start stop → stop ≤ bound)
    (repeated : Repeated once start stop) (inside : start ≤ bound) : stop ≤ bound := by
  induction repeated with
  | done => exact inside
  | more step _ ih => exact ih (within _ _ inside step)

theorem stop_le_of_spans {regex : Regex} (spans : regex.Spans text start stop)
    (inside : start ≤ text.length) : stop ≤ text.length := by
  induction regex generalizing start stop with
  | empty => exact spans ▸ inside
  | atom value =>
      obtain ⟨rfl, accepted⟩ := spans
      cases found : text[start]? with
      | none => simp [found] at accepted
      | some c => exact (List.getElem?_eq_some_iff.mp found).1
  | assertion value => exact spans.1 ▸ inside
  | group capturing body ih => exact ih spans inside
  | repetition operator greedy body ih =>
      have within : ∀ start stop, start ≤ text.length →
          body.Spans text start stop → stop ≤ text.length :=
        fun _ _ inside spans => ih spans inside
      cases operator with
      | optional =>
          rcases spans with same | spans
          · exact same ▸ inside
          · exact within start stop inside spans
      | star => exact Repeated.stop_le within spans inside
      | plus =>
          obtain ⟨middle, first, rest⟩ := spans
          exact Repeated.stop_le within rest (within start middle inside first)
  | concat first rest ihFirst ihRest =>
      obtain ⟨middle, firstSpans, restSpans⟩ := spans
      exact ihRest restSpans (ihFirst firstSpans inside)
  | alternate first rest ihFirst ihRest =>
      rcases spans with firstSpans | restSpans
      · exact ihFirst firstSpans inside
      · exact ihRest restSpans inside

theorem stop_le_of_spansItems {items : List Regex}
    (spans : SpansItems text items start stop) (inside : start ≤ text.length) :
    stop ≤ text.length := by
  rw [← spans_ofItems] at spans
  exact stop_le_of_spans spans inside

theorem holds_start_iff (inside : start ≤ text.length) :
    Assertion.start.holds (.ofPosition text start) = true ↔ start = 0 := by
  cases start with
  | zero => simp [Assertion.holds, Place.ofPosition]
  | succ start =>
      have found : start < text.length := inside
      simp [Assertion.holds, Place.ofPosition, found]

theorem holds_stop_iff (inside : stop ≤ text.length) :
    Assertion.stop.holds (.ofPosition text stop) = true ↔ stop = text.length := by
  simp only [Assertion.holds, Place.ofPosition, Option.isNone_iff_eq_none,
    List.getElem?_eq_none_iff]
  omega

theorem spans_anchored {items : List Regex} (inside : start ≤ text.length) :
    (anchored items).Spans text start stop ↔
      start = 0 ∧ stop = text.length ∧ SpansItems text items 0 text.length := by
  rw [anchored, spans_ofItems]
  constructor
  · intro spans
    obtain ⟨first, ⟨rfl, atStart⟩, later⟩ := spans
    obtain ⟨last, itemsSpan, atStop⟩ := (spansItems_append _ _).mp later
    rw [spansItems_singleton] at atStop
    obtain ⟨rfl, atStop⟩ := atStop
    have stopInside := stop_le_of_spansItems itemsSpan inside
    rw [holds_start_iff inside] at atStart
    rw [holds_stop_iff stopInside] at atStop
    rw [atStart, atStop] at itemsSpan
    exact ⟨atStart, atStop, itemsSpan⟩
  · rintro ⟨rfl, rfl, itemsSpan⟩
    refine ⟨0, ⟨rfl, (holds_start_iff inside).mpr rfl⟩, ?_⟩
    rw [spansItems_append]
    refine ⟨text.length, itemsSpan, ?_⟩
    rw [spansItems_singleton]
    exact ⟨rfl, (holds_stop_iff (Nat.le_refl _)).mpr rfl⟩

theorem isMatch_of_anchored {compiled : CompiledRegex} {items : List Regex}
    (same : compiled.regex = anchored items) :
    compiled.isMatch text = true ↔ SpansItems text items 0 text.length := by
  rw [CompiledRegex.isMatch_iff, same]
  constructor
  · intro matched
    obtain ⟨start, inside, stop, spans⟩ := matched
    exact ((spans_anchored inside).mp spans).2.2
  · intro itemsSpan
    exact ⟨0, Nat.zero_le _, text.length,
      (spans_anchored (Nat.zero_le _)).mpr ⟨rfl, rfl, itemsSpan⟩⟩

/-- The expression is nested no deeper and no larger than is accepted. -/
def Accepted (regex : Regex) : Prop :=
  regex.overNested? = none ∧ regex.normal.size ≤ sizeLimit

theorem mapError_eq_ok_iff {α β γ : Type} {result : Except α γ} {wrap : α → β} {value : γ} :
    result.mapError wrap = .ok value ↔ result = .ok value := by
  cases result with
  | error error =>
      constructor
      · intro same
        cases same
      · intro same
        cases same
  | ok other =>
      constructor
      · intro same
        cases same
        rfl
      · intro same
        cases same
        rfl

theorem mapError_eq_error_iff {α β γ : Type} {result : Except α γ} {wrap : α → β} {cause : β} :
    result.mapError wrap = .error cause ↔ ∃ error, result = .error error ∧ cause = wrap error := by
  cases result with
  | error error =>
      constructor
      · intro same
        cases same
        exact ⟨error, rfl, rfl⟩
      · rintro ⟨_, same, rfl⟩
        cases same
        rfl
  | ok value =>
      constructor
      · intro same
        cases same
      · rintro ⟨_, same, _⟩
        cases same

/-- A text compiles if it reads as an expression that is accepted. -/
theorem compile_eq_ok_iff {pattern : Text} {compiled : CompiledRegex} :
    Regex.compile pattern = .ok compiled ↔
      ∃ regex, parse pattern = .ok regex ∧ regex.Accepted ∧
        compiled = CompiledRegex.ofRegex regex := by
  unfold Regex.compile
  cases read : parse pattern with
  | error error =>
      constructor
      · intro compiles
        cases compiles
      · rintro ⟨_, same, _⟩
        cases same
  | ok regex =>
      have parsed : (Except.ok regex : Except ParseError Regex).mapError CompileError.invalid =
          .ok regex := mapError_eq_ok_iff.mpr rfl
      simp only [parsed, bind, Except.bind, pure, Except.pure, Except.ok.injEq,
        exists_eq_left', Accepted]
      cases nested : regex.overNested? with
      | some span => simp [throw, throwThe, MonadExceptOf.throw]
      | none =>
          have size : (CompiledRegex.ofRegex regex).form.size = regex.normal.size := rfl
          rw [size]
          by_cases large : sizeLimit < regex.normal.size
          · simp [large, Nat.not_le_of_lt large, throw, throwThe, MonadExceptOf.throw]
          · simp [large, Nat.le_of_not_lt large, eq_comm]

end ShellGlob.Regex
