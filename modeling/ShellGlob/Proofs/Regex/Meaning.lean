import ShellGlob.Proofs.Regex.Anchored
import ShellGlob.Proofs.Regex.ReadingAlone

/-!
# What the text of an expression means

`Means` says of a text which parts of a candidate it matches wherever it stands in
a regular expression, and `MeansAny` says the same of branches in a group.  Both
leave open which tree the text is read as.  The meaning of a text is put together
from those of its parts.
-/

namespace ShellGlob.Regex

/-- Which parts of a text are matched, by the places where they start and stop. -/
abbrev Extent := (text : Text) → (start stop : Nat) → Prop

/-- The text is read as items in a row, which match this extent. -/
def Means (pattern : Text) (extent : Extent) : Prop :=
  ∃ items, Reads pattern items ∧
    ∀ text start stop, SpansItems text items start stop ↔ extent text start stop

/-- The text is read as branches, one of which matches if the extent says so. -/
def MeansAny (pattern : Text) (extent : Extent) : Prop :=
  ∃ branches, branches ≠ [] ∧ ReadsBranches pattern branches ∧
    ∀ text start stop,
      (∃ branch ∈ branches, branch.Spans text start stop) ↔ extent text start stop

variable {front rest pattern : Text} {extent restExtent : Extent}

theorem Means.nil : Means [] (fun _ start stop => start = stop) :=
  ⟨[], Reads.nil, fun _ _ _ => Iff.rfl⟩

theorem Means.append (first : Means front extent) (second : Means rest restExtent) :
    Means (front ++ rest) (fun text start stop =>
      ∃ middle, extent text start middle ∧ restExtent text middle stop) := by
  obtain ⟨frontItems, readsFront, frontSpans⟩ := first
  obtain ⟨restItems, readsRest, restSpans⟩ := second
  refine ⟨frontItems ++ restItems, readsFront.append readsRest, ?_⟩
  intro text start stop
  rw [spansItems_append]
  simp only [frontSpans, restSpans]

theorem Reads.means {item : Regex} (reads : Reads pattern [item]) :
    Means pattern (fun text => item.Spans text) :=
  ⟨[item], reads, fun _ _ _ => spansItems_singleton item⟩

theorem Means.congr (means : Means pattern extent)
    (same : ∀ text start stop, extent text start stop ↔ restExtent text start stop) :
    Means pattern restExtent := by
  obtain ⟨items, reads, spans⟩ := means
  exact ⟨items, reads, fun text start stop => (spans _ _ _).trans (same _ _ _)⟩

theorem Means.meansAny (means : Means pattern extent) : MeansAny pattern extent := by
  obtain ⟨items, reads, spans⟩ := means
  refine ⟨[ofItems items], by simp, reads.readsBranches, ?_⟩
  intro text start stop
  rw [← spans, ← spans_ofItems]
  simp

theorem MeansAny.congr (means : MeansAny pattern extent)
    (same : ∀ text start stop, extent text start stop ↔ restExtent text start stop) :
    MeansAny pattern restExtent := by
  obtain ⟨branches, written, reads, spans⟩ := means
  exact ⟨branches, written, reads,
    fun text start stop => (spans _ _ _).trans (same _ _ _)⟩

theorem MeansAny.or (first : MeansAny front extent) (second : MeansAny rest restExtent) :
    MeansAny (front ++ '|' :: rest) (fun text start stop =>
      extent text start stop ∨ restExtent text start stop) := by
  obtain ⟨frontBranches, written, readsFront, frontSpans⟩ := first
  obtain ⟨restBranches, _, readsRest, restSpans⟩ := second
  refine ⟨frontBranches ++ restBranches, by simp [written],
    readsFront.append readsRest, ?_⟩
  intro text start stop
  simp only [List.mem_append, or_and_right, exists_or, frontSpans, restSpans]

theorem MeansAny.capture (means : MeansAny pattern extent) :
    Means ('(' :: (pattern ++ [')'])) extent := by
  obtain ⟨branches, written, reads, spans⟩ := means
  apply reads.capture.reads.means.congr
  intro text start stop
  exact (spans_ofBranches written).trans (spans text start stop)

theorem MeansAny.group (means : MeansAny pattern extent) :
    Means ('(' :: '?' :: ':' :: (pattern ++ [')'])) extent := by
  obtain ⟨branches, written, reads, spans⟩ := means
  apply reads.group.reads.means.congr
  intro text start stop
  exact (spans_ofBranches written).trans (spans text start stop)

theorem MeansAny.repeated (means : MeansAny pattern extent) (operator : Repetition) :
    Means ('(' :: '?' :: ':' :: (pattern ++ [')', operator.symbol]))
      (fun text start stop => operator.Spans (extent text) start stop) := by
  obtain ⟨branches, written, reads, spans⟩ := means
  have once : ∀ text start stop,
      (Regex.group false (ofBranches branches)).Spans text start stop ↔
        extent text start stop := by
    intro text start stop
    exact (spans_ofBranches written).trans (spans text start stop)
  have readsAs := reads.group.repeated (by simp) operator
  have whole : '(' :: '?' :: ':' :: (pattern ++ [')', operator.symbol]) =
      '(' :: '?' :: ':' :: (pattern ++ [')']) ++ [operator.symbol] := by
    simp
  rw [whole]
  apply readsAs.reads.means.congr
  intro text start stop
  exact operator.spans_congr (once text) start stop

/-- What the text means, if it is read as items. -/
def extentOf (pattern : Text) : Extent := fun text start stop =>
  ∃ items, Reads pattern items ∧ SpansItems text items start stop

theorem Reads.unique {items others : List Regex} (reads : Reads pattern items)
    (readsOther : Reads pattern others) : items = others := by
  obtain ⟨next, ran, _, draft, _⟩ := reads {} (Or.inl rfl)
  obtain ⟨other, ranOther, _, otherDraft, _⟩ := readsOther {} (Or.inl rfl)
  cases ran.symm.trans ranOther
  have same := congrArg Draft.items (draft.symm.trans otherDraft)
  simpa [Draft.extend] using same

theorem Reads.means_extentOf {items : List Regex} (reads : Reads pattern items) :
    Means pattern (extentOf pattern) := by
  refine ⟨items, reads, fun text start stop => ?_⟩
  constructor
  · intro spans
    exact ⟨items, reads, spans⟩
  · rintro ⟨others, readsOthers, spans⟩
    exact reads.unique readsOthers ▸ spans

/-- Texts with a meaning are branches when bars stand between them. -/
theorem meansAny_intercalate {patterns : List Text} (written : patterns ≠ [])
    (means : ∀ pattern ∈ patterns, Means pattern (extentOf pattern)) :
    MeansAny (['|'].intercalate patterns) (fun text start stop =>
      ∃ pattern ∈ patterns, extentOf pattern text start stop) := by
  induction patterns with
  | nil => exact absurd rfl written
  | cons pattern patterns ih =>
      rw [List.forall_mem_cons] at means
      by_cases more : patterns = []
      · subst more
        rw [List.intercalate_singleton]
        exact means.1.meansAny.congr (by simp)
      · rw [List.intercalate_cons_of_ne_nil more, List.append_assoc]
        exact (means.1.meansAny.or (ih more means.2)).congr (by simp)

/-- An anchored text reads as an expression, and if that compiles, it matches a
text exactly if it means all of it. -/
theorem Means.isMatch_anchored (means : Means pattern extent) :
    ∃ regex, parse ('^' :: (pattern ++ ['$'])) = .ok regex ∧
      ∀ text, (CompiledRegex.ofRegex regex).isMatch text = true ↔
        extent text 0 text.length := by
  obtain ⟨items, reads, spans⟩ := means
  refine ⟨anchored items, parse_anchored reads, ?_⟩
  intro text
  have same : (CompiledRegex.ofRegex (anchored items)).regex = anchored items := rfl
  rw [isMatch_of_anchored same, spans]

end ShellGlob.Regex
