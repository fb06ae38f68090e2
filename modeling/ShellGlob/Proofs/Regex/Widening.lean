import Mathlib.Data.List.Forall2
import ShellGlob.Proofs.Regex.Anchored
import ShellGlob.Proofs.Regex.ReadingAlone

/-!
# Widening a part of an expression

Where a part of an expression is replaced by another one that matches all that the first
one does, the expression matches all that it did before.  Nothing in a regular expression
counts against a match of its parts.  What is matched may depend on the text, so two
expressions are compared on a given one (`Includes`).

The text around the part is read alike in both expressions, although it may be no
expression on its own: the part may stand within groups.  So the two are compared while
they are read (`Corresponding`).  Operators may follow the part if it is a group in both
(`includes_of_parse`).  Any items may be replaced where no operator follows them
(`includes_of_parse_items`).
-/

namespace ShellGlob

namespace Regex

/-- In the text the second expression matches wherever the first one does. -/
def Includes (text : Text) (regex other : Regex) : Prop :=
  ∀ start stop, regex.Spans text start stop → other.Spans text start stop

section

variable {text : Text}

theorem Includes.refl (text : Text) (regex : Regex) : Includes text regex regex :=
  fun _ _ spans => spans

theorem Repeated.mono {once more : Nat → Nat → Prop}
    (includes : ∀ start stop, once start stop → more start stop) {start stop : Nat}
    (repeated : Repeated once start stop) : Repeated more start stop := by
  induction repeated with
  | done place => exact .done place
  | more step _ ih => exact .more (includes _ _ step) ih

theorem Includes.repetition {regex other : Regex} (includes : Includes text regex other)
    (operator : Repetition) (greedy : Bool) :
    Includes text (.repetition operator greedy regex) (.repetition operator greedy other) := by
  intro start stop spans
  cases operator with
  | optional => exact Or.imp_right (includes start stop) spans
  | star => exact Repeated.mono includes spans
  | plus =>
      obtain ⟨middle, first, later⟩ := spans
      exact ⟨middle, includes start middle first, Repeated.mono includes later⟩

theorem Includes.alternate {first firstOther rest restOther : Regex}
    (includesFirst : Includes text first firstOther) (includesRest : Includes text rest restOther) :
    Includes text (.alternate first rest) (.alternate firstOther restOther) :=
  fun start stop => Or.imp (includesFirst start stop) (includesRest start stop)

theorem Includes.ofBranches {branches others : List Regex}
    (includes : List.Forall₂ (Includes text) branches others) :
    Includes text (Regex.ofBranches branches) (Regex.ofBranches others) := by
  induction includes with
  | nil => exact .refl text _
  | cons first later ih =>
      cases later with
      | nil => exact first
      | cons _ _ => exact first.alternate ih

/-- More branches match more. -/
theorem Includes.ofBranches_of_subset {branches others : List Regex} (written : branches ≠ [])
    (subset : branches ⊆ others) :
    Includes text (Regex.ofBranches branches) (Regex.ofBranches others) := by
  intro start stop spans
  obtain ⟨branch, member, spans⟩ := (spans_ofBranches written).mp spans
  have writtenOthers : others ≠ [] := List.ne_nil_of_mem (subset member)
  exact (spans_ofBranches writtenOthers).mpr ⟨branch, subset member, spans⟩

/-- The same item, or a group whose body matches more, under the same operators. -/
inductive Widened (text : Text) : Regex → Regex → Prop where
  | same (item : Regex) : Widened text item item
  | group (capturing : Bool) {body other : Regex} :
      Includes text body other → Widened text (.group capturing body) (.group capturing other)
  | repetition (operator : Repetition) (greedy : Bool) {item other : Regex} :
      Widened text item other →
      Widened text (.repetition operator greedy item) (.repetition operator greedy other)

private theorem Widened.includes {item other : Regex} (widened : Widened text item other) :
    Includes text item other := by
  induction widened with
  | same item => exact .refl text item
  | group capturing includes => exact includes
  | repetition operator greedy _ ih => exact ih.repetition operator greedy

private theorem Widened.repeatItem {item other : Regex} (widened : Widened text item other)
    (operator : Repetition) :
    Widened text (repeatItem operator item) (repeatItem operator other) := by
  cases widened with
  | same item => exact .same _
  | group capturing includes =>
      cases operator with
      | optional | star | plus => exact .repetition _ true (.group capturing includes)
  | repetition inner greedy widened =>
      cases operator with
      | optional =>
          cases greedy with
          | true => exact .repetition inner false widened
          | false => exact .repetition .optional true (.repetition inner false widened)
      | star | plus => exact .repetition _ true (.repetition inner greedy widened)

/-- In a row the second items match more than the first ones, of both of which the latest
comes first. -/
def IncludesItems (text : Text) (items others : List Regex) : Prop :=
  ∀ start stop, SpansItems text items.reverse start stop → SpansItems text others.reverse start stop

theorem IncludesItems.append {items others later more : List Regex}
    (includes : IncludesItems text items others) (includesLater : IncludesItems text later more) :
    IncludesItems text (later ++ items) (more ++ others) := by
  intro start stop spans
  rw [List.reverse_append, spansItems_append] at spans ⊢
  obtain ⟨middle, earlier, spans⟩ := spans
  exact ⟨middle, includes start middle earlier, includesLater middle stop spans⟩

theorem IncludesItems.cons {items others : List Regex} {item same : Regex}
    (includes : IncludesItems text items others) (widened : Widened text item same) :
    IncludesItems text (item :: items) (same :: others) := by
  have last : IncludesItems text [item] [same] := by
    intro start stop spans
    rw [List.reverse_singleton, spansItems_singleton] at spans ⊢
    exact widened.includes start stop spans
  exact includes.append last

/-- The second draft matches more than the first one. -/
structure Draft.Included (text : Text) (draft other : Draft) : Prop where
  branches : List.Forall₂ (Includes text) draft.branches other.branches
  items : IncludesItems text draft.items other.items

/-- The groups capture alike, and what stands before them matches more. -/
structure OpenGroup.Included (text : Text) (group other : OpenGroup) : Prop where
  capturing : group.capturing = other.capturing
  outside : group.outside.Included text other.outside

/-- The last item of the second draft is that of the first one, or a wider one, and before
them the second draft matches more. -/
structure Draft.Widened (text : Text) (draft other : Draft) : Prop where
  included : draft.Included text other
  last : ∀ item rest, draft.items = item :: rest →
    ∃ same others, other.items = same :: others ∧ Regex.Widened text item same ∧
      IncludesItems text rest others

namespace Draft.Included

variable {draft other : Draft}

theorem refl (text : Text) (draft : Draft) : draft.Included text draft :=
  ⟨List.forall₂_same.mpr fun branch _ => .refl text branch, fun _ _ spans => spans⟩

theorem push (included : draft.Included text other) {item same : Regex}
    (widened : Regex.Widened text item same) :
    (draft.push item).Widened text (other.push same) := by
  refine ⟨⟨included.branches, included.items.cons widened⟩, ?_⟩
  intro last rest items
  cases items
  exact ⟨same, other.items, rfl, widened, included.items⟩

theorem split (included : draft.Included text other) : draft.split.Widened text other.split := by
  refine ⟨⟨.cons ?_ included.branches, fun _ _ spans => spans⟩, by simp [Draft.split]⟩
  intro start stop
  rw [spans_ofItems, spans_ofItems]
  exact included.items start stop

theorem regex (included : draft.Included text other) : Includes text draft.regex other.regex := by
  apply Includes.ofBranches
  rw [List.forall₂_reverse_iff]
  exact included.split.included.branches

end Draft.Included

/-- An operator applies to the last items alike. -/
theorem Draft.Widened.repeatLast? {draft other : Draft} (widened : draft.Widened text other)
    {operator : Repetition} {next : Draft} (applied : draft.repeatLast? operator = some next) :
    ∃ after, other.repeatLast? operator = some after ∧ next.Widened text after := by
  obtain ⟨branches, items⟩ := draft
  obtain ⟨otherBranches, otherItems⟩ := other
  obtain ⟨⟨includes, _⟩, last⟩ := widened
  cases items with
  | nil =>
      cases operator with
      | optional | star | plus => cases applied
  | cons item rest =>
      obtain ⟨same, others, rfl, widened, includesRest⟩ := last item rest rfl
      rw [Draft.repeatLast?_cons] at applied
      cases applied
      have earlier : Draft.Included text ⟨branches, rest⟩ ⟨otherBranches, others⟩ :=
        ⟨includes, includesRest⟩
      exact ⟨_, Draft.repeatLast?_cons _ _ _ _, earlier.push (widened.repeatItem operator)⟩

/-- The second run has read what matches more. -/
def Corresponding (text : Text) (draft : Draft) (groups : List OpenGroup) (other : Draft)
    (otherGroups : List OpenGroup) : Prop :=
  draft.Included text other ∧ List.Forall₂ (OpenGroup.Included text) groups otherGroups

/-- Operators apply alike as well. -/
def CorrespondingLast (text : Text) (draft : Draft) (groups : List OpenGroup) (other : Draft)
    (otherGroups : List OpenGroup) : Prop :=
  draft.Widened text other ∧ List.Forall₂ (OpenGroup.Included text) groups otherGroups

theorem Corresponding.seam (text : Text) : Seam (Corresponding text) (CorrespondingLast text) where
  push item read := ⟨read.1.push (.same item), read.2⟩
  split read := ⟨read.1.split, read.2⟩
  opens start otherStart read :=
    ⟨⟨.refl text {}, fun _ _ items => nomatch items⟩, .cons ⟨rfl, read.1⟩ read.2⟩
  closes read := by
    obtain ⟨draft, groups⟩ := read
    cases groups with
    | cons group outer =>
        refine ⟨_, _, rfl, ?_, outer⟩
        rw [group.capturing]
        exact group.outside.push (.group _ draft.regex)

theorem CorrespondingLast.corresponding {draft other : Draft} {groups otherGroups : List OpenGroup}
    (read : CorrespondingLast text draft groups other otherGroups) :
    Corresponding text draft groups other otherGroups :=
  ⟨read.1.included, read.2⟩

theorem CorrespondingLast.lockstep (text : Text) : Lockstep (CorrespondingLast text) where
  push item read := (Corresponding.seam text).push item read.corresponding
  split read := (Corresponding.seam text).split read.corresponding
  repeatLast? read applied := by
    obtain ⟨after, appliedOther, widened⟩ := read.1.repeatLast? applied
    exact ⟨after, appliedOther, widened, read.2⟩
  opens start otherStart read := (Corresponding.seam text).opens start otherStart read.corresponding
  innermost read := by
    obtain ⟨same, otherOuter, groups, closed⟩ :=
      (Corresponding.seam text).closes read.corresponding
    obtain ⟨draft, corresponding⟩ := read
    subst groups
    cases corresponding with
    | cons group outer =>
        exact ⟨same, otherOuter, rfl, ⟨draft, .cons ⟨rfl, group.outside⟩ outer⟩, closed⟩

theorem corresponding_refl (text : Text) (draft : Draft) (groups : List OpenGroup) :
    Corresponding text draft groups draft groups :=
  ⟨.refl text draft, List.forall₂_same.mpr fun group _ => ⟨rfl, .refl text group.outside⟩⟩

theorem includes_of_follows {front other rest : Text} {narrow wide : State}
    {regex otherRegex : Regex} (ran : State.run {} front = .ok narrow)
    (ranOther : State.run {} other = .ok wide)
    (follows : ∀ last, narrow.run rest = .ok last → ∃ after, wide.run rest = .ok after ∧
      Corresponding text last.draft last.groups after.draft after.groups)
    (parsed : parse (front ++ rest) = .ok regex)
    (parsedOther : parse (other ++ rest) = .ok otherRegex) : Includes text regex otherRegex := by
  obtain ⟨last, ranWhole, _, _, whole⟩ := exists_run_of_parse parsed
  obtain ⟨otherLast, ranOtherWhole, _, _, otherWhole⟩ := exists_run_of_parse parsedOther
  rw [State.run_append_of_run ran] at ranWhole
  rw [State.run_append_of_run ranOther] at ranOtherWhole
  obtain ⟨after, followed, read⟩ := follows last ranWhole
  cases ranOtherWhole.symm.trans followed
  rw [← whole, ← otherWhole]
  exact read.1.regex

/-- Where a group is replaced by one that matches more, the expression matches more. -/
theorem includes_of_parse {front small large rest : Text} {middle : State} {item other : Regex}
    {regex otherRegex : Regex} (ranFront : State.run {} front = .ok middle) (idle : middle.Idle)
    (readsSmall : ReadsAs small item) (readsLarge : ReadsAs large other)
    (widened : Widened text item other) (parsed : parse (front ++ (small ++ rest)) = .ok regex)
    (parsedOther : parse (front ++ (large ++ rest)) = .ok otherRegex) :
    Includes text regex otherRegex := by
  obtain ⟨position, ranSmall⟩ := readsSmall middle idle
  obtain ⟨otherPosition, ranLarge⟩ := readsLarge middle idle
  rw [← State.run_append_of_run ranFront] at ranSmall ranLarge
  rw [← List.append_assoc] at parsed parsedOther
  obtain ⟨draft, groups⟩ := corresponding_refl text middle.draft middle.groups
  have start : State.Alike (CorrespondingLast text)
      ⟨position, middle.draft.push item, middle.groups, .nothing⟩
      ⟨otherPosition, middle.draft.push other, middle.groups, .nothing⟩ :=
    ⟨⟨draft.push widened, groups⟩, rfl⟩
  refine includes_of_follows ranSmall ranLarge ?_ parsed parsedOther
  intro last ran
  obtain ⟨after, followed, read, _⟩ := (CorrespondingLast.lockstep text).run start ran
  exact ⟨after, followed, read.corresponding⟩

/-- Where items are replaced by ones that match more in a row, the expression matches more,
unless an operator follows them. -/
theorem includes_of_parse_items {front small large rest : Text} {middle : State}
    {items others : List Regex} {c : Char} {regex otherRegex : Regex}
    (ranFront : State.run {} front = .ok middle) (idle : middle.Idle)
    (readsSmall : Reads small items) (readsLarge : Reads large others)
    (includes : ∀ start stop, SpansItems text items start stop → SpansItems text others start stop)
    (notOperator : Repetition.ofSymbol? c = none)
    (parsed : parse (front ++ (small ++ c :: rest)) = .ok regex)
    (parsedOther : parse (front ++ (large ++ c :: rest)) = .ok otherRegex) :
    Includes text regex otherRegex := by
  obtain ⟨narrow, ranSmall, narrowIdle, narrowDraft, narrowGroups⟩ := readsSmall middle idle
  obtain ⟨wide, ranLarge, wideIdle, wideDraft, wideGroups⟩ := readsLarge middle idle
  rw [← State.run_append_of_run ranFront] at ranSmall ranLarge
  rw [← List.append_assoc] at parsed parsedOther
  obtain ⟨draft, groups⟩ := corresponding_refl text middle.draft middle.groups
  have latest : IncludesItems text items.reverse others.reverse := by
    simpa only [IncludesItems, List.reverse_reverse] using includes
  have start : Corresponding text narrow.draft narrow.groups wide.draft wide.groups := by
    rw [narrowDraft, narrowGroups, wideDraft, wideGroups]
    exact ⟨⟨draft.branches, draft.items.append latest⟩, groups⟩
  refine includes_of_follows ranSmall ranLarge ?_ parsed parsedOther
  intro last ran
  obtain ⟨after, followed, past⟩ := (Corresponding.seam text).run_cons
    (CorrespondingLast.lockstep text) notOperator narrowIdle wideIdle start ran
  refine ⟨after, followed, ?_⟩
  rcases past with ⟨read, _⟩ | ⟨⟨read, _⟩, _⟩
  · exact read.corresponding
  · exact read

end

end Regex

theorem CompiledRegex.isMatch_of_includes {compiled other : CompiledRegex} {text : Text}
    (includes : Regex.Includes text compiled.regex other.regex)
    (matched : compiled.isMatch text = true) : other.isMatch text = true := by
  rw [CompiledRegex.isMatch_iff] at matched ⊢
  obtain ⟨start, inside, stop, spans⟩ := matched
  exact ⟨start, inside, stop, includes start stop spans⟩

end ShellGlob
