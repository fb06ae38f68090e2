import ShellGlob.Proofs.Regex.Lockstep
import ShellGlob.Regex.Nesting
import ShellGlob.Regex.Parser.Steps

/-!
# What all parts of an expression share

An expression is read item by item, and branches are made of items.  A property that
is handed on from parts to what is made of them (`Hereditary`) holds of all that has
been read, as long as it holds of the items that single characters are
(`Hereditary.step`).
-/

namespace ShellGlob.Regex

/-- A property of items and one of branches are handed on from parts to what is made of
them.  The assertions for the two ends of a text need not have it. -/
structure Hereditary (item branch : Regex → Prop) : Prop where
  atom (value : Atom) : item (.atom value)
  boundary (negated : Bool) : item (Operand.boundary negated).regex
  ofItems {items : List Regex} : (∀ part ∈ items, item part) → branch (ofItems items)
  group {branches : List Regex} (capturing : Bool) :
    (∀ part ∈ branches, branch part) → item (.group capturing (ofBranches branches))
  repeatItem {part : Regex} (operator : Repetition) : item part → item (repeatItem operator part)

/-- All items and all branches of the draft have their property. -/
structure Draft.Shares (item branch : Regex → Prop) (draft : Draft) : Prop where
  items : ∀ part ∈ draft.items, item part
  branches : ∀ part ∈ draft.branches, branch part

/-- All items and all branches that have been read have their property. -/
structure State.Shares (item branch : Regex → Prop) (state : State) : Prop where
  draft : state.draft.Shares item branch
  outside : ∀ group ∈ state.groups, group.outside.Shares item branch

namespace Hereditary

variable {item branch : Regex → Prop} {draft : Draft} {state next : State} {c : Char}

theorem shares_empty : ({} : Draft).Shares item branch :=
  ⟨by simp, by simp⟩

theorem push (shares : draft.Shares item branch) {part : Regex} (has : item part) :
    (draft.push part).Shares item branch :=
  ⟨List.forall_mem_cons.mpr ⟨has, shares.items⟩, shares.branches⟩

theorem split (hereditary : Hereditary item branch) (shares : draft.Shares item branch) :
    draft.split.Shares item branch := by
  have last : branch (Regex.ofItems draft.items.reverse) :=
    hereditary.ofItems fun part member => shares.items part (List.mem_reverse.mp member)
  exact ⟨by simp [Draft.split], List.forall_mem_cons.mpr ⟨last, shares.branches⟩⟩

theorem closed (hereditary : Hereditary item branch) (shares : draft.Shares item branch)
    (capturing : Bool) : item (.group capturing draft.regex) := by
  apply hereditary.group capturing
  intro part member
  exact (hereditary.split shares).branches part (List.mem_reverse.mp member)

theorem repeatLast? (hereditary : Hereditary item branch) (shares : draft.Shares item branch)
    {operator : Repetition} {after : Draft} (applied : draft.repeatLast? operator = some after) :
    after.Shares item branch := by
  obtain ⟨branches, items⟩ := draft
  cases items with
  | nil => cases operator <;> cases applied
  | cons last rest =>
      rw [Draft.repeatLast?_cons] at applied
      cases applied
      obtain ⟨lastHas, restHas⟩ := List.forall_mem_cons.mp shares.items
      exact ⟨List.forall_mem_cons.mpr ⟨hereditary.repeatItem operator lastHas, restHas⟩,
        shares.branches⟩

theorem operand (hereditary : Hereditary item branch) (value : Operand) : item value.regex := by
  cases value with
  | literal value => exact hereditary.atom _
  | shorthand value => exact hereditary.atom _
  | boundary negated => exact hereditary.boundary negated

theorem pushed (shares : state.Shares item branch) {part : Regex} (has : item part) :
    (state.push part).Shares item branch :=
  ⟨push shares.draft has, shares.outside⟩

theorem plainStep (hereditary : Hereditary item branch) (shares : state.Shares item branch)
    (atStart : c = '^' → item (.assertion .start)) (atStop : c = '$' → item (.assertion .stop))
    (plain : state.PlainStep c next) : next.Shares item branch := by
  cases plain with
  | opens => exact ⟨shares_empty, List.forall_mem_cons.mpr ⟨shares.draft, shares.outside⟩⟩
  | closes groups =>
      have around := shares.outside
      rw [groups] at around
      obtain ⟨outside, others⟩ := List.forall_mem_cons.mp around
      exact ⟨push outside (hereditary.closed shares.draft _), others⟩
  | divides => exact ⟨hereditary.split shares.draft, shares.outside⟩
  | opensClass | escapes => exact ⟨shares.draft, shares.outside⟩
  | dot | literal => exact pushed shares (hereditary.atom _)
  | start => exact pushed shares (atStart rfl)
  | stop => exact pushed shares (atStop rfl)
  | repeats operator applied => exact ⟨hereditary.repeatLast? shares.draft applied, shares.outside⟩

theorem pendingStep (hereditary : Hereditary item branch) (shares : state.Shares item branch)
    (atStart : state.Idle → c = '^' → item (.assertion .start))
    (atStop : state.Idle → c = '$' → item (.assertion .stop))
    (step : state.PendingStep c next) : next.Shares item branch := by
  cases step with
  | plain idle plain =>
      have nothing : { state with pending := .nothing }.Shares item branch :=
        ⟨shares.draft, shares.outside⟩
      exact hereditary.plainStep nothing (atStart idle) (atStop idle) plain
  | questions | escape | member => exact ⟨shares.draft, shares.outside⟩
  | uncaptures _ groups =>
      have around := shares.outside
      rw [groups] at around
      obtain ⟨outside, others⟩ := List.forall_mem_cons.mp around
      exact ⟨shares.draft, List.forall_mem_cons.mpr ⟨outside, others⟩⟩
  | escaped => exact pushed shares (hereditary.operand _)
  | closesClass => exact pushed shares (hereditary.atom _)

/-- A character keeps the properties, unless it is an assertion for an end of the text
that lacks its property. -/
theorem step (hereditary : Hereditary item branch) (shares : state.Shares item branch)
    (atStart : state.Idle → c = '^' → item (.assertion .start))
    (atStop : state.Idle → c = '$' → item (.assertion .stop))
    (taken : state.step c = .ok next) : next.Shares item branch := by
  obtain ⟨middle, step, rfl⟩ := State.exists_pendingStep_of_step taken
  obtain ⟨draft, outside⟩ := hereditary.pendingStep shares atStart atStop step
  exact ⟨draft, outside⟩

theorem run (hereditary : Hereditary item branch) (atStart : item (.assertion .start))
    (atStop : item (.assertion .stop)) {last : State} {text : Text}
    (shares : state.Shares item branch) (ran : state.run text = .ok last) :
    last.Shares item branch := by
  induction text generalizing state with
  | nil =>
      cases ran
      exact shares
  | cons c rest ih =>
      obtain ⟨middle, taken, ranRest⟩ := State.run_cons_eq_ok.mp ran
      exact ih (hereditary.step shares (fun _ _ => atStart) (fun _ _ => atStop) taken) ranRest

end Hereditary

theorem isAlternate_ofItems {items : List Regex}
    (single : ∀ item ∈ items, item.isAlternate = false) :
    (ofItems items).isAlternate = false := by
  cases items with
  | nil => rfl
  | cons item rest =>
      cases rest with
      | nil => exact single item (by simp)
      | cons => rfl

/-- Branches stand side by side in a group or in the whole, never within an item or
another branch. -/
theorem hereditary_not_alternate :
    Hereditary (fun item => item.isAlternate = false) fun branch => branch.isAlternate = false where
  atom _ := rfl
  boundary negated := by
    cases negated with
    | false | true => rfl
  ofItems single := isAlternate_ofItems single
  group _ _ := rfl
  repeatItem operator _ := by
    unfold repeatItem
    split
    · rfl
    · rfl

end ShellGlob.Regex
