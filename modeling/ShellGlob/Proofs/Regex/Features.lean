import ShellGlob.Proofs.Regex.Parts

/-!
# The features of a pattern

The syntax of globs stands for a small part of what regular expressions can say
(`Regex.isDocumented`): literals and the usual escapes, the two characters that are
repeated as `*` and `**`, flat classes, and groups with at most one greedy operator.
Branches occur in groups only, and neither the assertions for the ends of a text nor lazy
operators occur at all.

The groups of an expression are listed with whether they capture, in the order in which
they open (`Regex.groups`).
-/

namespace ShellGlob.Regex

/-- A literal, a range or a shorthand. -/
def ClassSet.isSingle : ClassSet → Bool
  | .literal _ | .range _ _ | .shorthand _ => true
  | .empty | .named _ _ | .bracket _ _ | .union _ _ | .combine _ _ _ => false

/-- The set lists at least one member, and no class or operator. -/
def ClassSet.isFlat : ClassSet → Bool
  | .union first rest => first.isSingle && rest.isFlat
  | set => set.isSingle

/-- The class for the characters of a path segment. -/
def Atom.segment : Atom :=
  .bracket true (.union (.literal (.plain '/')) (.literal (.escaped '\\')))

def Atom.isDocumented : Atom → Bool
  | .literal (.hexadecimal _ _) | .dot => false
  | .literal _ | .shorthand _ => true
  | .bracket _ members => members.isFlat

/-- Where a part of an expression stands.  What may stand as an item may be a branch, and
what may be a branch may be all of a group. -/
inductive Level where
  | group
  | branch
  | item
  deriving DecidableEq

/-- The part has only the features that the syntax of globs stands for. -/
def isDocumented : Level → Regex → Bool
  | level, .empty => level ≠ .item
  | _, .atom value => value.isDocumented
  | _, .assertion value => value = .boundary || value = .noBoundary
  | _, .group _ body => body.isDocumented .group
  | _, .repetition operator greedy (.atom value) =>
      operator = .star && greedy && (value = .dot || value = .segment)
  | _, .repetition _ greedy (.group _ body) => greedy && body.isDocumented .group
  | _, .repetition _ _ _ => false
  | level, .concat first rest =>
      level ≠ .item && first.isDocumented .item && rest.isDocumented .branch
  | level, .alternate first rest =>
      level = .group && first.isDocumented .branch && rest.isDocumented .group

/-- The groups in the order in which they open, with whether they capture. -/
def groups : Regex → List Bool
  | .empty | .atom _ | .assertion _ => []
  | .group capturing body => capturing :: body.groups
  | .repetition _ _ body => body.groups
  | .concat first rest | .alternate first rest => first.groups ++ rest.groups

theorem isDocumented_branch {regex : Regex} (documented : regex.isDocumented .item = true) :
    regex.isDocumented .branch = true := by
  cases regex with
  | empty | concat | alternate => cases documented
  | atom | assertion | group => exact documented
  | repetition operator greedy body =>
      cases body with
      | atom | group => exact documented
      | _ => cases documented

theorem isDocumented_group {regex : Regex} (documented : regex.isDocumented .branch = true) :
    regex.isDocumented .group = true := by
  cases regex with
  | alternate => cases documented
  | empty | atom | assertion | group | concat => exact documented
  | repetition operator greedy body =>
      cases body with
      | atom | group => exact documented
      | _ => cases documented

theorem isDocumented_ofItems {items : List Regex}
    (documented : ∀ item ∈ items, item.isDocumented .item = true) :
    (ofItems items).isDocumented .branch = true := by
  induction items with
  | nil => rfl
  | cons item rest ih =>
      obtain ⟨first, later⟩ := List.forall_mem_cons.mp documented
      cases rest with
      | nil => exact isDocumented_branch first
      | cons next rest =>
          have whole : (ofItems (item :: next :: rest)).isDocumented .branch =
              (item.isDocumented .item && (ofItems (next :: rest)).isDocumented .branch) := rfl
          rw [whole, first, ih later]
          rfl

theorem isDocumented_ofBranches {branches : List Regex}
    (documented : ∀ branch ∈ branches, branch.isDocumented .branch = true) :
    (ofBranches branches).isDocumented .group = true := by
  induction branches with
  | nil => rfl
  | cons branch rest ih =>
      obtain ⟨first, later⟩ := List.forall_mem_cons.mp documented
      cases rest with
      | nil => exact isDocumented_group first
      | cons next rest =>
          have whole : (ofBranches (branch :: next :: rest)).isDocumented .group =
              (branch.isDocumented .branch && (ofBranches (next :: rest)).isDocumented .group) :=
            rfl
          rw [whole, first, ih later]
          rfl

theorem groups_ofItems (items : List Regex) : (ofItems items).groups = items.flatMap groups := by
  induction items with
  | nil => rfl
  | cons item rest ih =>
      cases rest with
      | nil => simp [ofItems]
      | cons next rest =>
          have whole : (ofItems (item :: next :: rest)).groups =
              item.groups ++ (ofItems (next :: rest)).groups := rfl
          rw [whole, ih]
          rfl

theorem groups_ofBranches (branches : List Regex) :
    (ofBranches branches).groups = branches.flatMap groups := by
  induction branches with
  | nil => rfl
  | cons branch rest ih =>
      cases rest with
      | nil => simp [ofBranches]
      | cons next rest =>
          have whole : (ofBranches (branch :: next :: rest)).groups =
              branch.groups ++ (ofBranches (next :: rest)).groups := rfl
          rw [whole, ih]
          rfl

theorem isFlat_ofMembers {members : List ClassSet} (written : members ≠ [])
    (single : ∀ member ∈ members, member.isSingle = true) :
    (ClassSet.ofMembers members).isFlat = true := by
  induction members with
  | nil => exact absurd rfl written
  | cons member rest ih =>
      obtain ⟨first, later⟩ := List.forall_mem_cons.mp single
      cases rest with
      | nil =>
          cases member with
          | literal | range | shorthand => rfl
          | _ => cases first
      | cons next rest =>
          have whole : (ClassSet.ofMembers (member :: next :: rest)).isFlat =
              (member.isSingle && (ClassSet.ofMembers (next :: rest)).isFlat) := rfl
          rw [whole, first, ih (by simp) later]
          rfl

/-- All items and branches that have been read are documented. -/
abbrev State.IsDocumented (state : State) : Prop :=
  state.Shares (fun item => item.isDocumented .item = true)
    fun branch => branch.isDocumented .branch = true

/-- What is closed now has a level of its own. -/
theorem isDocumented_regex {draft : Draft}
    (shares : draft.Shares (fun item => item.isDocumented .item = true)
      fun branch => branch.isDocumented .branch = true) :
    draft.regex.isDocumented .group = true := by
  apply isDocumented_ofBranches
  intro branch member
  rcases List.mem_cons.mp (List.mem_reverse.mp member) with rfl | earlier
  · apply isDocumented_ofItems
    exact fun item inItems => shares.items item (List.mem_reverse.mp inItems)
  · exact shares.branches branch earlier

/-- The groups of what has been read, in order. -/
def Draft.captures (draft : Draft) : List Bool :=
  draft.branches.reverse.flatMap Regex.groups ++ draft.items.reverse.flatMap Regex.groups

def State.captures (state : State) : List Bool :=
  state.groups.reverse.flatMap (fun group => group.outside.captures ++ [group.capturing]) ++
    state.draft.captures

theorem Draft.captures_push (draft : Draft) (item : Regex) :
    (draft.push item).captures = draft.captures ++ item.groups := by
  simp [captures, push]

theorem Draft.captures_split (draft : Draft) : draft.split.captures = draft.captures := by
  simp [captures, split, groups_ofItems]

theorem Draft.groups_regex (draft : Draft) : draft.regex.groups = draft.captures := by
  rw [regex, groups_ofBranches, ← captures_split]
  simp [captures, split]

end ShellGlob.Regex
