import ShellGlob.Regex.Spans

/-!
# Normal forms match the same texts

Each operation on forms has a law that says what its result matches, and the
main statement follows: the normal form of an expression matches what the
expression matches (`spans_normal`).  Which of several matches a search prefers
is not part of it.
-/

namespace ShellGlob.Regex

open Unicode (CharacterSet)

namespace Form

variable {text : Text} {start stop : Nat}

/-- The parts match one after the other. -/
def SpansItems (text : Text) : List Form → (start stop : Nat) → Prop
  | [], start, stop => start = stop
  | item :: rest, start, stop =>
      ∃ middle, item.Spans text start middle ∧ SpansItems text rest middle stop

theorem spansItems_singleton (item : Form) :
    SpansItems text [item] start stop ↔ item.Spans text start stop := by
  simp [SpansItems]

private theorem spansItems_append (front rest : List Form) :
    SpansItems text (front ++ rest) start stop ↔
      ∃ middle, SpansItems text front start middle ∧ SpansItems text rest middle stop := by
  induction front generalizing start with
  | nil => simp [SpansItems]
  | cons item front ih =>
      simp only [List.cons_append, SpansItems, ih]
      constructor
      · rintro ⟨first, itemSpans, second, frontSpans, restSpans⟩
        exact ⟨second, ⟨first, itemSpans, frontSpans⟩, restSpans⟩
      · rintro ⟨second, ⟨first, itemSpans, frontSpans⟩, restSpans⟩
        exact ⟨first, itemSpans, second, frontSpans, restSpans⟩

private theorem spansItems_items (form : Form) :
    SpansItems text form.items start stop ↔ form.Spans text start stop := by
  induction form generalizing start with
  | empty => rfl
  | concat first rest _ ih =>
      simp only [items, SpansItems, Spans, ih]
  | _ => exact spansItems_singleton _

theorem spans_ofItems (items : List Form) :
    (ofItems items).Spans text start stop ↔ SpansItems text items start stop := by
  induction items generalizing start with
  | nil => rfl
  | cons item rest ih =>
      cases rest with
      | nil => exact (spansItems_singleton item).symm
      | cons next rest =>
          simp only [ofItems, Spans, SpansItems]
          refine exists_congr fun middle => and_congr_right fun _ => ?_
          exact ih

theorem spans_prepend (item rest : Form) :
    (item.prepend rest).Spans text start stop ↔
      ∃ middle, item.Spans text start middle ∧ rest.Spans text middle stop := by
  unfold prepend
  split
  · simp [Spans]
  · split
    · exact spans_literal_append _ _
    · rfl
  · split
    · next front =>
        simp only [spans_concat, spans_literal_append]
        constructor
        · rintro ⟨second, ⟨first, frontSpans, textSpans⟩, restSpans⟩
          exact ⟨first, frontSpans, second, textSpans, restSpans⟩
        · rintro ⟨first, frontSpans, second, textSpans, restSpans⟩
          exact ⟨second, ⟨first, frontSpans, textSpans⟩, restSpans⟩
    · rfl
  · rfl

theorem spans_append (form rest : Form) :
    (form.append rest).Spans text start stop ↔
      ∃ middle, form.Spans text start middle ∧ rest.Spans text middle stop := by
  induction form generalizing start with
  | empty => simp [append, Spans]
  | concat first middle _ ih =>
      simp only [append, spans_prepend, ih, Spans]
      constructor
      · rintro ⟨one, firstSpans, two, middleSpans, restSpans⟩
        exact ⟨two, ⟨one, firstSpans, middleSpans⟩, restSpans⟩
      · rintro ⟨two, ⟨one, firstSpans, middleSpans⟩, restSpans⟩
        exact ⟨one, firstSpans, two, middleSpans, restSpans⟩
  | _ => exact spans_prepend _ _

private theorem spans_ofBranches (branches : List Form) :
    (ofBranches branches).Spans text start stop ↔
      ∃ branch ∈ branches, branch.Spans text start stop := by
  induction branches with
  | nil =>
      have nothing (found : Option Char) : found.any CharacterSet.empty.contains = false := by
        cases found <;> rfl
      simp [ofBranches, Spans, nothing]
  | cons branch rest ih =>
      cases rest with
      | nil => simp [ofBranches]
      | cons next rest => simp only [ofBranches, Spans, ih, List.mem_cons, exists_eq_or_imp]

theorem exists_mem_branches (form : Form) :
    (∃ branch ∈ form.branches, branch.Spans text start stop) ↔ form.Spans text start stop := by
  induction form with
  | alternate first rest _ ih => simp only [branches, List.mem_cons, exists_eq_or_imp, ih, Spans]
  | _ => simp [branches]

theorem spans_ofCharacters (characters : CharacterSet) :
    (ofCharacters characters).Spans text start stop ↔
      stop = start + 1 ∧ text[start]?.any characters.contains := by
  unfold ofCharacters
  split
  · next first last listed =>
      split
      · next same =>
          subst same
          have valid : first.isValidChar :=
            (characters.proper.intervals (first, first) (by simp [listed])).first
          have member (c : Char) : characters.contains c = decide (c = Char.ofNat first) := by
            rw [Bool.eq_iff_iff, CharacterSet.contains_iff, listed, decide_eq_true_eq]
            simp only [Unicode.Ranges.has_cons, Unicode.Ranges.has_nil, or_false]
            constructor
            · intro inside
              have same : c.toNat = first := Nat.le_antisymm inside.2 inside.1
              rw [← same, Char.ofNat_toNat]
            · rintro rfl
              have back : (Char.ofNat first).toNat = first := by
                rw [Char.ofNat, dif_pos valid]
                rfl
              exact ⟨Nat.le_of_eq back.symm, Nat.le_of_eq back⟩
          have any (found : Option Char) :
              (found.any characters.contains = true) ↔ found = some (Char.ofNat first) := by
            cases found with
            | none => simp
            | some c => simp [member]
          simp only [Spans, List.length_singleton, any]
          refine and_congr_right fun _ => ?_
          rw [← List.head?_drop]
          cases text.drop start with
          | nil => simp
          | cons c rest => simp [List.cons_prefix_cons, eq_comm]
      · rfl
  · rfl

private theorem contains_foldl_union (sets : List CharacterSet) (base : CharacterSet) (c : Char) :
    (sets.foldl CharacterSet.union base).contains c =
      (base.contains c || sets.any (·.contains c)) := by
  induction sets generalizing base with
  | nil => simp
  | cons set rest ih =>
      rw [List.foldl_cons, ih, CharacterSet.contains_union, List.any_cons, Bool.or_assoc]

/-- The set of a form, by which it matches one character. -/
def IsSet (text : Text) (form : Form) (characters : CharacterSet) : Prop :=
  ∀ start stop, form.Spans text start stop ↔
    stop = start + 1 ∧ text[start]?.any characters.contains

theorem isSet_of_character? {form : Form} {characters : CharacterSet}
    (found : form.character? = some characters) : IsSet text form characters := by
  intro start stop
  cases form with
  | literal value =>
      match value, found with
      | [c], found =>
          cases found
          simp only [Spans, List.length_singleton]
          refine and_congr_right fun _ => ?_
          rw [← List.head?_drop]
          cases text.drop start with
          | nil => simp
          | cons other rest =>
              simp [List.cons_prefix_cons, CharacterSet.contains_single, eq_comm]
  | _ => cases found

private theorem isSet_of_set? {form : Form} {characters : CharacterSet}
    (found : form.set? = some characters) : IsSet text form characters := by
  intro start stop
  cases form with
  | set value =>
      cases found
      rfl
  | _ => cases found

private theorem exists_of_mapM {branches : List Form} {sets : List CharacterSet}
    {view : Form → Option CharacterSet} (found : branches.mapM view = some sets)
    (isSet : ∀ form characters, view form = some characters → IsSet text form characters) :
    (∃ branch ∈ branches, branch.Spans text start stop) ↔
      stop = start + 1 ∧ text[start]?.any fun c => sets.any (·.contains c) := by
  induction branches generalizing sets with
  | nil =>
      cases found
      cases text[start]? <;> simp
  | cons branch rest ih =>
      simp only [List.mapM_cons, Option.bind_eq_bind, Option.bind_eq_some_iff, Option.pure_def,
        Option.some.injEq] at found
      obtain ⟨first, firstFound, others, othersFound, rfl⟩ := found
      simp only [List.mem_cons, exists_eq_or_imp, ih othersFound,
        isSet branch first firstFound start stop]
      cases text[start]? <;> simp [← and_or_left]

private theorem spans_of_union? {branches : List Form} {characters : CharacterSet}
    (found : union? branches = some characters) :
    (∃ branch ∈ branches, branch.Spans text start stop) ↔
      (ofCharacters characters).Spans text start stop := by
  simp only [union?, Option.map_eq_some_iff, Option.or_eq_some_iff] at found
  obtain ⟨sets, either, rfl⟩ := found
  have same : ((sets.foldl CharacterSet.union .empty).contains) =
      fun c => sets.any (·.contains c) := by
    funext c
    rw [contains_foldl_union, CharacterSet.contains_empty, Bool.false_or]
  rw [spans_ofCharacters, same]
  rcases either with characters | ⟨-, sets⟩
  · exact exists_of_mapM characters fun _ _ => isSet_of_character?
  · exact exists_of_mapM sets fun _ _ => isSet_of_set?

theorem spans_plainChoice (branches : List Form) :
    (plainChoice branches).Spans text start stop ↔
      ∃ branch ∈ branches, branch.Spans text start stop := by
  unfold plainChoice
  split
  · simp
  · split
    · next found => exact (spans_of_union? found).symm
    · exact spans_ofBranches branches

private theorem sharedItems_isPrefix (left right : List Form) :
    sharedItems left right <+: left ∧ sharedItems left right <+: right := by
  induction left generalizing right with
  | nil => simp [sharedItems]
  | cons item left ih =>
      cases right with
      | nil => simp [sharedItems]
      | cons other right =>
          rw [sharedItems]
          split
          · next same =>
              simp only [Bool.and_eq_true, decide_eq_true_eq] at same
              obtain ⟨rfl, -⟩ := same
              simpa [List.cons_prefix_cons] using ih right
          · simp

private theorem foldl_sharedItems_isPrefix (branches : List Form) (shared : List Form) :
    branches.foldl (fun shared other => sharedItems shared other.items) shared <+: shared ∧
      ∀ branch ∈ branches,
        branches.foldl (fun shared other => sharedItems shared other.items) shared <+:
          branch.items := by
  induction branches generalizing shared with
  | nil => simp
  | cons branch rest ih =>
      obtain ⟨ofShared, ofBranch⟩ := sharedItems_isPrefix shared branch.items
      obtain ⟨inFirst, inRest⟩ := ih (sharedItems shared branch.items)
      rw [List.foldl_cons]
      refine ⟨inFirst.trans ofShared, ?_⟩
      intro other member
      rcases List.mem_cons.mp member with rfl | member
      · exact inFirst.trans ofBranch
      · exact inRest other member

theorem commonItems_isPrefix {branches : List Form} {branch : Form} (member : branch ∈ branches) :
    commonItems branches <+: branch.items := by
  cases branches with
  | nil => cases member
  | cons first rest =>
      rw [commonItems]
      split
      · obtain ⟨inFirst, inRest⟩ := foldl_sharedItems_isPrefix rest first.items
        rcases List.mem_cons.mp member with rfl | member
        · exact inFirst
        · exact inRest branch member
      · exact List.nil_prefix

private theorem spans_iff_of_isPrefix {branch : Form} {common : List Form}
    (isPrefix : common <+: branch.items) :
    branch.Spans text start stop ↔
      ∃ middle, SpansItems text common start middle ∧
        (ofItems (branch.items.drop common.length)).Spans text middle stop := by
  obtain ⟨suffix, whole⟩ := isPrefix
  rw [← spansItems_items, ← whole, List.drop_left, spansItems_append]
  simp only [spans_ofItems]

theorem spans_choice (branches : List Form) :
    (choice branches).Spans text start stop ↔
      ∃ branch ∈ branches, branch.Spans text start stop := by
  unfold choice
  split
  · simp
  · split
    · exact spans_plainChoice branches
    · next common _ =>
        have isPrefix : ∀ branch ∈ branches, commonItems branches <+: branch.items :=
          fun branch member => commonItems_isPrefix member
        simp only [spans_append, spans_ofItems, spans_plainChoice, List.mem_flatMap, List.mem_map]
        constructor
        · rintro ⟨middle, commonSpans, part, ⟨_, ⟨branch, member, rfl⟩, inPart⟩, partSpans⟩
          refine ⟨branch, member, ?_⟩
          rw [spans_iff_of_isPrefix (isPrefix branch member)]
          exact ⟨middle, commonSpans, (exists_mem_branches _).mp ⟨part, inPart, partSpans⟩⟩
        · rintro ⟨branch, member, branchSpans⟩
          rw [spans_iff_of_isPrefix (isPrefix branch member)] at branchSpans
          obtain ⟨middle, commonSpans, suffixSpans⟩ := branchSpans
          obtain ⟨part, inPart, partSpans⟩ := (exists_mem_branches _).mpr suffixSpans
          exact ⟨middle, commonSpans, part, ⟨_, ⟨branch, member, rfl⟩, inPart⟩, partSpans⟩

theorem eq_of_isHollow {form : Form} (hollow : form.isHollow = true)
    (spans : form.Spans text start stop) : start = stop := by
  induction form generalizing start stop with
  | empty => exact spans
  | literal | set => cases hollow
  | assertion value => exact spans.1
  | capture body ih => exact ih hollow spans
  | repetition operator greedy body ih =>
      have once : ∀ start stop, body.Spans text start stop → start = stop :=
        fun _ _ => ih hollow
      cases operator with
      | optional =>
          rcases spans with same | spans
          · exact same
          · exact once start stop spans
      | star => exact Repeated.eq_of_hollow once spans
      | plus =>
          obtain ⟨middle, first, rest⟩ := spans
          exact (once start middle first).trans (Repeated.eq_of_hollow once rest)
  | concat first rest firstHollow restHollow =>
      simp only [isHollow, Bool.and_eq_true] at hollow
      obtain ⟨middle, firstSpans, restSpans⟩ := spans
      exact (firstHollow hollow.1 firstSpans).trans (restHollow hollow.2 restSpans)
  | alternate first rest firstHollow restHollow =>
      simp only [isHollow, Bool.and_eq_true] at hollow
      rcases spans with spans | spans
      · exact firstHollow hollow.1 spans
      · exact restHollow hollow.2 spans

theorem spans_repeated (operator : Repetition) (greedy : Bool) (body : Form) :
    (repeated operator greedy body).Spans text start stop ↔
      operator.Spans (body.Spans text) start stop := by
  unfold repeated
  split
  · next hollow =>
      have once : ∀ start stop, body.Spans text start stop → start = stop :=
        fun _ _ => eq_of_isHollow hollow
      cases operator with
      | optional => rfl
      | star =>
          constructor
          · rintro (rfl | spans)
            · exact .done start
            · exact .one spans
          · exact fun spans => Or.inl (Repeated.eq_of_hollow once spans)
      | plus =>
          constructor
          · exact fun spans => ⟨stop, spans, .done stop⟩
          · rintro ⟨middle, first, rest⟩
            have same := Repeated.eq_of_hollow once rest
            subst same
            exact first
  · rfl

end Form

theorem exists_mem_alternatives {text : Text} {regex : Regex} {start stop : Nat} :
    (∃ form ∈ regex.alternatives, form.Spans text start stop) ↔ regex.Spans text start stop := by
  induction regex generalizing start stop with
  | empty => simp [alternatives, Form.Spans, Spans]
  | atom value =>
      have same : value.characters.contains = value.accepts := funext value.contains_characters
      simp [alternatives, Form.spans_ofCharacters, Spans, same]
  | assertion value => simp [alternatives, Form.Spans, Spans]
  | group capturing body ih =>
      cases capturing
      · simp only [alternatives, Form.exists_mem_branches, Form.spans_choice, ih, Spans]
      · simp only [alternatives, List.mem_singleton, exists_eq_left, Form.Spans,
          Form.spans_choice, ih, Spans]
  | repetition operator greedy body ih =>
      simp only [alternatives, Form.exists_mem_branches, Form.spans_repeated, Spans]
      refine operator.spans_congr ?_ start stop
      intro start stop
      rw [Form.spans_choice, ih]
  | concat first rest firstSame restSame =>
      simp only [alternatives, Form.exists_mem_branches, Form.spans_append, Form.spans_choice,
        firstSame, restSame, Spans]
  | alternate first rest firstSame restSame =>
      simp only [alternatives, List.mem_append, or_and_right, exists_or, firstSame, restSame,
        Spans]

/-- The normal form of an expression matches what the expression matches. -/
theorem spans_normal (text : Text) (regex : Regex) (start stop : Nat) :
    regex.normal.Spans text start stop ↔ regex.Spans text start stop := by
  rw [normal, Form.spans_choice, exists_mem_alternatives]

end ShellGlob.Regex
