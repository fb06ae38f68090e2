import ShellGlob.Proofs.Glob.Classes
import ShellGlob.Proofs.Glob.Placement
import ShellGlob.Proofs.Regex.Widening

/-!
# Alternatives of a negation

The exclusion of a negation reads its alternatives as the branches of one group.  Where
each alternative is read alike wherever it stands, an exclusion of more alternatives is
thus the same expression with more branches, and it matches no less.  The positive glob
and the other exclusions do not show the alternatives at all.  So a negation that forbids
more matches no more (`matches_of_more_alternatives`), and neither the order of its
alternatives nor their number is of any matter.

The exclusion of the negation that forbids more must compile.  If it does not, it is left
out, and the negation forbids nothing.
-/

namespace ShellGlob.Glob

open Regex (State Includes ReadsAs ReadsBranches Widened)

/-- The alternatives of a group as they are written in it. -/
def listed (alternatives : List Text) : Text :=
  ['|'].intercalate alternatives

/-- Wherever the text is read outside of classes, it leaves open what it finds open, and
closes only what it opens.  No escape reaches beyond it. -/
structure Standalone (alternative : Text) : Prop where
  leaves : ∀ context : Context, context.classPart = none →
    context.afterAll (tokens context alternative) = context
  closesOwn : ∀ context : Context, context.classPart = none →
    StaysAbove context.depth context (tokens context alternative)
  paired : escapesPaired alternative = true

/-- A text is read alike everywhere if none of its tokens opens or closes anything. -/
theorem standalone_of_unchanged {alternative : Text} (paired : escapesPaired alternative = true)
    (unchanged : ∀ context : Context, context.classPart = none →
      ∀ token ∈ tokens context alternative, context.after token = context) :
    Standalone alternative := by
  have leaves : ∀ (context : Context) (fragment : List Token),
      (∀ token ∈ fragment, context.after token = context) →
        context.afterAll fragment = context ∧ StaysAbove context.depth context fragment := by
    intro context fragment same
    induction fragment with
    | nil => exact ⟨rfl, trivial⟩
    | cons token fragment ih =>
        rw [List.forall_mem_cons] at same
        obtain ⟨back, above⟩ := ih same.2
        rw [Context.afterAll_cons, StaysAbove, same.1]
        exact ⟨back, le_refl _, above⟩
  exact ⟨fun context outside => (leaves context _ (unchanged context outside)).1,
    fun context outside => (leaves context _ (unchanged context outside)).2, paired⟩

section

variable {context : Context} {rest : Text}

private theorem tokens_bar (outside : context.classPart = none) (inGroup : context.groups ≠ []) :
    tokens context ('|' :: rest) = .bar :: tokens context rest := by
  obtain ⟨innermost, outer, groups⟩ := List.exists_cons_of_ne_nil inGroup
  have read : context.read '|' rest = .bar := by
    rw [Context.read_plain_of_not_mark (by decide) outside rfl]
    simp [Token.readPlain, groups]
  rw [tokens_cons, read]
  rfl

end

section

variable {opened : Context} (outside : opened.classPart = none) (inGroup : opened.groups ≠ [])
  {alternative : Text} {alternatives : List Text}

include outside inGroup

theorem tokens_listed_cons (standalone : Standalone alternative) (more : alternatives ≠ []) :
    tokens opened (listed (alternative :: alternatives)) =
      tokens opened alternative ++ .bar :: tokens opened (listed alternatives) := by
  rw [listed, List.intercalate_cons_of_ne_nil more, List.append_assoc, List.singleton_append,
    tokens_append_of_escapesPaired standalone.paired (by decide), standalone.leaves opened outside,
    tokens_bar outside inGroup]
  rfl

private theorem afterAll_listed
    (standalone : ∀ alternative ∈ alternatives, Standalone alternative) :
    opened.afterAll (tokens opened (listed alternatives)) = opened := by
  induction alternatives with
  | nil => rw [listed, List.intercalate_nil, tokens_nil, Context.afterAll_nil]
  | cons alternative alternatives ih =>
      rw [List.forall_mem_cons] at standalone
      by_cases more : alternatives = []
      · rw [more, listed, List.intercalate_singleton]
        exact standalone.1.leaves opened outside
      · rw [tokens_listed_cons outside inGroup standalone.1 more, Context.afterAll_append,
          standalone.1.leaves opened outside, Context.afterAll_cons]
        exact ih standalone.2

omit outside inGroup in
private theorem escapesPaired_listed
    (standalone : ∀ alternative ∈ alternatives, Standalone alternative) :
    escapesPaired (listed alternatives) = true := by
  induction alternatives with
  | nil => rfl
  | cons alternative alternatives ih =>
      rw [List.forall_mem_cons] at standalone
      by_cases more : alternatives = []
      · rw [more, listed, List.intercalate_singleton]
        exact standalone.1.paired
      · rw [listed, List.intercalate_cons_of_ne_nil more, List.append_assoc,
          List.singleton_append, escapesPaired_append_of_paired standalone.1.paired,
          escapesPaired_cons (by decide)]
        exact ih standalone.2

theorem patternFrom_listed_cons (standalone : Standalone alternative) (more : alternatives ≠ []) :
    patternFrom opened (listed (alternative :: alternatives)) =
      patternFrom opened alternative ++ '|' :: patternFrom opened (listed alternatives) := by
  rw [patternFrom, tokens_listed_cons outside inGroup standalone more, List.flatMap_append]
  rfl

omit inGroup in
private theorem Standalone.exists_branches (standalone : Standalone alternative)
    {state last : State}
    (filled : classesFilled .filled (tokens opened alternative) = true) (idle : state.Idle)
    (ran : state.run (patternFrom opened alternative) = .ok last) :
    last.Idle ∧ ∃ branches,
      branches ≠ [] ∧ ReadsBranches (patternFrom opened alternative) branches := by
  obtain ⟨lastIdle, alone, closes, _⟩ :=
    closes_of_leaves outside (standalone.leaves opened outside) filled
      (standalone.closesOwn opened outside) idle ran
  exact ⟨lastIdle, _, by simp [Regex.Draft.split], Regex.readsBranches_of_closes closes⟩

/-- Where the alternatives can be read one after the other, each of them is branches. -/
theorem exists_branches_of_run {state last : State} (idle : state.Idle)
    (standalone : ∀ alternative ∈ alternatives, Standalone alternative)
    (filled : classesFilled .filled (tokens opened (listed alternatives)) = true)
    (ran : state.run (patternFrom opened (listed alternatives)) = .ok last) :
    ∀ alternative ∈ alternatives, ∃ branches,
      branches ≠ [] ∧ ReadsBranches (patternFrom opened alternative) branches := by
  induction alternatives generalizing state with
  | nil => simp
  | cons alternative alternatives ih =>
      rw [List.forall_mem_cons] at standalone ⊢
      by_cases more : alternatives = []
      · rw [more, listed, List.intercalate_singleton] at filled ran
        rw [more]
        exact ⟨(standalone.1.exists_branches outside filled idle ran).2, by simp⟩
      · rw [tokens_listed_cons outside inGroup standalone.1 more] at filled
        rw [patternFrom_listed_cons outside inGroup standalone.1 more] at ran
        have plain : ∀ filling : Filling, filling.after .bar = .filled := by
          simp [Filling.after, Token.pattern]
        obtain ⟨firstFilled, restFilled⟩ := classesFilled_of_append plain filled
        obtain ⟨middle, ranFirst, ran⟩ := State.run_append_eq_ok.mp ran
        obtain ⟨middleIdle, branches⟩ :=
          standalone.1.exists_branches outside firstFilled idle ranFirst
        obtain ⟨next, ranBar, nextIdle, _, _⟩ := run_separator middleIdle
        have ranRest : next.run (patternFrom opened (listed alternatives)) = .ok last := by
          rw [← State.run_append_of_run ranBar]
          exact ran
        exact ⟨branches, ih nextIdle standalone.2 restFilled ranRest⟩

private theorem readsBranches_listed {branchesOf : Text → List Regex} (written : alternatives ≠ [])
    (standalone : ∀ alternative ∈ alternatives, Standalone alternative)
    (reads : ∀ alternative ∈ alternatives,
      ReadsBranches (patternFrom opened alternative) (branchesOf alternative)) :
    ReadsBranches (patternFrom opened (listed alternatives)) (alternatives.flatMap branchesOf) := by
  induction alternatives with
  | nil => exact absurd rfl written
  | cons alternative alternatives ih =>
      rw [List.forall_mem_cons] at standalone reads
      by_cases more : alternatives = []
      · rw [more, listed, List.intercalate_singleton, List.flatMap_singleton]
        exact reads.1
      · rw [patternFrom_listed_cons outside inGroup standalone.1 more, List.flatMap_cons]
        exact reads.1.append (ih more standalone.2 reads.2)

end

/-- The glob in which a negation of the alternatives is expanded. -/
def expanded (before : Text) (alternatives : List Text) (behind : Text) : Text :=
  before ++ '@' :: '(' :: (listed alternatives ++ ')' :: behind)

section

variable {before behind : Text} {alternatives fewer more : List Text}
  (paired : escapesPaired before = true)
  (outside : (({} : Context).afterAll (tokens {} before)).classPart = none)

include paired outside

/-- The group of an expanded negation is closed where it is written. -/
theorem tokens_expanded (standalone : ∀ alternative ∈ alternatives, Standalone alternative) :
    let here := ({} : Context).afterAll (tokens {} before)
    let opened := here.after (.groupOpen .exactlyOne)
    tokens {} (expanded before alternatives behind) =
      tokens {} before ++ .groupOpen .exactlyOne ::
        (tokens opened (listed alternatives) ++
          .groupClose .exactlyOne :: tokens here behind) := by
  intro here opened
  have inside : opened.classPart = none := outside
  have inGroup : opened.groups ≠ [] := List.cons_ne_nil _ _
  have closes : tokens opened (')' :: behind) = .groupClose .exactlyOne :: tokens here behind := by
    rw [tokens_cons, Context.read_plain_of_not_mark (by decide) inside rfl]
    rfl
  have whole : tokens {} (expanded before alternatives behind) =
      tokens {} before ++ .groupOpen .exactlyOne ::
        (tokens opened (listed alternatives) ++
          tokens (opened.afterAll (tokens opened (listed alternatives))) (')' :: behind)) :=
    tokens_expansion paired (escapesPaired_listed standalone) outside behind
  rw [whole, afterAll_listed inside inGroup standalone, closes]

theorem patternFrom_expanded (standalone : ∀ alternative ∈ alternatives, Standalone alternative) :
    let here := ({} : Context).afterAll (tokens {} before)
    let opened := here.after (.groupOpen .exactlyOne)
    anchor (patternFrom {} (expanded before alternatives behind)) =
      ('^' :: patternFrom {} before) ++
        (('(' :: '?' :: ':' :: (patternFrom opened (listed alternatives) ++ [')'])) ++
          (patternFrom here behind ++ ['$'])) := by
  intro here opened
  rw [patternFrom, tokens_expanded paired outside standalone]
  simp [anchor, patternFrom, Token.pattern, Multiplicity.operator, here, opened]

omit paired in
/-- Behind a text that ends outside of classes no escape and no class is open in the
pattern. -/
theorem idle_of_run {start last : State} (idle : start.Idle)
    (filled : classesFilled .filled (tokens {} before) = true)
    (ran : start.run (patternFrom {} before) = .ok last) : last.Idle := by
  have inStep : InStep {} .filled 0 {} start :=
    ⟨rfl, fun _ => rfl, Or.inl ⟨rfl, Or.inl rfl, idle⟩⟩
  obtain ⟨_, _, _, stillInStep⟩ := inStep.run filled (staysAbove_zero _ _) ran
  obtain ⟨-, -, lastIdle⟩ := stillInStep.pending.resolve_right fun inside => inside.1 outside
  exact lastIdle

/-- Where an expanded negation can be read, so can the text before it and each of its
alternatives. -/
theorem exists_branches_of_parse (standalone : ∀ alternative ∈ alternatives, Standalone alternative)
    (filled : classesFilled .filled (tokens {} (expanded before alternatives behind)) = true)
    {regex : Regex}
    (parsed : Regex.parse (anchor (patternFrom {} (expanded before alternatives behind))) =
      .ok regex) :
    let here := ({} : Context).afterAll (tokens {} before)
    let opened := here.after (.groupOpen .exactlyOne)
    ∃ middle : State, State.run {} ('^' :: patternFrom {} before) = .ok middle ∧ middle.Idle ∧
      ∀ alternative ∈ alternatives, ∃ branches,
        branches ≠ [] ∧ ReadsBranches (patternFrom opened alternative) branches := by
  intro here opened
  have plain : ∀ filling : Filling, filling.after (.groupOpen .exactlyOne) = .filled ∧
      filling.after (.groupClose .exactlyOne) = .filled := by
    simp [Filling.after, Token.pattern, Multiplicity.operator]
  rw [tokens_expanded paired outside standalone] at filled
  rw [patternFrom_expanded paired outside standalone] at parsed
  obtain ⟨filledBefore, filled⟩ := classesFilled_of_append (fun filling => (plain filling).1) filled
  obtain ⟨filledListed, _⟩ := classesFilled_of_append (fun filling => (plain filling).2) filled
  obtain ⟨last, ran, _⟩ := Regex.exists_run_of_parse parsed
  obtain ⟨middle, ranFront, ran⟩ := State.run_append_eq_ok.mp ran
  obtain ⟨start, taken, ranBefore⟩ := State.run_cons_eq_ok.mp ranFront
  cases taken
  have middleIdle : middle.Idle := idle_of_run outside (Or.inl rfl) filledBefore ranBefore
  obtain ⟨entered, _, ranOpening, enteredIdle, _, _⟩ := run_opening middleIdle (Or.inr rfl)
  have ranGroup : entered.run (patternFrom opened (listed alternatives) ++
      (')' :: (patternFrom here behind ++ ['$']))) = .ok last := by
    rw [← State.run_append_of_run ranOpening, ← ran]
    simp [here, opened]
  obtain ⟨_, ranListed, _⟩ := State.run_append_eq_ok.mp ranGroup
  have inside : opened.classPart = none := outside
  have inGroup : opened.groups ≠ [] := List.cons_ne_nil _ _
  exact ⟨middle, ranFront, middleIdle,
    exists_branches_of_run inside inGroup enteredIdle standalone filledListed ranListed⟩

omit paired outside in
/-- The branches of more alternatives match more. -/
theorem includes_of_subset {branchesOf : Text → List Regex} (written : fewer ≠ [])
    (subset : fewer ⊆ more) (branchesWritten : ∀ alternative ∈ more, branchesOf alternative ≠ [])
    (text : Text) :
    Includes text (Regex.ofBranches (fewer.flatMap branchesOf))
      (Regex.ofBranches (more.flatMap branchesOf)) := by
  obtain ⟨first, isFirst⟩ := List.exists_mem_of_ne_nil fewer written
  obtain ⟨branch, isBranch⟩ := List.exists_mem_of_ne_nil _ (branchesWritten first (subset isFirst))
  apply Includes.ofBranches_of_subset
  · exact List.ne_nil_of_mem (List.mem_flatMap.mpr ⟨first, isFirst, isBranch⟩)
  · intro other member
    obtain ⟨alternative, listed, member⟩ := List.mem_flatMap.mp member
    exact List.mem_flatMap.mpr ⟨alternative, subset listed, member⟩

/-- What an exclusion of some alternatives matches, one of more alternatives matches
too. -/
theorem isMatch_of_subset (written : fewer ≠ []) (subset : fewer ⊆ more)
    (standalone : ∀ alternative ∈ more, Standalone alternative)
    (filled : classesFilled .filled (tokens {} (expanded before more behind)) = true)
    {few many : CompiledRegex} (builtFew : compile (expanded before fewer behind) true = .ok few)
    (builtMany : compile (expanded before more behind) true = .ok many) {candidate : Text}
    (matched : few.isMatch candidate = true) : many.isMatch candidate = true := by
  let opened := (({} : Context).afterAll (tokens {} before)).after (.groupOpen .exactlyOne)
  have inside : opened.classPart = none := outside
  have inGroup : opened.groups ≠ [] := List.cons_ne_nil _ _
  have writtenMore : more ≠ [] := fun nothing =>
    written (List.eq_nil_of_subset_nil (nothing ▸ subset))
  have standaloneFewer : ∀ alternative ∈ fewer, Standalone alternative :=
    fun alternative member => standalone alternative (subset member)
  obtain ⟨regexFew, parsedFew, _, rfl⟩ := compile_anchored_eq_ok_iff.mp builtFew
  obtain ⟨regexMany, parsedMany, _, rfl⟩ := compile_anchored_eq_ok_iff.mp builtMany
  obtain ⟨middle, ranFront, idle, branches⟩ :=
    exists_branches_of_parse paired outside standalone filled parsedMany
  -- Each alternative has branches of its own, which do not depend on what is listed with it.
  choose! branchesOf branchesWritten reads using branches
  have readsFew : ReadsAs _ (.group false _) := ReadsBranches.group <|
    readsBranches_listed inside inGroup written standaloneFewer
      fun alternative member => reads alternative (subset member)
  have readsMany : ReadsAs _ (.group false _) := ReadsBranches.group <|
    readsBranches_listed inside inGroup writtenMore standalone reads
  have widened := Widened.group false (includes_of_subset written subset branchesWritten candidate)
  rw [patternFrom_expanded paired outside standaloneFewer] at parsedFew
  rw [patternFrom_expanded paired outside standalone] at parsedMany
  exact CompiledRegex.isMatch_of_includes
    (Regex.includes_of_parse ranFront idle readsFew readsMany widened parsedFew parsedMany) matched

end

/-- A negation of the alternatives between two texts. -/
def negating (before : Text) (alternatives : List Text) (behind : Text) : Text :=
  before ++ ((Piece.negation (listed alternatives)).source ++ behind)

/-- The alternatives are read alike wherever they stand.  Their negation is reported where
it is written, outside of classes, and its exclusion has no empty class. -/
structure Negates (before : Text) (alternatives : List Text) (behind : Text) (index : Nat) :
    Prop where
  standalone : ∀ alternative ∈ alternatives, Standalone alternative
  outside : (({} : Context).afterAll (tokens {} (positive before))).classPart = none
  reported : ∃ stop, (negations (negating before alternatives behind))[index]? =
    some ⟨Text.utf8Length before, stop, listed alternatives⟩
  filled : classesFilled .filled (tokens {}
    (exclusion (negating before alternatives behind) index)) = true

/-- The glob has a matcher, and it matches the candidate. -/
def Matches (glob : Text) (anchored : Bool) (candidate : Text) : Prop :=
  ∃ matcher, Matcher.ofGlob glob anchored = .ok matcher ∧ matcher.isMatch candidate = true

namespace Negates

variable {before behind : Text} {alternatives fewer more : List Text} {index i j : Nat}

theorem pieces_eq (negates : Negates before alternatives behind index) :
    pieces (negating before alternatives behind) =
      pieces before ++ .negation (listed alternatives) :: pieces behind :=
  negates.reported.elim fun _ reported => (pieces_of_reported reported).1

theorem index_eq (negates : Negates before alternatives behind index) :
    index = (negations before).length :=
  negates.reported.elim fun _ reported => (pieces_of_reported reported).2

theorem exclusion_eq (negates : Negates before alternatives behind index) :
    exclusion (negating before alternatives behind) index =
      expanded (positive before) alternatives (positive behind) := by
  rw [negates.index_eq]
  exact Glob.exclusion_eq negates.pieces_eq

theorem paired (negates : Negates before alternatives behind index) :
    escapesPaired (positive before) = true :=
  escapesPaired_resolveFrom negates.pieces_eq 0

/-- All variants are the same but for the exclusion of the negation. -/
theorem variant_eq (few : Negates before fewer behind i) (many : Negates before more behind j)
    {expansion : Option Nat} (elsewhere : expansion ≠ some i) :
    variant (negating before fewer behind) expansion =
      variant (negating before more behind) expansion := by
  rw [few.index_eq] at elsewhere
  exact variant_eq_of_elsewhere few.pieces_eq many.pieces_eq elsewhere

theorem length_negations_eq (few : Negates before fewer behind i)
    (many : Negates before more behind j) :
    (negations (negating before fewer behind)).length =
      (negations (negating before more behind)).length := by
  rw [length_negations_of_pieces few.pieces_eq, length_negations_of_pieces many.pieces_eq]

private theorem lt_length_negations (negates : Negates before alternatives behind index) :
    index < (negations (negating before alternatives behind)).length := by
  obtain ⟨_, reported⟩ := negates.reported
  exact (List.getElem?_eq_some_iff.mp reported).1

/-- Each exclusion that forbids a part has one that does so where more is forbidden. -/
theorem isMatch_exclusions (few : Negates before fewer behind i)
    (many : Negates before more behind j) (written : fewer ≠ []) (subset : fewer ⊆ more)
    {compiled : CompiledRegex}
    (built : compile (exclusion (negating before more behind) j) true = .ok compiled)
    {part : Text} (unmatched : ∀ excluded ∈ exclusions (negating before more behind),
      excluded.isMatch part = false) :
    ∀ excluded ∈ exclusions (negating before fewer behind), excluded.isMatch part = false := by
  intro excluded member
  obtain ⟨number, bound, builtExcluded⟩ := mem_exclusions_iff.mp member
  -- The own exclusions differ; all others are exclusions of both globs.
  by_cases own : number = i
  · subst own
    rw [few.exclusion_eq] at builtExcluded
    have filled := many.filled
    have forbidden := unmatched compiled
      (mem_exclusions_iff.mpr ⟨_, many.lt_length_negations, built⟩)
    rw [many.exclusion_eq] at built filled
    rw [Bool.eq_false_iff]
    intro matched
    have matchedToo := isMatch_of_subset many.paired many.outside written subset many.standalone
      filled builtExcluded built matched
    cases forbidden.symm.trans matchedToo
  · have elsewhere : some number ≠ some i := by simpa using own
    rw [few.length_negations_eq many] at bound
    rw [exclusion, few.variant_eq many elsewhere] at builtExcluded
    exact unmatched excluded (mem_exclusions_iff.mpr ⟨number, bound, builtExcluded⟩)

private theorem matches_fewer (few : Negates before fewer behind i)
    (many : Negates before more behind j)
    (written : fewer ≠ []) (subset : fewer ⊆ more)
    (compiles : ∃ compiled,
      compile (exclusion (negating before more behind) j) true = .ok compiled)
    {anchored : Bool} {candidate : Text}
    (matched : Matches (negating before more behind) anchored candidate) :
    Matches (negating before fewer behind) anchored candidate := by
  obtain ⟨compiled, builtExclusion⟩ := compiles
  obtain ⟨matcher, built, matched⟩ := matched
  obtain ⟨part, left, unmatched⟩ := (Matcher.isMatch_iff_exists_part built candidate).mp matched
  have positiveBuilt := (Matcher.compile_of_ofGlob built).1
  rw [positive, ← few.variant_eq many (by simp)] at positiveBuilt
  obtain ⟨other, builtOther, same⟩ := Matcher.exists_ofGlob positiveBuilt
  rw [← same] at left
  exact ⟨other, builtOther, (Matcher.isMatch_iff_exists_part builtOther candidate).mpr
    ⟨part, left, few.isMatch_exclusions many written subset builtExclusion unmatched⟩⟩

end Negates

/-- What a negation of more alternatives matches, one of fewer alternatives matches too.
The order of the alternatives does not matter, and neither does how often they are
written. -/
theorem matches_of_more_alternatives {before behind : Text} {fewer more : List Text} {i j : Nat}
    (few : Negates before fewer behind i) (many : Negates before more behind j)
    (written : fewer ≠ []) (subset : fewer ⊆ more)
    (compiles : ∃ compiled,
      compile (exclusion (negating before more behind) j) true = .ok compiled) :
    (∀ anchored candidate, Matches (negating before more behind) anchored candidate →
      Matches (negating before fewer behind) anchored candidate) ∧
    (more ⊆ fewer →
      (∃ compiled, compile (exclusion (negating before fewer behind) i) true = .ok compiled) →
      ∀ anchored candidate, Matches (negating before more behind) anchored candidate ↔
        Matches (negating before fewer behind) anchored candidate) := by
  have writtenMore : more ≠ [] := fun nothing =>
    written (List.eq_nil_of_subset_nil (nothing ▸ subset))
  constructor
  · intro anchored candidate
    exact few.matches_fewer many written subset compiles
  · intro sameSet compilesFewer anchored candidate
    constructor
    · exact few.matches_fewer many written subset compiles
    · exact many.matches_fewer few writtenMore sameSet compilesFewer

theorem matches_of_more_alternatives_permuted :
    let before := "!(x)\x7b".toList
    let behind := ",c\x7d".toList
    let fewer := [['a'], ['b', '?']]
    let more := [['b', '?'], ['a'], ['b', '?']]
    Negates before fewer behind 1 ∧ Negates before more behind 1 ∧
      ∀ anchored candidate, Matches (negating before more behind) anchored candidate ↔
        Matches (negating before fewer behind) anchored candidate := by
  intro before behind fewer more
  have letter : Standalone ['a'] := by
    refine standalone_of_unchanged (by decide) fun context outside => ?_
    simp [tokens_cons, tokens_nil, Context.read, outside, Multiplicity.opening?,
      Token.readPlain, Token.lookahead, Token.source, Context.after]
  have wildcard : Standalone ['b', '?'] := by
    refine standalone_of_unchanged (by decide) fun context outside => ?_
    simp [tokens_cons, tokens_nil, Context.read, outside, Multiplicity.opening?,
      Token.readPlain, Token.lookahead, Token.source, Context.after]
  have few : Negates before fewer behind 1 :=
    ⟨by simp [fewer, letter, wildcard], by decide +kernel, ⟨11, by decide +kernel⟩,
      by decide +kernel⟩
  have many : Negates before more behind 1 :=
    ⟨by simp [more, letter, wildcard], by decide +kernel, ⟨14, by decide +kernel⟩,
      by decide +kernel⟩
  have compilesFew : ∃ compiled,
      compile (exclusion (negating before fewer behind) 1) true = .ok compiled :=
    exists_of_isOk (by cbv)
  have compilesMany : ∃ compiled,
      compile (exclusion (negating before more behind) 1) true = .ok compiled :=
    exists_of_isOk (by cbv)
  have sameSet := matches_of_more_alternatives few many (by simp [fewer])
    (by simp [fewer, more]) compilesMany
  exact ⟨few, many, sameSet.2 (by simp [fewer, more]) compilesFew⟩

end ShellGlob.Glob
