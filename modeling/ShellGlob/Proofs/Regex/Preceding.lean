import ShellGlob.Proofs.Regex.Enclosing
import ShellGlob.Proofs.Regex.Surroundings

/-!
# Items before an anchored expression

Text that is written between the `^` and an expression belongs to the first branch of the
whole, and every other branch stays as it is (`Preceded`).  So where that text matches what
is put before a candidate, the whole matches both together: by the first branch from the
start on, and by any other one from where the candidate starts
(`CompiledRegex.isMatch_of_preceded`).

Both expressions are read on top of one run of what they have in common, since neither
run can be followed by the other: an operator would apply to different items.
-/

namespace ShellGlob.Regex

/-- The second expression is the first one between the assertions, and the third one has
items behind its `^` as well.  Of the first branch only the expression is known that its
items make, which may be that of other items too. -/
inductive Preceded (front : List Regex) : Regex → Regex → Regex → Prop where
  | items (items : List Regex) :
      Preceded front (ofItems items) (anchored items) (anchored (front ++ items))
  | branches {first other : List Regex} (between : List Regex) (last : List Regex) :
      ofItems first = ofItems other →
      Preceded front (ofBranches (ofItems first :: (between ++ [ofItems last])))
        (ofBranches (ofItems (.assertion .start :: first) ::
          (between ++ [ofItems (last ++ [.assertion .stop])])))
        (ofBranches (ofItems (.assertion .start :: (front ++ other)) ::
          (between ++ [ofItems (last ++ [.assertion .stop])])))

theorem Atop.preceded {base : State} {front : List Regex} {draft whole further : Draft}
    (baseDraft : base.draft = ⟨[], front.reverse ++ [.assertion .start]⟩)
    {groups : List OpenGroup} (atopStart : Atop .begun draft [] whole [])
    (atop : Atop base draft [] further groups) :
    Preceded front draft.regex (whole.push (.assertion .stop)).regex
      (further.push (.assertion .stop)).regex := by
  have enclosed : ∀ items : List Regex,
      (Draft.push ⟨[], items ++ [.assertion .start]⟩ (.assertion .stop)).regex =
        anchored items.reverse := by
    intro items
    simp [Draft.regex, Draft.split, Draft.push, ofBranches, anchored]
  cases atopStart with
  | items items =>
      generalize alone : (⟨[], items⟩ : Draft) = draft at atop
      cases atop with
      | items =>
          obtain rfl := (Draft.mk.inj alone).2
          have behind : items ++ base.draft.items =
              (items ++ front.reverse) ++ [.assertion .start] := by
            rw [baseDraft, List.append_assoc]
          have reversed : (items ++ front.reverse).reverse = front ++ items.reverse := by simp
          rw [Draft.regex_of_branches_eq_nil rfl, behind, baseDraft, enclosed, reversed]
          exact enclosed items ▸ Preceded.items items.reverse
      | branches => simp at alone
  | branches branches first items =>
      generalize alone : (⟨branches ++ [ofItems first], items⟩ : Draft) = draft at atop
      cases atop with
      | items => simp at alone
      | branches others other =>
          obtain ⟨sameBranches, rfl⟩ := Draft.mk.inj alone
          obtain ⟨rfl, sameFirst⟩ := List.append_inj' sameBranches rfl
          have preceded : Preceded front _ _ _ :=
            .branches branches.reverse items.reverse (List.singleton_inj.mp sameFirst)
          rw [List.singleton_inj.mp sameFirst] at preceded
          simpa [Draft.regex, Draft.split, Draft.push, State.begun, baseDraft] using preceded

private theorem finish_of_stop {state : State} (idle : state.Idle) (closed : state.groups = []) :
    (state.run ['$'] >>= State.finish) = .ok (state.draft.push (.assertion .stop)).regex := by
  have taken := State.step_of_idle idle (c := '$') (by decide) rfl
  rw [State.run_cons_of_step taken]
  obtain ⟨position, draft, groups, pending⟩ := state
  simp only at closed
  subst closed
  rfl

/-- What can be read between the assertions can be read there behind items too. -/
theorem exists_preceded_of_parse {frontText body : Text} {front : List Regex} {whole : Regex}
    (reads : Reads frontText front)
    (starts : ∀ c ∈ body.head?, Repetition.ofSymbol? c = none)
    (settled : ∀ last, State.begun.run body = .ok last → last.Settled)
    (parsed : parse ('^' :: (body ++ ['$'])) = .ok whole) :
    ∃ regex further, parse body = .ok regex ∧
      parse ('^' :: ((frontText ++ body) ++ ['$'])) = .ok further ∧
      Preceded front regex whole further := by
  obtain ⟨alone, draft, closes, parsedAlone, atopStart, rfl⟩ :=
    exists_closes_of_parse_enclosed starts settled parsed
  obtain ⟨base, ranFront, idle, baseDraft, baseGroups⟩ := reads .begun (Or.inl rfl)
  obtain ⟨last, ranBody, lastIdle, atop⟩ := closes.atop idle
  have lastClosed : last.groups = [] := by
    generalize last.groups = groups, last.draft = lastDraft, alone.draft = aloneDraft at atop
    cases atop with
    | items | branches => exact baseGroups
  refine ⟨_, _, parsedAlone, ?_, atopStart.preceded baseDraft atop⟩
  rw [parse_enclosed, State.run_append_of_run ranFront, ranBody]
  exact finish_of_stop lastIdle lastClosed

section

variable {before text : Text} {front : List Regex} {regex whole further : Regex}
  {start stop : Nat}

theorem spans_behind (quiet : before.getLast?.any Unicode.isWordCharacter = false)
    (endFree : regex.EndFree) (inside : start ≤ text.length)
    (spans : regex.Spans text start stop) :
    regex.Spans (before ++ text) (before.length + start) (before.length + stop) := by
  have surrounded : regex.Spans (before ++ (text ++ [])) _ _ :=
    spans_surrounded quiet rfl endFree inside spans
  rwa [List.append_nil] at surrounded

/-- The first branch goes on where the items before it stop. -/
theorem spans_started {first other : List Regex} (same : ofItems first = ofItems other)
    (quiet : before.getLast?.any Unicode.isWordCharacter = false)
    (endFree : (ofItems first).EndFree)
    (frontSpans : SpansItems (before ++ text) front 0 before.length)
    (inside : start ≤ text.length)
    (spans : (ofItems (.assertion .start :: first)).Spans text start stop) :
    (ofItems (.assertion .start :: (front ++ other))).Spans (before ++ text) 0
      (before.length + stop) := by
  have atFront : Assertion.start.holds (.ofPosition (before ++ text) 0) :=
    (holds_start_iff (Nat.zero_le _)).mpr rfl
  rw [spans_ofItems] at spans
  obtain ⟨_, ⟨rfl, atStart⟩, firstSpans⟩ := spans
  obtain rfl := (holds_start_iff inside).mp atStart
  have shifted := spans_behind quiet endFree inside ((spans_ofItems _).mpr firstSpans)
  rw [same, spans_ofItems] at shifted
  exact (spans_ofItems _).mpr
    ⟨0, ⟨rfl, atFront⟩, (spansItems_append _ _).mpr ⟨_, frontSpans, shifted⟩⟩

/-- The last branch still ends where the text ends. -/
theorem spans_stopped {last : List Regex}
    (quiet : before.getLast?.any Unicode.isWordCharacter = false)
    (endFree : (ofItems last).EndFree) (inside : start ≤ text.length)
    (spans : (ofItems (last ++ [.assertion .stop])).Spans text start stop) :
    (ofItems (last ++ [.assertion .stop])).Spans (before ++ text) (before.length + start)
      (before.length + stop) := by
  rw [spans_ofItems] at spans
  obtain ⟨_, lastSpans, atStop⟩ := (spansItems_append _ _).mp spans
  obtain ⟨rfl, holds⟩ := (spansItems_singleton _).mp atStop
  have within := stop_le_of_spansItems lastSpans inside
  obtain rfl := (holds_stop_iff within).mp holds
  have shifted := spans_behind quiet endFree inside ((spans_ofItems _).mpr lastSpans)
  rw [spans_ofItems, ← List.length_append] at shifted
  have ended : Assertion.stop.holds (.ofPosition (before ++ text) (before ++ text).length) :=
    (holds_stop_iff (Nat.le_refl _)).mpr rfl
  rw [← List.length_append]
  exact (spans_ofItems _).mpr ((spansItems_append _ _).mpr
    ⟨_, shifted, (spansItems_singleton _).mpr ⟨rfl, ended⟩⟩)

theorem Preceded.exists_spans (preceded : Preceded front regex whole further)
    (endFree : regex.EndFree) (quiet : before.getLast?.any Unicode.isWordCharacter = false)
    (frontSpans : SpansItems (before ++ text) front 0 before.length)
    (inside : start ≤ text.length) (spans : whole.Spans text start stop) :
    ∃ first ≤ (before ++ text).length, ∃ last, further.Spans (before ++ text) first last := by
  have wholeLength : before.length + start ≤ (before ++ text).length := by
    rw [List.length_append]
    exact Nat.add_le_add_left inside _
  cases preceded with
  | items items =>
      obtain ⟨rfl, rfl, itemsSpan⟩ := (spans_anchored inside).mp spans
      have shifted := spans_behind quiet endFree (Nat.zero_le _) ((spans_ofItems _).mpr itemsSpan)
      rw [spans_ofItems, ← List.length_append] at shifted
      refine ⟨0, Nat.zero_le _, _, (spans_anchored (Nat.zero_le _)).mpr ⟨rfl, rfl, ?_⟩⟩
      exact (spansItems_append _ _).mpr ⟨_, frontSpans, shifted⟩
  | @branches first other between last same =>
      have parts := asserts_ofBranches_iff.mp endFree
      rw [spans_ofBranches (by simp)] at spans
      obtain ⟨branch, member, branchSpans⟩ := spans
      rcases List.mem_cons.mp member with rfl | later
      · have shifted := spans_started same quiet (parts _ List.mem_cons_self) frontSpans inside
          branchSpans
        exact ⟨0, Nat.zero_le _, _, (spans_ofBranches (by simp)).mpr
          ⟨_, List.mem_cons_self, shifted⟩⟩
      rcases List.mem_append.mp later with inBetween | isLast
      · have among : branch ∈ ofItems first :: (between ++ [ofItems last]) :=
          List.mem_cons_of_mem _ (List.mem_append_left _ inBetween)
        have shifted := spans_behind quiet (parts branch among) inside branchSpans
        exact ⟨_, wholeLength, _, (spans_ofBranches (by simp)).mpr
          ⟨branch, List.mem_cons_of_mem _ (List.mem_append_left _ inBetween), shifted⟩⟩
      · rw [List.mem_singleton.mp isLast] at branchSpans
        have shifted := spans_stopped quiet (parts (ofItems last) (by simp)) inside branchSpans
        exact ⟨_, wholeLength, _, (spans_ofBranches (by simp)).mpr
          ⟨_, List.mem_cons_of_mem _ (List.mem_append_right _ (List.mem_singleton_self _)),
            shifted⟩⟩

end

/-- With items before it an anchored expression matches behind what the items match. -/
theorem CompiledRegex.isMatch_of_preceded {whole further : CompiledRegex} {regex : Regex}
    {front : List Regex} {before text : Text}
    (preceded : Preceded front regex whole.regex further.regex) (endFree : regex.EndFree)
    (quiet : before.getLast?.any Unicode.isWordCharacter = false)
    (frontSpans : SpansItems (before ++ text) front 0 before.length)
    (matched : whole.isMatch text = true) : further.isMatch (before ++ text) = true := by
  rw [CompiledRegex.isMatch_iff] at matched ⊢
  obtain ⟨start, inside, stop, spans⟩ := matched
  exact preceded.exists_spans endFree quiet frontSpans inside spans

end ShellGlob.Regex
