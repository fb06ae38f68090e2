import ShellGlob.Proofs.Regex.Refusal
import ShellGlob.Proofs.Regex.Settled

/-!
# An expression between the ends of a text

A text may be put between `^` and `$`.  The two assertions become the first item of the
first branch and the last item of the last one (`Anchors`), so of an expression with
branches they hold in one branch each.

If the text is an expression, it still is one between the assertions
(`anchors_of_parse`).  The converse holds of a text that does not start with an operator,
which would apply to the `^`, and does not end within an escape, which would take the `$`
(`anchors_of_parse_enclosed`).
-/

namespace ShellGlob.Regex

/-- The second expression is the first one with `^` as its first item and `$` as its
last. -/
inductive Anchors : Regex → Regex → Prop where
  | items (items : List Regex) : Anchors (ofItems items) (anchored items)
  | branches (first : List Regex) (between : List Regex) (last : List Regex) :
      (ofItems first).isAlternate = false →
      (∀ item ∈ last, item.isAlternate = false) →
      Anchors (ofBranches (ofItems first :: (between ++ [ofItems last])))
        (ofBranches (ofItems (.assertion .start :: first) ::
          (between ++ [ofItems (last ++ [.assertion .stop])])))

section

variable {text : Text} {start stop : Nat}

private theorem spansItems_of_start {items : List Regex}
    (spans : SpansItems text (.assertion .start :: items) start stop) :
    SpansItems text items start stop := by
  obtain ⟨middle, ⟨rfl, _⟩, later⟩ := spans
  exact later

private theorem spansItems_of_stop {items : List Regex}
    (spans : SpansItems text (items ++ [.assertion .stop]) start stop) :
    SpansItems text items start stop := by
  obtain ⟨middle, earlier, atStop⟩ := (spansItems_append _ _).mp spans
  obtain ⟨rfl, _⟩ := (spansItems_singleton _).mp atStop
  exact earlier

/-- The assertions only restrict what is matched. -/
theorem Anchors.spans {regex whole : Regex} (anchors : Anchors regex whole)
    (spans : whole.Spans text start stop) : regex.Spans text start stop := by
  cases anchors with
  | items items =>
      rw [anchored, spans_ofItems] at spans
      rw [spans_ofItems]
      exact spansItems_of_stop (spansItems_of_start spans)
  | branches first between last =>
      rw [spans_ofBranches (by simp)] at spans ⊢
      obtain ⟨branch, member, branchSpans⟩ := spans
      rcases List.mem_cons.mp member with rfl | later
      · rw [spans_ofItems] at branchSpans
        exact ⟨_, List.mem_cons_self, (spans_ofItems _).mpr (spansItems_of_start branchSpans)⟩
      · rcases List.mem_append.mp later with inBetween | isLast
        · exact ⟨branch, by simp [inBetween], branchSpans⟩
        · rw [List.mem_singleton.mp isLast, spans_ofItems] at branchSpans
          exact ⟨_, by simp, (spans_ofItems _).mpr (spansItems_of_stop branchSpans)⟩

end

/-- The second expression has at most one level more, and is an alternation if the first
one is. -/
structure Deepens (regex whole : Regex) : Prop where
  lower : regex.depth ≤ whole.depth
  upper : whole.depth ≤ regex.depth + 1
  isAlternate : regex.isAlternate = whole.isAlternate

theorem depth_ofItems_cons {item : Regex} {items : List Regex} (more : items ≠ []) :
    (ofItems (item :: items)).depth =
      max (item.depth + 1)
        (if (ofItems items).isConcat then (ofItems items).depth
          else (ofItems items).depth + 1) := by
  obtain ⟨next, rest, rfl⟩ := List.exists_cons_of_ne_nil more
  rfl

theorem isConcat_ofItems_append_stop {items : List Regex} (written : items ≠ []) :
    (ofItems (items ++ [.assertion .stop])).isConcat = true := by
  obtain ⟨item, rest, rfl⟩ := List.exists_cons_of_ne_nil written
  cases rest with
  | nil | cons => rfl

theorem depth_ofItems_append_stop (items : List Regex) :
    (ofItems items).depth ≤ (ofItems (items ++ [.assertion .stop])).depth ∧
      (ofItems (items ++ [.assertion .stop])).depth ≤ (ofItems items).depth + 1 := by
  induction items with
  | nil => exact ⟨Nat.le_refl _, Nat.zero_le _⟩
  | cons item rest ih =>
      by_cases more : rest = []
      · subst more
        simp [ofItems, depth, isConcat]
      · rw [List.cons_append, depth_ofItems_cons more, depth_ofItems_cons (by simp),
          if_pos (isConcat_ofItems_append_stop more)]
        cases nested : (ofItems rest).isConcat with
        | true =>
            simp only [if_pos]
            omega
        | false =>
            -- What is no concatenation is a single item, which the assertion makes one of.
            obtain ⟨single, alone⟩ : ∃ single, rest = [single] := by
              cases rest with
              | nil => exact absurd rfl more
              | cons next others =>
                  cases others with
                  | nil => exact ⟨next, rfl⟩
                  | cons => cases nested
            subst alone
            simp [ofItems, depth, isConcat] at nested ⊢

private theorem depth_ofItems_cons_start (items : List Regex) :
    (ofItems items).depth ≤ (ofItems (.assertion .start :: items)).depth ∧
      (ofItems (.assertion .start :: items)).depth ≤ (ofItems items).depth + 1 := by
  by_cases more : items = []
  · subst more
    exact ⟨Nat.le_refl _, Nat.zero_le _⟩
  · rw [depth_ofItems_cons more]
    have assertion : (Regex.assertion .start).depth = 0 := rfl
    cases (ofItems items).isConcat with
    | true =>
        simp only [if_pos, assertion]
        omega
    | false =>
        simp only [assertion, Bool.false_eq_true, if_false]
        omega

theorem depth_anchored (items : List Regex) :
    (ofItems items).depth ≤ (anchored items).depth ∧
      (anchored items).depth ≤ (ofItems items).depth + 1 := by
  by_cases more : items = []
  · subst more
    decide
  · have stopped := depth_ofItems_append_stop items
    have assertion : (Regex.assertion .start).depth = 0 := rfl
    rw [anchored, depth_ofItems_cons (by simp), if_pos (isConcat_ofItems_append_stop more),
      assertion]
    omega

theorem Deepens.alternate {first other rest further : Regex} (lower : first.depth ≤ other.depth)
    (upper : other.depth ≤ first.depth + 1) (later : Deepens rest further) :
    Deepens (.alternate first rest) (.alternate other further) := by
  obtain ⟨laterLower, laterUpper, same⟩ := later
  have levels : ∀ goesOn : Bool,
      max (first.depth + 1) (if goesOn = true then rest.depth else rest.depth + 1) ≤
          max (other.depth + 1) (if goesOn = true then further.depth else further.depth + 1) ∧
        max (other.depth + 1) (if goesOn = true then further.depth else further.depth + 1) ≤
          max (first.depth + 1) (if goesOn = true then rest.depth else rest.depth + 1) + 1 := by
    intro goesOn
    cases goesOn with
    | true =>
        simp only [if_pos]
        omega
    | false =>
        simp only [Bool.false_eq_true, if_false]
        omega
  obtain ⟨least, most⟩ := levels rest.isAlternate
  refine ⟨?_, ?_, rfl⟩
  · rw [depth, depth, ← same]
    exact least
  · rw [depth, depth, ← same]
    exact most

theorem Deepens.ofBranches {last other : Regex} (deepens : Deepens last other)
    (branches : List Regex) :
    Deepens (ofBranches (branches ++ [last])) (ofBranches (branches ++ [other])) := by
  induction branches with
  | nil => exact deepens
  | cons branch rest ih =>
      have unfold : ∀ final, Regex.ofBranches (branch :: rest ++ [final]) =
          .alternate branch (Regex.ofBranches (rest ++ [final])) := by
        intro final
        cases rest with
        | nil | cons => rfl
      rw [unfold, unfold]
      exact ih.alternate (Nat.le_refl _) (Nat.le_succ _)

/-- Between the assertions an expression has at most one level more. -/
theorem Anchors.depth {regex whole : Regex} (anchors : Anchors regex whole) :
    regex.depth ≤ whole.depth ∧ whole.depth ≤ regex.depth + 1 := by
  cases anchors with
  | items items => exact depth_anchored items
  | branches first between last _ single =>
      have stopped := depth_ofItems_append_stop last
      have started := depth_ofItems_cons_start first
      have stop : ∀ item ∈ last ++ [Regex.assertion .stop], item.isAlternate = false := by
        intro item member
        rcases List.mem_append.mp member with inLast | isStop
        · exact single item inLast
        · rw [List.mem_singleton.mp isStop]
          rfl
      have lastDeepens : Deepens (ofItems last) (ofItems (last ++ [.assertion .stop])) :=
        ⟨stopped.1, stopped.2, (isAlternate_ofItems single).trans (isAlternate_ofItems stop).symm⟩
      have later := lastDeepens.ofBranches between
      have unfold : ∀ front final, ofBranches (front :: (between ++ [final])) =
          .alternate front (ofBranches (between ++ [final])) := by
        intro front final
        cases between with
        | nil | cons => rfl
      rw [unfold, unfold]
      have whole := later.alternate started.1 started.2
      exact ⟨whole.lower, whole.upper⟩

/-- The state behind a `^`. -/
def State.begun : State :=
  { position := 1, draft := ({} : Draft).push (.assertion .start) }

theorem parse_enclosed (body : Text) :
    parse ('^' :: (body ++ ['$'])) =
      State.begun.run body >>= fun last => last.run ['$'] >>= State.finish := by
  have opened : State.step {} '^' = .ok State.begun := rfl
  rw [parse, State.run_cons_of_step opened, State.run_append]
  cases State.begun.run body with
  | error error => rfl
  | ok last => rfl

theorem Atop.anchors {draft other : Draft} {otherGroups : List OpenGroup}
    (atop : Atop .begun draft [] other otherGroups)
    (shares : draft.Shares (fun item => item.isAlternate = false)
      fun branch => branch.isAlternate = false) :
    otherGroups = [] ∧ Anchors draft.regex (other.push (.assertion .stop)).regex := by
  cases atop with
  | items items =>
      refine ⟨rfl, ?_⟩
      have enclosed :
          (Draft.push ⟨[], items ++ [Regex.assertion .start]⟩ (.assertion .stop)).regex =
            anchored items.reverse := by
        simp [Draft.regex, Draft.split, Draft.push, ofBranches, anchored]
      rw [Draft.regex_of_branches_eq_nil rfl]
      exact enclosed ▸ Anchors.items items.reverse
  | branches branches first items =>
      refine ⟨rfl, ?_⟩
      have reversed : ∀ item ∈ items.reverse, item.isAlternate = false :=
        fun item member => shares.items item (List.mem_reverse.mp member)
      have anchors := Anchors.branches first branches.reverse items.reverse
        (shares.branches _ (by simp)) reversed
      simpa [Draft.regex, Draft.split, Draft.push, State.begun] using anchors

theorem shares_of_run {text : Text} {last : State} (ran : State.run {} text = .ok last) :
    last.draft.Shares (fun item => item.isAlternate = false)
      fun branch => branch.isAlternate = false :=
  (hereditary_not_alternate.run rfl rfl ⟨Hereditary.shares_empty, by simp⟩ ran).draft

/-- Behind the body nothing is open, so the `$` is an assertion and the last character. -/
theorem parse_enclosed_of_run {body : Text} {last : State}
    (ran : State.begun.run body = .ok last) (nothing : last.pending = .nothing)
    (closed : last.groups = []) :
    parse ('^' :: (body ++ ['$'])) = .ok (last.draft.push (.assertion .stop)).regex := by
  obtain ⟨position, draft, groups, pending⟩ := last
  simp only at nothing closed
  subst nothing closed
  rw [parse_enclosed, ran]
  rfl

/-- An expression remains one between the assertions. -/
theorem anchors_of_parse {body : Text} {regex : Regex} (parsed : parse body = .ok regex) :
    ∃ whole, parse ('^' :: (body ++ ['$'])) = .ok whole ∧ Anchors regex whole := by
  obtain ⟨last, ran, nothing, closed, rfl⟩ := exists_run_of_parse parsed
  have start : State.Alike (Atop .begun) {} .begun := ⟨.items [], rfl⟩
  obtain ⟨after, ranWhole, atop, pending⟩ := (Atop.lockstep .begun).run start ran
  rw [closed] at atop
  obtain ⟨wholeClosed, anchors⟩ := atop.anchors (shares_of_run ran)
  have wholeNothing : after.pending = .nothing := by
    rw [nothing] at pending
    exact State.pending_eq_nothing pending
  exact ⟨_, parse_enclosed_of_run ranWhole wholeNothing wholeClosed, anchors⟩

/-- The first draft and its groups are the second ones on top of a base, and the second
run is past its first item. -/
structure Beneath (base : State) (draft : Draft) (groups : List OpenGroup) (other : Draft)
    (otherGroups : List OpenGroup) : Prop where
  atop : Atop base other otherGroups draft groups
  written : otherGroups = [] → other ≠ {}

namespace Beneath

variable {base : State} {draft other : Draft} {groups otherGroups : List OpenGroup}

theorem of_atop_push (atop : Atop base other otherGroups draft groups) (item : Regex) :
    Beneath base (draft.push item) groups (other.push item) otherGroups :=
  ⟨atop.push item, fun _ => by simp [Draft.push]⟩

private theorem of_atop_split (atop : Atop base other otherGroups draft groups) :
    Beneath base draft.split groups other.split otherGroups :=
  ⟨atop.split, fun _ => by simp [Draft.split]⟩

theorem repeatLast? (beneath : Beneath base draft groups other otherGroups)
    {operator : Repetition} {next : Draft} (applied : draft.repeatLast? operator = some next) :
    ∃ after, other.repeatLast? operator = some after ∧
      Beneath base next groups after otherGroups := by
  obtain ⟨atop, written⟩ := beneath
  obtain ⟨item, rest, items⟩ : ∃ item rest, other.items = item :: rest := by
    apply List.exists_cons_of_ne_nil
    intro empty
    -- Only an operator before the first item would apply to an item of the base.
    cases atop with
    | items items =>
        simp only at empty
        subst empty
        exact written rfl rfl
    | branches branches first items =>
        simp only at empty
        subst empty
        cases operator <;> cases applied
    | inside draft =>
        obtain ⟨branches, items⟩ := draft
        simp only at empty
        subst empty
        cases operator <;> cases applied
  obtain ⟨branches, items⟩ := other
  simp only at items
  subst items
  have appliedOther := Draft.repeatLast?_cons operator branches item rest
  obtain ⟨after, appliedWhole, further⟩ := atop.repeatLast? appliedOther
  cases applied.symm.trans appliedWhole
  exact ⟨_, appliedOther, ⟨further, fun _ => by simp⟩⟩

theorem closes (closed : base.groups = []) {group : OpenGroup} {outer : List OpenGroup}
    (atop : Atop base other otherGroups draft (group :: outer)) :
    ∃ same otherOuter, otherGroups = same :: otherOuter ∧
      (∀ capturing, Atop base other ({ same with capturing } :: otherOuter) draft
        ({ group with capturing } :: outer)) ∧
      Beneath base (group.outside.push (.group group.capturing draft.regex)) outer
        (same.outside.push (.group same.capturing other.regex)) otherOuter := by
  generalize same : group :: outer = groups at atop
  cases atop with
  | items | branches =>
      rw [closed] at same
      cases same
  | inside draft start other capturing atop =>
      cases same
      exact ⟨_, _, rfl, fun capturing => .inside draft start other capturing atop,
        of_atop_push atop _⟩

theorem seam (closed : base.groups = []) :
    Seam (fun draft groups other otherGroups => Atop base other otherGroups draft groups)
      (Beneath base) where
  push item atop := of_atop_push atop item
  split atop := of_atop_split atop
  opens start otherStart atop := ⟨.inside {} otherStart start true atop, by simp⟩
  closes atop := by
    obtain ⟨same, otherOuter, groups, _, beneath⟩ := closes closed atop
    exact ⟨same, otherOuter, groups, beneath⟩

theorem lockstep (closed : base.groups = []) : Lockstep (Beneath base) where
  push item beneath := (seam closed).push item beneath.atop
  split beneath := (seam closed).split beneath.atop
  repeatLast? beneath applied := beneath.repeatLast? applied
  opens start otherStart beneath := (seam closed).opens start otherStart beneath.atop
  innermost beneath := by
    obtain ⟨same, otherOuter, groups, uncaptured, closed⟩ := closes closed beneath.atop
    exact ⟨same, otherOuter, groups, ⟨uncaptured false, by simp⟩, closed⟩

end Beneath

namespace State

/-- A text that goes on behind the base can be read from the start. -/
theorem run_of_start {base last : State} {text : Text} (closed : base.groups = [])
    (nothing : base.pending = .nothing)
    (starts : ∀ c ∈ text.head?, Repetition.ofSymbol? c = none)
    (ran : base.run text = .ok last) :
    ∃ after, run {} text = .ok after ∧
      Atop base after.draft after.groups last.draft last.groups ∧
      last.pending.unplaced = after.pending.unplaced := by
  let start : State := {}
  have atop : Atop base start.draft start.groups base.draft base.groups := .items []
  have startIdle : start.Idle := Or.inl rfl
  cases text with
  | nil =>
      cases ran
      exact ⟨start, rfl, atop, congrArg Pending.unplaced nothing⟩
  | cons c rest =>
      obtain ⟨after, ranAlone, past⟩ := (Beneath.seam closed).run_cons (Beneath.lockstep closed)
        (starts c rfl) (Or.inl nothing) startIdle atop ran
      refine ⟨after, ranAlone, ?_⟩
      rcases past with ⟨beneath, pending⟩ | ⟨⟨atop, pending⟩, _⟩
      · exact ⟨beneath.atop, pending⟩
      · exact ⟨atop, pending⟩

/-- Where an expression ends with a `$`, nothing is open before it, unless an escape is. -/
theorem closed_of_stop {last : State} {regex : Regex} (fresh : last.Fresh) (settled : last.Settled)
    (whole : (last.run ['$'] >>= finish) = .ok regex) :
    last.pending = .nothing ∧ last.groups = [] ∧
      regex = (last.draft.push (.assertion .stop)).regex := by
  obtain ⟨next, ran, finished⟩ := bind_eq_ok whole
  obtain ⟨_, taken, same⟩ := run_cons_eq_ok.mp ran
  cases same
  obtain ⟨position, draft, groups, pending⟩ := last
  cases pending with
  | nothing =>
      cases taken
      cases groups with
      | nil =>
          cases finished
          exact ⟨rfl, rfl, rfl⟩
      | cons innermost outer => cases finished
  | parenthesis =>
      obtain ⟨_, _, _, _, opened⟩ := fresh
      simp only at opened
      subst opened
      cases taken
      cases finished
  | question =>
      obtain ⟨_, _, _, _, opened⟩ := fresh
      simp only at opened
      subst opened
      cases taken
  | escape escape => exact settled.elim
  | brackets classes =>
      have stays := (follows_step settled taken).staysInClass rfl (by decide)
      obtain ⟨nextPosition, nextDraft, nextGroups, nextPending⟩ := next
      cases nextPending with
      | brackets further => cases finished
      | _ => cases stays

end State

/-- What is an expression between the assertions closes on its own what it opens. -/
theorem exists_closes_of_parse_enclosed {body : Text} {whole : Regex}
    (starts : ∀ c ∈ body.head?, Repetition.ofSymbol? c = none)
    (settled : ∀ last, State.begun.run body = .ok last → last.Settled)
    (parsed : parse ('^' :: (body ++ ['$'])) = .ok whole) :
    ∃ alone draft, State.Closes body alone ∧ parse body = .ok alone.draft.regex ∧
      Atop .begun alone.draft [] draft [] ∧
      whole = (draft.push (.assertion .stop)).regex := by
  rw [parse_enclosed] at parsed
  obtain ⟨last, ran, finished⟩ := bind_eq_ok parsed
  obtain ⟨fresh, -⟩ := State.fresh_and_source_of_run (by trivial) ran
  obtain ⟨nothing, closed, same⟩ := State.closed_of_stop fresh (settled last ran) finished
  obtain ⟨alone, ranAlone, atop, pending⟩ := State.run_of_start rfl rfl starts ran
  have aloneNothing : alone.pending = .nothing := by
    rw [nothing] at pending
    exact State.pending_eq_nothing pending
  rw [closed] at atop
  generalize last.draft = draft at atop same
  obtain ⟨position, aloneDraft, groups, alonePending⟩ := alone
  simp only at aloneNothing atop
  subst aloneNothing
  have aloneClosed : groups = [] := by
    cases atop with
    | items | branches => rfl
  subst aloneClosed
  refine ⟨_, draft, ⟨ranAlone, Or.inl rfl, rfl⟩, ?_, atop, same⟩
  rw [parse, ranAlone]
  rfl

/-- An expression between the assertions is one without them. -/
theorem anchors_of_parse_enclosed {body : Text} {whole : Regex}
    (starts : ∀ c ∈ body.head?, Repetition.ofSymbol? c = none)
    (settled : ∀ last, State.begun.run body = .ok last → last.Settled)
    (parsed : parse ('^' :: (body ++ ['$'])) = .ok whole) :
    ∃ regex, parse body = .ok regex ∧ Anchors regex whole := by
  obtain ⟨alone, draft, closes, parsedAlone, atop, rfl⟩ :=
    exists_closes_of_parse_enclosed starts settled parsed
  exact ⟨alone.draft.regex, parsedAlone, (atop.anchors (shares_of_run closes.ran)).2⟩

end ShellGlob.Regex
