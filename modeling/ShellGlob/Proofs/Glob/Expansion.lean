import Mathlib
import ShellGlob.Proofs.Glob.Parentheses
import ShellGlob.Proofs.Matcher

/-!
# Expanded negations

In the exclusion of a negation, its inner text stands between `@(` and `)`.  It was found
by counting parentheses, and now it is read.  It is meant to be read as a group: the `@(`
opens one, which stays open all through the inner text and is closed by the `)` right
behind it (`ReadsAsGroup`).

This is so exactly if the negation is outside of classes and its inner text, read in a
group, closes what it opens and no more (`exclusion_readsAsGroup_iff`).  In particular no
`(` of the inner text may be an ordinary character, so neither may there be a negation in
it: the group would be closed too early, and the `)` behind the inner text be read as an
ordinary character or close another group.
-/

namespace ShellGlob.Glob

/-- What is open in an expanded negation that stands in nothing else. -/
def Context.lone : Context :=
  { groups := [.exactlyOne] }

/-- The text closes the classes and groups that it opens, and not the group that it is
read in. -/
def ClosesOwn (inner : Text) : Prop :=
  (Context.lone.afterAll (tokens .lone inner)).inClass = false ∧
    balances 0 (tokens .lone inner) = true

instance ClosesOwn.decidable (inner : Text) : Decidable (ClosesOwn inner) :=
  inferInstanceAs (Decidable (_ ∧ _))

theorem escapesPaired_of_splitAtClosing {depth : Nat} {text inner behind : Text}
    (split : splitAtClosing depth text = some (inner, behind)) : escapesPaired inner = true := by
  fun_induction splitAtClosing depth text generalizing inner behind with
  | case1 => cases split
  | case2 => cases split
  | case3 depth escaped rest ih =>
      obtain ⟨⟨before, after⟩, found, same⟩ := Option.map_eq_some_iff.mp split
      cases same
      simpa [escapesPaired] using ih found
  | case4 depth c rest notEscape closes =>
      cases split
      rfl
  | case5 depth c rest notEscape staysOpen ih =>
      obtain ⟨⟨before, after⟩, found, same⟩ := Option.map_eq_some_iff.mp split
      cases same
      exact (escapesPaired_cons notEscape before).trans (ih found)

theorem splitAtClosing_of_splitNegation? {text inner behind : Text}
    (split : splitNegation? text = some (inner, behind)) :
    splitAtClosing 1 (inner ++ ')' :: behind) = some (inner, behind) := by
  unfold splitNegation? at split
  split at split
  · rw [← eq_append_of_splitAtClosing split]
    exact split
  · cases split

/-- What the first piece of a text can be. -/
theorem cut_cases (c : Char) (rest : Text) :
    (∃ inner behind, splitNegation? (c :: rest) = some (inner, behind) ∧
        cut c rest = (.negation inner, behind)) ∨
      (∃ escaped behind, c = '\\' ∧ rest = escaped :: behind ∧
        cut c rest = (.text ['\\', escaped], behind)) ∨
      (c ≠ '\\' ∧ cut c rest = (.text [c], rest)) ∨
      (rest = [] ∧ cut c rest = (.text [c], [])) := by
  unfold cut
  split
  · next found => exact Or.inl ⟨_, _, found, rfl⟩
  · next _ escaped behind _ =>
      by_cases escape : c = '\\'
      · exact Or.inr (Or.inl ⟨escaped, behind, escape, rfl, by rw [if_pos escape, escape]⟩)
      · exact Or.inr (Or.inr (Or.inl ⟨escape, if_neg escape⟩))
  · exact Or.inr (Or.inr (Or.inr ⟨rfl, rfl⟩))

/-- The inner text of a negation ends where its parentheses are balanced. -/
theorem exists_splitAtClosing_of_mem_pieces {glob inner : Text}
    (member : .negation inner ∈ pieces glob) :
    ∃ behind, splitAtClosing 1 (inner ++ ')' :: behind) = some (inner, behind) := by
  fun_induction pieces glob with
  | case1 => cases member
  | case2 c rest ih =>
      rcases List.mem_cons.mp member with isFirst | later
      · rcases cut_cases c rest with
          ⟨_, behind, found, taken⟩ | ⟨_, _, _, _, taken⟩ | ⟨_, taken⟩ | ⟨_, taken⟩
        · rw [taken] at isFirst
          cases isFirst
          exact ⟨behind, splitAtClosing_of_splitNegation? found⟩
        all_goals
          rw [taken] at isFirst
          cases isFirst
      · exact ih later

private theorem closesOwn_iff_of_parenthesesApart {inner behind : Text}
    (split : splitAtClosing 1 (inner ++ ')' :: behind) = some (inner, behind))
    (apart : ParenthesesApart (tokens .lone inner)) :
    ClosesOwn inner ↔ (Context.lone.afterAll (tokens .lone inner)).inClass = false ∧
      .literal '(' ∉ tokens .lone inner := by
  have paired := escapesPaired_of_splitAtClosing split
  have balanced := balances_iff_of_splitAtClosing split paired rfl (Nat.le_refl 1) apart
  rw [ClosesOwn, balanced]
  simp

/-- The `@(` opens a group, which stays open all through the inner text and is closed by
the `)` behind it. -/
def ReadsAsGroup (before inner after : Text) : Prop :=
  let here := ({} : Context).afterAll (tokens {} before)
  let opened := here.after (.groupOpen .exactlyOne)
  ∃ within later,
    tokens {} (before ++ '@' :: '(' :: (inner ++ ')' :: after)) =
      tokens {} before ++ .groupOpen .exactlyOne :: (within ++ .groupClose .exactlyOne :: later) ∧
    within.flatMap Token.source = inner ∧
    KeepsOpen opened.groups opened within

theorem Token.source_ne_nil (token : Token) : token.source ≠ [] := by
  cases token with
  | tree slash =>
      cases slash with
      | false | true => exact List.cons_ne_nil _ _
  | _ => exact List.cons_ne_nil _ _

private theorem eq_nil_of_flatMap_source {read : List Token}
    (none : read.flatMap Token.source = []) :
    read = [] := by
  cases read with
  | nil => rfl
  | cons token rest =>
      rw [List.flatMap_cons, List.append_eq_nil_iff] at none
      exact absurd none.1 token.source_ne_nil

/-- Where the same has been read from the front of a list of tokens, the tokens are the
same. -/
theorem eq_of_flatMap_source {within read later behind : List Token}
    (whole : within ++ later = read ++ behind)
    (source : within.flatMap Token.source = read.flatMap Token.source) : within = read := by
  rcases List.append_eq_append_iff.mp whole with ⟨more, rfl, _⟩ | ⟨more, rfl, _⟩
  · rw [List.flatMap_append, List.self_eq_append_right] at source
    rw [eq_nil_of_flatMap_source source, List.append_nil]
  · rw [List.flatMap_append, List.append_right_eq_self] at source
    rw [eq_nil_of_flatMap_source source, List.append_nil]

section

variable {context : Context} {rest : Text}

/-- Within a class the characters of an expansion are members. -/
theorem tokens_ordinary_inClass (inside : context.inClass = true) {c : Char}
    (ordinary : c ∉ ['\\', ']', '!', '[', '&', '~', '-']) :
    ∃ behind, tokens context (c :: rest) = .member false c :: behind := by
  obtain ⟨part, location⟩ := Option.isSome_iff_exists.mp inside
  simp only [List.mem_cons, List.not_mem_nil, or_false, not_or] at ordinary
  rw [tokens_cons, Context.read_member location ordinary.1]
  simp [Token.readMember, ordinary]

theorem tokens_group (outside : context.classPart = none) :
    tokens context ('@' :: '(' :: rest) =
      .groupOpen .exactlyOne :: tokens (context.after (.groupOpen .exactlyOne)) rest := by
  have opened : Multiplicity.opening? '@' ('(' :: rest) = some .exactlyOne := rfl
  rw [tokens_cons, Context.read_opening (by decide) outside opened]
  rfl

theorem tokens_closing (outside : context.classPart = none) {innermost : Multiplicity}
    {outer : List Multiplicity} (groups : context.groups = innermost :: outer) :
    ∃ behind, tokens context (')' :: rest) = .groupClose innermost :: behind := by
  rw [tokens_cons, Context.read_plain_of_not_mark (by decide) outside rfl]
  simp only [Token.readPlain, groups]
  exact ⟨_, rfl⟩

end

private theorem not_readsAsGroup_of_inClass {before : Text} (paired : escapesPaired before = true)
    (inClass : (({} : Context).afterAll (tokens {} before)).inClass = true) (inner after : Text) :
    ¬ ReadsAsGroup before inner after := by
  rintro ⟨within, later, read, -⟩
  obtain ⟨rest, member⟩ : ∃ rest, tokens (({} : Context).afterAll (tokens {} before))
      ('@' :: '(' :: (inner ++ ')' :: after)) = .member false '@' :: rest :=
    tokens_ordinary_inClass inClass (by decide)
  rw [tokens_append_of_escapesPaired paired (by decide), member,
    List.append_cancel_left_eq] at read
  cases read

/-- Outside of classes the `@(` opens a group, in which the inner text is read. -/
theorem tokens_expansion {before inner : Text} (pairedBefore : escapesPaired before = true)
    (pairedInner : escapesPaired inner = true)
    (outside : (({} : Context).afterAll (tokens {} before)).classPart = none) (after : Text) :
    let opened := (({} : Context).afterAll (tokens {} before)).after (.groupOpen .exactlyOne)
    tokens {} (before ++ '@' :: '(' :: (inner ++ ')' :: after)) =
      tokens {} before ++ .groupOpen .exactlyOne :: (tokens opened inner ++
        tokens (opened.afterAll (tokens opened inner)) (')' :: after)) := by
  intro opened
  rw [tokens_append_of_escapesPaired pairedBefore (by decide), tokens_group outside,
    tokens_append_of_escapesPaired pairedInner (by decide)]

theorem readsAsGroup_iff {before inner : Text} (pairedBefore : escapesPaired before = true)
    (pairedInner : escapesPaired inner = true) (after : Text) :
    ReadsAsGroup before inner after ↔
      (({} : Context).afterAll (tokens {} before)).inClass = false ∧ ClosesOwn inner := by
  let here := ({} : Context).afterAll (tokens {} before)
  let opened := here.after (.groupOpen .exactlyOne)
  let behind := opened.afterAll (tokens opened inner)
  by_cases inClass : here.inClass = true
  · refine iff_of_false (not_readsAsGroup_of_inClass pairedBefore inClass inner after) ?_
    rintro ⟨outside, -⟩
    cases inClass.symm.trans outside
  have outside : here.classPart = none := by simpa [Context.inClass] using inClass
  have whole := tokens_expansion pairedBefore pairedInner outside after
  have under : Under here.groups .lone opened := ⟨outside, rfl⟩
  have single : Context.lone.groups.length = 0 + 1 := rfl
  obtain ⟨balancesAlike, stillUnder⟩ := under.balances_eq single inner
  have keeps : KeepsOpen opened.groups opened (tokens opened inner) ↔
      balances 0 (tokens .lone inner) = true := by
    have base : opened.groups = [] ++ opened.groups := rfl
    rw [← balancesAlike]
    exact keepsOpen_iff (List.cons_ne_nil _ _) base _
  constructor
  · rintro ⟨within, later, read, source, keepsOpen⟩
    rw [whole, List.append_cancel_left_eq, List.cons.injEq] at read
    have same : within = tokens opened inner := by
      apply eq_of_flatMap_source read.2.symm
      rw [source, flatMap_source_tokens]
    subst same
    have closing : tokens behind (')' :: after) = .groupClose .exactlyOne :: later :=
      List.append_cancel_left read.2
    have balanced := keeps.mp keepsOpen
    refine ⟨Bool.not_eq_true _ ▸ inClass, ?_, balanced⟩
    rw [Context.inClass, ← (stillUnder balanced).classPart]
    refine Bool.eq_false_iff.mpr fun stillInside => ?_
    obtain ⟨rest, member⟩ : ∃ rest, tokens behind (')' :: after) = .member false ')' :: rest :=
      tokens_ordinary_inClass stillInside (by decide)
    cases closing.symm.trans member
  · rintro ⟨-, closed, balanced⟩
    have keepsOpen := keeps.mpr balanced
    have outsideToo : behind.classPart = none := by
      have location := (stillUnder balanced).classPart
      simpa [Context.inClass, ← location] using closed
    obtain ⟨later, closing⟩ : ∃ later, tokens behind (')' :: after) =
        .groupClose .exactlyOne :: later := tokens_closing outsideToo keepsOpen.2
    refine ⟨tokens opened inner, later, ?_, flatMap_source_tokens _ _, keepsOpen⟩
    rw [whole, closing]

/-- A backslash escapes its character before a negation can start. -/
theorem escapesPaired_resolveFrom {glob inner : Text} {front behind : List Piece}
    (cutUp : pieces glob = front ++ .negation inner :: behind) (index : Nat) :
    escapesPaired (resolveFrom none index front) = true := by
  fun_induction pieces glob generalizing front index with
  | case1 => simp at cutUp
  | case2 c rest ih =>
      cases front with
      | nil => rfl
      | cons piece front =>
          obtain ⟨isFirst, later⟩ := List.cons.inj cutUp
          subst isFirst
          have paired := fun index => ih later index
          rcases cut_cases c rest with
            ⟨_, _, _, taken⟩ | ⟨escaped, _, _, _, taken⟩ | ⟨notEscape, taken⟩ | ⟨_, taken⟩
          · rw [taken]
            exact (escapesPaired_cons (by decide) _).trans (paired (index + 1))
          · rw [taken]
            simpa [resolveFrom, escapesPaired] using paired index
          · rw [taken]
            exact (escapesPaired_cons notEscape _).trans (paired index)
          · rw [taken] at later
            simp [pieces] at later

theorem exists_split_of_lt {cutUp : List Piece} {offset index : Nat}
    (bound : index < (negationsFrom offset cutUp).length) :
    ∃ front inner behind, cutUp = front ++ .negation inner :: behind ∧
      (negationsFrom 0 front).length = index ∧
      (negationsFrom offset cutUp)[index]?.map Negation.inner = some inner := by
  induction cutUp generalizing offset index with
  | nil => simp [negationsFrom] at bound
  | cons piece rest ih =>
      cases piece with
      | text content =>
          obtain ⟨front, inner, behind, rfl, count, found⟩ := ih bound
          have same : (negationsFrom 0 (.text content :: front)).length =
              (negationsFrom 0 front).length := length_negationsFrom_eq _ 0 front
          exact ⟨.text content :: front, inner, behind, rfl, same.trans count, found⟩
      | negation inner =>
          cases index with
          | zero => exact ⟨[], inner, rest, rfl, rfl, rfl⟩
          | succ index =>
              have boundLater : index < (negationsFrom
                  (offset + Text.utf8Length (Piece.negation inner).source) rest).length :=
                Nat.lt_of_succ_lt_succ bound
              obtain ⟨front, innerLater, behind, rfl, count, found⟩ := ih boundLater
              refine ⟨.negation inner :: front, innerLater, behind, rfl, ?_, found⟩
              rw [← count]
              exact congrArg (· + 1) (length_negationsFrom_eq _ _ _)

theorem exclusion_eq {glob inner : Text} {front behind : List Piece}
    (cutUp : pieces glob = front ++ .negation inner :: behind) :
    exclusion glob (negationsFrom 0 front).length =
      resolveFrom none 0 front ++ '@' :: '(' :: (inner ++ ')' :: resolveFrom none 0 behind) := by
  let index := (negationsFrom 0 front).length
  have notBefore : ∀ number, 0 ≤ number → number < 0 + (negationsFrom 0 front).length →
      some index ≠ some number := by
    rintro number - bound ⟨⟩
    omega
  have notBehind : ∀ number, index + 1 ≤ number →
      number < index + 1 + (negationsFrom 0 behind).length → some index ≠ some number := by
    rintro number least - ⟨⟩
    omega
  have starsBefore := resolveFrom_of_elsewhere notBefore 0
  have starsBehind := resolveFrom_of_elsewhere notBehind 0
  have split := resolveFrom_append (some index) 0 0 front (.negation inner :: behind)
  rw [Nat.zero_add, resolveFrom] at split
  rw [exclusion, variant, cutUp]
  refine split.trans ?_
  rw [starsBefore, starsBehind]
  simp [replacement, index]

/-- For each negation of a glob: where its exclusion reads it as a group. -/
theorem exclusion_readsAsGroup_iff {glob : Text} {index : Nat}
    (bound : index < (negations glob).length) :
    ∃ front inner behind, pieces glob = front ++ .negation inner :: behind ∧
      (negationsFrom 0 front).length = index ∧
      (negations glob)[index]?.map Negation.inner = some inner ∧
      let before := resolveFrom none 0 front
      let after := resolveFrom none 0 behind
      exclusion glob index = before ++ '@' :: '(' :: (inner ++ ')' :: after) ∧
      (ReadsAsGroup before inner after ↔
        (({} : Context).afterAll (tokens {} before)).inClass = false ∧ ClosesOwn inner) ∧
      (ParenthesesApart (tokens .lone inner) →
        (ClosesOwn inner ↔ (Context.lone.afterAll (tokens .lone inner)).inClass = false ∧
          .literal '(' ∉ tokens .lone inner)) := by
  obtain ⟨front, inner, behind, cutUp, rfl, found⟩ := exists_split_of_lt bound
  have member : .negation inner ∈ pieces glob := by simp [cutUp]
  obtain ⟨rest, split⟩ := exists_splitAtClosing_of_mem_pieces member
  refine ⟨front, inner, behind, cutUp, rfl, found, exclusion_eq cutUp, ?_, ?_⟩
  · exact readsAsGroup_iff (escapesPaired_resolveFrom cutUp 0)
      (escapesPaired_of_splitAtClosing split) _
  · exact closesOwn_iff_of_parenthesesApart split

theorem exclusion_readsAsGroup_iff_nestedGroup :
    let glob := "!(+(a|b)c|\\(d).!(e)".toList
    0 < (negations glob).length ∧
      exclusion glob 0 = "@(+(a|b)c|\\(d).*".toList ∧
      ∃ after, ReadsAsGroup [] "+(a|b)c|\\(d".toList after := by
  intro glob
  have bound : 0 < (negations glob).length := by decide +kernel
  refine ⟨bound, by decide +kernel, ?_⟩
  obtain ⟨front, inner, behind, cutUp, first, found, _, reads, _⟩ :=
    exclusion_readsAsGroup_iff bound
  have sameInner : inner = "+(a|b)c|\\(d".toList := by
    have expected : (negations glob)[0]?.map Negation.inner = some "+(a|b)c|\\(d".toList := by
      decide +kernel
    exact Option.some.inj (found.symm.trans expected)
  have atStart : front = [] := by
    cases front with
    | nil => rfl
    | cons piece front =>
        have starts : (pieces glob).head? = some (.negation "+(a|b)c|\\(d".toList) := by
          decide +kernel
        rw [cutUp] at starts
        cases starts
        cases first
  subst atStart sameInner
  exact ⟨_, reads.mpr ⟨by decide +kernel, by decide +kernel⟩⟩

/-- The `(` within the negation opens no group, so the `)` behind it closes the group of the
negation, and the exclusion misses what the negation forbids. -/
theorem not_readsAsGroup_of_ordinaryParenthesis :
    let glob := "!(a(b)c)".toList
    pieces glob = [.negation "a(b)c".toList] ∧ exclusion glob 0 = "@(a(b)c)".toList ∧
      ¬ ReadsAsGroup [] "a(b)c".toList [] ∧
      (Matcher.ofGlob glob true).map (·.isMatch "a(b)c".toList) = .ok true := by
  intro glob
  have matched : (Matcher.ofGlob "!(a(b)c)".toList true).map (·.isMatch "a(b)c".toList) =
      .ok true := by cbv
  refine ⟨by decide +kernel, by decide +kernel, ?_, matched⟩
  rw [readsAsGroup_iff rfl (by decide +kernel)]
  decide +kernel

end ShellGlob.Glob
