import ShellGlob.Proofs.Glob.Enclosed
import ShellGlob.Proofs.Glob.Escapes

/-!
# Parentheses and groups

The end of a negation is found by counting parentheses: each one that is not escaped
counts, be it within a class or not (`splitAtClosing`).  Reading knows of extended groups
only: a `(` without a mark is an ordinary character, and a parenthesis within a class is
a member, while outside of classes any `)` closes the innermost group.

So a text may be read in a group and yet not close the groups that it opens
(`balances`), although its parentheses are balanced.  Unless parentheses stand in classes
this happens exactly if a `(` opens no group (`balances_iff_of_splitAtClosing`).  Which
groups and braces are open around the text does not matter (`Under.balances_eq`).
-/

namespace ShellGlob.Glob

/-- Whether the tokens close the `opened` innermost groups and all that they open
themselves, and no other. -/
def balances : (opened : Nat) → List Token → Bool
  | opened, [] => opened = 0
  | opened, .groupOpen _ :: rest => balances (opened + 1) rest
  | opened, .groupClose _ :: rest => opened ≠ 0 && balances (opened - 1) rest
  | opened, _ :: rest => balances opened rest

/-- The groups of `base` stay open all along the tokens, and behind them no other is. -/
def KeepsOpen (base : List Multiplicity) (context : Context) (within : List Token) : Prop :=
  (∀ front, front <+: within → base <:+ (context.afterAll front).groups) ∧
    (context.afterAll within).groups = base

/-- The groups that are open behind a token. -/
def Token.groupsAfter (groups : List Multiplicity) : Token → List Multiplicity
  | .groupOpen multiplicity => multiplicity :: groups
  | .groupClose _ => groups.tail
  | _ => groups

theorem Context.groups_after (context : Context) (token : Token) :
    (context.after token).groups = token.groupsAfter context.groups := by
  cases token with
  | escape inClass | backslash inClass =>
      cases inClass with
      | false | true => rfl
  | _ => rfl

private theorem keepsOpen_cons {base : List Multiplicity} {context : Context} {token : Token}
    {rest : List Token} (isOpen : base <:+ context.groups) :
    KeepsOpen base context (token :: rest) ↔ KeepsOpen base (context.after token) rest := by
  apply and_congr_left
  intro _
  constructor
  · intro stays front isPrefix
    exact stays (token :: front) (List.cons_prefix_cons.mpr ⟨rfl, isPrefix⟩)
  · intro stays front isPrefix
    rcases List.prefix_cons_iff.mp isPrefix with rfl | ⟨behind, rfl, isLater⟩
    · exact isOpen
    · exact stays behind isLater

theorem keepsOpen_iff {base opened : List Multiplicity} {context : Context}
    (nonempty : base ≠ []) (groups : context.groups = opened ++ base) (within : List Token) :
    KeepsOpen base context within ↔ balances opened.length within = true := by
  induction within generalizing context opened with
  | nil => simp [KeepsOpen, balances, groups]
  | cons token rest ih =>
      have isOpen : base <:+ context.groups := ⟨opened, groups.symm⟩
      have after := context.groups_after token
      rw [groups] at after
      cases token with
      | groupOpen multiplicity =>
          rw [keepsOpen_cons isOpen]
          exact @ih (multiplicity :: opened) _ after
      | groupClose multiplicity =>
          cases opened with
          | nil =>
              refine iff_of_false ?_ (by simp [balances])
              intro keeps
              have still := keeps.1 [.groupClose multiplicity] (by simp)
              rw [Context.afterAll_cons, Context.afterAll_nil, after] at still
              have shorter := still.length_le
              have positive := List.length_pos_iff.mpr nonempty
              simp [Token.groupsAfter] at shorter
              omega
          | cons innermost outer =>
              rw [keepsOpen_cons isOpen]
              exact (@ih outer _ after).trans (by simp [balances])
      | _ =>
          rw [keepsOpen_cons isOpen]
          exact ih after

/-- A token closes the last group that may be closed, or changes the number of open
groups alike for all that count them. -/
theorem balances_cons (opened : Nat) (token : Token) :
    (∀ rest, balances opened (token :: rest) = false) ∨
      ∃ further, (∀ rest, balances opened (token :: rest) = balances further rest) ∧
        ∀ groups : List Multiplicity, groups.length = opened + 1 →
          (token.groupsAfter groups).length = further + 1 ∧
          ∀ outer, token.groupsAfter (groups ++ outer) = token.groupsAfter groups ++ outer := by
  cases token with
  | groupOpen multiplicity =>
      refine Or.inr ⟨opened + 1, fun rest => rfl, fun groups count => ⟨?_, fun outer => rfl⟩⟩
      simp [Token.groupsAfter, count]
  | groupClose multiplicity =>
      cases opened with
      | zero => exact Or.inl fun rest => rfl
      | succ opened =>
          refine Or.inr ⟨opened, fun rest => rfl, fun groups count => ⟨?_, fun outer => ?_⟩⟩
          · simp [Token.groupsAfter, count]
          · have nonempty : groups ≠ [] := List.ne_nil_of_length_eq_add_one count
            exact List.tail_append_of_ne_nil nonempty
  | _ => exact Or.inr ⟨opened, fun rest => rfl, fun groups count => ⟨count, fun outer => rfl⟩⟩

/-- The same token, or a `}` or `,` once read within braces and once outside of them. -/
inductive Token.Alike : Token → Token → Prop where
  | same (token : Token) : Alike token token
  | braceClose : Alike .braceClose (.literal '}')
  | unopened : Alike (.literal '}') .braceClose
  | comma : Alike .comma (.literal ',')
  | undivided : Alike (.literal ',') .comma

private theorem Token.Alike.lookahead_eq {token other : Token} (alike : token.Alike other) :
    token.lookahead = other.lookahead := by
  cases alike with
  | same | braceClose | unopened | comma | undivided => rfl

private theorem Token.Alike.groupsAfter_eq {token other : Token} (alike : token.Alike other)
    (groups : List Multiplicity) : token.groupsAfter groups = other.groupsAfter groups := by
  cases alike with
  | same | braceClose | unopened | comma | undivided => rfl

private theorem Token.Alike.balances_eq {token other : Token} (alike : token.Alike other)
    (opened : Nat)
    (rest : List Token) : balances opened (token :: rest) = balances opened (other :: rest) := by
  cases alike with
  | same | braceClose | unopened | comma | undivided => rfl

/-- The same class and groups are open in both contexts, and beneath the groups of the
first one those of `outer` are open in the second. -/
structure Under (outer : List Multiplicity) (alone within : Context) : Prop where
  classPart : within.classPart = alone.classPart
  groups : within.groups = alone.groups ++ outer

namespace Under

variable {outer : List Multiplicity} {alone within : Context}

private theorem readPlain_alike (under : Under outer alone within) (nonempty : alone.groups ≠ [])
    (c : Char) (rest : Text) :
    (Token.readPlain within c rest).Alike (Token.readPlain alone c rest) := by
  obtain ⟨innermost, others, groups⟩ := List.exists_cons_of_ne_nil nonempty
  have groupsWithin : within.groups = innermost :: (others ++ outer) := by
    rw [under.groups, groups, List.cons_append]
  unfold Token.readPlain
  rw [groups, groupsWithin]
  split
  · next same =>
      cases same
      exact .same _
  · exact .same _
  · exact .same _
  · exact .same _
  · exact .same _
  · exact .same _
  · split
    · split
      · exact .same _
      · exact .unopened
    · split
      · exact .braceClose
      · exact .same _
  · split
    · split
      · exact .same _
      · exact .undivided
    · split
      · exact .comma
      · exact .same _
  · next notClosing notBar =>
      split
      all_goals first
        | exact .same _
        | simp_all

private theorem read_alike (under : Under outer alone within) (nonempty : alone.groups ≠ [])
    (c : Char) (rest : Text) : (within.read c rest).Alike (alone.read c rest) := by
  by_cases escape : c = '\\'
  · have same : within.read c rest = alone.read c rest := by
      simp [Context.read, escape, Context.inClass, under.classPart]
    rw [same]
    exact .same _
  cases location : alone.classPart with
  | some part =>
      have locationWithin := under.classPart.trans location
      rw [Context.read_member location escape, Context.read_member locationWithin escape]
      exact .same _
  | none =>
      have locationWithin := under.classPart.trans location
      cases opened : Multiplicity.opening? c rest with
      | some multiplicity =>
          rw [Context.read_opening escape location opened,
            Context.read_opening escape locationWithin opened]
          exact .same _
      | none =>
          rw [Context.read_plain escape location opened,
            Context.read_plain escape locationWithin opened]
          exact under.readPlain_alike nonempty c rest

private theorem classPart_after (under : Under outer alone within) {token other : Token}
    (alike : token.Alike other) :
    (within.after token).classPart = (alone.after other).classPart := by
  cases alike with
  | same token =>
      cases token with
      | escape inClass | backslash inClass =>
          cases inClass with
          | false => exact under.classPart
          | true => rfl
      | classOpen | classClose | complement | member => rfl
      | _ => exact under.classPart
  | braceClose | unopened | comma | undivided => exact under.classPart

/-- What is read behind a token, if the token leaves the innermost common group open. -/
theorem after (under : Under outer alone within) {token other : Token}
    (alike : token.Alike other)
    (keeps : other.groupsAfter (alone.groups ++ outer) = other.groupsAfter alone.groups ++ outer) :
    Under outer (alone.after other) (within.after token) := by
  refine ⟨under.classPart_after alike, ?_⟩
  rw [Context.groups_after, Context.groups_after, alike.groupsAfter_eq, under.groups, keeps]

/-- A text closes its own groups or does not, whatever else is open around it. -/
theorem balances_eq (under : Under outer alone within) {opened : Nat}
    (groups : alone.groups.length = opened + 1) (text : Text) :
    balances opened (tokens within text) = balances opened (tokens alone text) ∧
      (balances opened (tokens alone text) = true →
        Under outer (alone.afterAll (tokens alone text))
          (within.afterAll (tokens within text))) := by
  induction alone, text using tokens.induct generalizing within opened with
  | case1 alone => simp [tokens_nil, under]
  | case2 alone c rest token =>
      rename_i ih
      have nonempty : alone.groups ≠ [] := List.ne_nil_of_length_eq_add_one groups
      have alike := under.read_alike nonempty c rest
      rw [tokens_cons, tokens_cons, alike.lookahead_eq, alike.balances_eq]
      rcases balances_cons opened (alone.read c rest) with closed | ⟨further, goesOn, keeps⟩
      · rw [closed, closed]
        simp
      · obtain ⟨groupsAfter, keepsOuter⟩ := keeps alone.groups groups
        rw [goesOn, goesOn]
        rw [← Context.groups_after] at groupsAfter
        exact ih (under.after alike (keepsOuter outer)) groupsAfter

end Under

theorem Enclosed.of_forall {text : Text} (plain : ∀ c ∈ text, c ∉ ['\\', '(', ')']) :
    Enclosed text := by
  induction text with
  | nil => exact .nil
  | cons c text ih =>
      rw [List.forall_mem_cons] at plain
      exact .plain plain.1 (ih plain.2)

/-- What a token is to a count of the parentheses. -/
inductive Counts : Token → Prop where
  | opening (multiplicity : Multiplicity) : Counts (.groupOpen multiplicity)
  | closing (multiplicity : Multiplicity) : Counts (.groupClose multiplicity)
  | stray : Counts (.literal '(')
  | plain {token : Token} :
      Enclosed token.source → (∀ opened rest, balances opened (token :: rest) =
        balances opened rest) → (∀ groups, token.groupsAfter groups = groups) →
      token ≠ .literal '(' → Counts token

/-- No parenthesis is a member of a class. -/
def ParenthesesApart (read : List Token) : Prop :=
  ∀ guarded, .member guarded '(' ∉ read ∧ .member guarded ')' ∉ read

private theorem ParenthesesApart.of_cons {token : Token} {rest : List Token}
    (apart : ParenthesesApart (token :: rest)) :
    ParenthesesApart [token] ∧ ParenthesesApart rest := by
  constructor
  · intro guarded
    have both := apart guarded
    simp only [List.mem_cons, not_or] at both
    simp [both]
  · intro guarded
    have both := apart guarded
    simp only [List.mem_cons, not_or] at both
    exact ⟨both.1.2, both.2.2⟩

section

variable {context : Context} {c : Char} {rest : Text}

private theorem Context.read_ne_literal_closing (nonempty : context.groups ≠ []) :
    context.read c rest ≠ .literal ')' := by
  intro literal
  have written := context.source_read_append c rest
  rw [literal] at written
  obtain ⟨rfl, -⟩ := List.cons.inj written
  cases location : context.classPart with
  | some part =>
      rw [Context.read_member location (by decide)] at literal
      simp [Token.readMember] at literal
  | none =>
      obtain ⟨innermost, outer, groups⟩ := List.exists_cons_of_ne_nil nonempty
      rw [Context.read_plain_of_not_mark (by decide) location rfl] at literal
      simp [Token.readPlain, groups] at literal

theorem Context.counts_read (nonempty : context.groups ≠ [])
    (paired : ∀ inClass, context.read c rest ≠ .backslash inClass)
    (apart : ParenthesesApart [context.read c rest]) : Counts (context.read c rest) := by
  by_cases escape : c = '\\'
  · cases rest with
    | nil =>
        have read : context.read c [] = .backslash context.inClass := by
          simp [Context.read, escape, Token.readEscape]
        exact absurd read (paired _)
    | cons escaped rest =>
        have read : context.read c (escaped :: rest) = .escape context.inClass escaped := by
          simp [Context.read, escape, Token.readEscape]
        rw [read]
        exact .plain (.escape escaped .nil) (fun _ _ => rfl) (fun _ => rfl) (by simp)
  have noEscape : '\\' ∉ (context.read c rest).source :=
    Context.escape_not_mem_source_read escape
  cases read : context.read c rest with
  | groupOpen multiplicity => exact .opening multiplicity
  | groupClose multiplicity => exact .closing multiplicity
  | literal listed =>
      rw [read] at noEscape
      have notEscape : listed ≠ '\\' := by simpa [Token.source, eq_comm] using noEscape
      by_cases stray : listed = '('
      · rw [stray]
        exact .stray
      have notClosing : listed ≠ ')' := by
        rintro rfl
        exact Context.read_ne_literal_closing nonempty read
      refine .plain ?_ (fun _ _ => rfl) (fun _ => rfl) (by simpa using stray)
      exact .plain (by simp [notEscape, stray, notClosing]) .nil
  | member guarded listed =>
      rw [read] at noEscape apart
      have notEscape : listed ≠ '\\' := by simpa [Token.source, eq_comm] using noEscape
      have notParenthesis := apart guarded
      simp only [List.mem_singleton, Token.member.injEq, true_and] at notParenthesis
      refine .plain ?_ (fun _ _ => rfl) (fun _ => rfl) (by simp)
      exact .plain (by simp [notEscape, Ne.symm notParenthesis.1, Ne.symm notParenthesis.2]) .nil
  | escape inClass escaped | backslash inClass =>
      rw [read] at noEscape
      simp [Token.source] at noEscape
  | tree slash =>
      cases slash with
      | false | true =>
          exact .plain (.of_forall (by simp [Token.source])) (fun _ _ => rfl) (fun _ => rfl)
            (by simp)
  | _ =>
      exact .plain (.of_forall (by simp [Token.source])) (fun _ _ => rfl) (fun _ => rfl) (by simp)

end

section

variable {depth : Nat} {text behind : Text}

theorem eq_of_map_append {front : Text} {found : Option (Text × Text)}
    (same : found.map (Prod.map (front ++ ·) id) = some (front ++ text, behind)) :
    found = some (text, behind) := by
  obtain ⟨⟨inner, rest⟩, rfl, parts⟩ := Option.map_eq_some_iff.mp same
  simp only [Prod.map, id, Prod.mk.injEq, List.append_cancel_left_eq] at parts
  rw [parts.1, parts.2]

private theorem splitAtClosing_of_cons {c : Char} (notEscape : c ≠ '\\')
    (split : splitAtClosing depth (c :: (text ++ ')' :: behind)) = some (c :: text, behind)) :
    ¬ (c = ')' ∧ depth ≤ 1) ∧
      splitAtClosing (depthAfter depth c) (text ++ ')' :: behind) = some (text, behind) := by
  have stays : ¬ (c = ')' ∧ depth ≤ 1) := by
    intro closes
    rw [splitAtClosing.eq_def] at split
    simp [closes] at split
  rw [splitAtClosing_cons notEscape stays] at split
  have split : (splitAtClosing (depthAfter depth c) (text ++ ')' :: behind)).map
      (Prod.map ([c] ++ ·) id) = some ([c] ++ text, behind) := split
  exact ⟨stays, eq_of_map_append split⟩

private theorem splitAtClosing_of_enclosed {front : Text} (enclosed : Enclosed front)
    (inside : 1 ≤ depth)
    (split : splitAtClosing depth (front ++ (text ++ ')' :: behind)) =
      some (front ++ text, behind)) :
    splitAtClosing depth (text ++ ')' :: behind) = some (text, behind) := by
  rw [splitAtClosing_enclosed enclosed inside] at split
  exact eq_of_map_append split

end

/-- What a token does to both counts.  It closes more than it may although a parenthesis
is left open, it is a `(` that opens no group, or the two go on alike. -/
theorem Counts.step {token : Token} (counts : Counts token) {depth opened : Nat}
    {groups : List Multiplicity} {text behind : Text}
    (split : splitAtClosing depth (token.source ++ (text ++ ')' :: behind)) =
      some (token.source ++ text, behind))
    (count : groups.length = opened + 1) (deep : opened + 1 ≤ depth) :
    ((∀ rest, balances opened (token :: rest) = false) ∧ depth ≠ opened + 1) ∨
      ∃ further later,
        splitAtClosing later (text ++ ')' :: behind) = some (text, behind) ∧
        (∀ rest, balances opened (token :: rest) = balances further rest) ∧
        (token.groupsAfter groups).length = further + 1 ∧ further + 1 ≤ later ∧
        (later = further + 1 ↔ depth = opened + 1 ∧ token ≠ .literal '(') := by
  cases counts with
  | opening multiplicity =>
      have mark : multiplicity.mark ≠ '\\' ∧ multiplicity.mark ≠ '(' ∧
          multiplicity.mark ≠ ')' := by
        cases multiplicity with
        | zeroOrOne | zeroOrMore | oneOrMore | exactlyOne => decide
      have sameDepth : depthAfter depth multiplicity.mark = depth := by
        simp [depthAfter, mark]
      have splitMark : splitAtClosing depth
          (multiplicity.mark :: ('(' :: text ++ ')' :: behind)) =
            some (multiplicity.mark :: '(' :: text, behind) := split
      obtain ⟨-, splitParen⟩ := splitAtClosing_of_cons mark.1 splitMark
      rw [sameDepth] at splitParen
      obtain ⟨-, splitLater⟩ := splitAtClosing_of_cons (by decide) splitParen
      refine Or.inr ⟨opened + 1, depth + 1, splitLater, fun _ => rfl, ?_, by omega, ?_⟩
      · simp [Token.groupsAfter, count]
      · simp
  | closing multiplicity =>
      obtain ⟨stays, splitLater⟩ := splitAtClosing_of_cons (by decide) split
      have inside : ¬ depth ≤ 1 := fun outermost => stays ⟨rfl, outermost⟩
      have shallower : depthAfter depth ')' = depth - 1 := by simp [depthAfter]
      rw [shallower] at splitLater
      cases opened with
      | zero => exact Or.inl ⟨fun _ => rfl, by omega⟩
      | succ opened =>
          refine Or.inr ⟨opened, depth - 1, splitLater, fun _ => rfl, ?_, by omega, ?_⟩
          · simp [Token.groupsAfter, count]
          · simp only [ne_eq, reduceCtorEq, not_false_eq_true, and_true]
            omega
  | stray =>
      obtain ⟨-, splitLater⟩ := splitAtClosing_of_cons (by decide) split
      refine Or.inr ⟨opened, depth + 1, splitLater, fun _ => rfl, count, by omega, ?_⟩
      simp only [ne_eq, not_true_eq_false, and_false, iff_false]
      omega
  | plain enclosed balancesAlike keeps notStray =>
      have splitLater := splitAtClosing_of_enclosed enclosed (by omega) split
      refine Or.inr ⟨opened, depth, splitLater, balancesAlike opened, ?_, deep, ?_⟩
      · rw [keeps, count]
      · simp [notStray]

/-- Where no parenthesis stands in a class, a text whose parentheses are balanced closes
its groups exactly if each `(` opens one. -/
theorem balances_iff_of_splitAtClosing {context : Context} {text behind : Text}
    {depth opened : Nat}
    (split : splitAtClosing depth (text ++ ')' :: behind) = some (text, behind))
    (paired : escapesPaired text = true) (count : context.groups.length = opened + 1)
    (deep : opened + 1 ≤ depth) (apart : ParenthesesApart (tokens context text)) :
    balances opened (tokens context text) = true ↔
      depth = opened + 1 ∧ .literal '(' ∉ tokens context text := by
  -- Both counts are kept from token to token, and the one of the parentheses is never less.
  induction context, text using tokens.induct generalizing depth opened with
  | case1 context =>
      have outermost : depth ≤ 1 := by
        refine Decidable.byContradiction fun inside => ?_
        rw [List.nil_append, splitAtClosing_cons (by decide) (by simp [inside])] at split
        obtain ⟨_, _, parts⟩ := Option.map_eq_some_iff.mp split
        cases parts
      simp only [tokens_nil, balances, decide_eq_true_eq, List.not_mem_nil, not_false_eq_true,
        and_true]
      omega
  | case2 context c rest token =>
      rename_i ih
      obtain ⟨notBackslash, laterPaired⟩ := context.read_of_escapesPaired paired
      rw [tokens_cons] at apart ⊢
      obtain ⟨tokenApart, laterApart⟩ := apart.of_cons
      have nonempty : context.groups ≠ [] := List.ne_nil_of_length_eq_add_one count
      have counts := Context.counts_read nonempty notBackslash tokenApart
      rw [← context.source_read_append c rest, List.append_assoc] at split
      rcases counts.step split count deep with
        ⟨closed, unbalanced⟩ | ⟨further, later, splitLater, goesOn, countLater, deepLater, same⟩
      · simp [closed, unbalanced]
      · rw [← Context.groups_after] at countLater
        rw [goesOn, ih splitLater laterPaired countLater deepLater laterApart, same,
          List.mem_cons, not_or, and_assoc, ne_comm]

end ShellGlob.Glob
