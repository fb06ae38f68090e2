import Mathlib.Data.List.Induction
import ShellGlob.Proofs.Glob.Classes

/-!
# Braces and groups within each other

A glob counts its braces and has its extended groups on a stack, so a `}` or a `)` closes the
last one of its own kind, whatever has been opened since (`Pair`).  `nestFrom` has both kinds
on one stack.  It goes on as long as nothing is closed but what was opened last, and then what
stands between the two ends of a pair is nested on its own (`Pair.nested`).
-/

namespace ShellGlob.Glob

/-- The parts of a glob that are opened and closed, classes apart. -/
inductive Bracket where
  | braces
  | group
  deriving DecidableEq

def Token.opens? : Token → Option Bracket
  | .braceOpen => some .braces
  | .groupOpen _ => some .group
  | _ => none

def Token.closes? : Token → Option Bracket
  | .braceClose => some .braces
  | .groupClose _ => some .group
  | _ => none

/-- How many brackets of a kind are open. -/
def Context.opened (context : Context) : Bracket → Nat
  | .braces => context.braces
  | .group => context.groups.length

/-- The brackets that are open behind a token, innermost first, unless it closes another one
than the innermost. -/
def Token.nest (stack : List Bracket) (token : Token) : Option (List Bracket) :=
  match token.opens?, token.closes? with
  | some bracket, _ => some (bracket :: stack)
  | none, some bracket => if stack.head? = some bracket then some stack.tail else none
  | none, none => some stack

/-- The brackets that are open behind the tokens, if each of them closes the innermost one or
none. -/
def nestFrom (stack : List Bracket) (tokens : List Token) : Option (List Bracket) :=
  tokens.foldlM Token.nest stack

section

variable {token : Token} {stack next base : List Bracket} {bracket : Bracket} {context : Context}

theorem Token.opens?_of_closes (closes : token.closes? = some bracket) : token.opens? = none := by
  cases token with
  | braceClose | groupClose => rfl
  | _ => cases closes

theorem Token.nest_of_opens (opens : token.opens? = some bracket) :
    token.nest stack = some (bracket :: stack) := by
  rw [nest, opens]

theorem Token.nest_of_closes (closes : token.closes? = some bracket) :
    token.nest stack = if stack.head? = some bracket then some stack.tail else none := by
  rw [nest, opens?_of_closes closes, closes]

/-- Where a token nests, it opens a bracket, closes the innermost one, or does neither. -/
theorem Token.nest_cases (nests : token.nest stack = some next) :
    (∃ bracket, token.opens? = some bracket ∧ next = bracket :: stack) ∨
      (∃ bracket, token.closes? = some bracket ∧ stack = bracket :: next) ∨
      (token.opens? = none ∧ token.closes? = none ∧ next = stack) := by
  cases opens : token.opens? with
  | some bracket =>
      rw [nest_of_opens opens] at nests
      cases nests
      exact Or.inl ⟨bracket, rfl, rfl⟩
  | none =>
      cases closes : token.closes? with
      | none =>
          rw [nest, opens, closes] at nests
          cases nests
          exact Or.inr (Or.inr ⟨rfl, rfl, rfl⟩)
      | some bracket =>
          rw [nest_of_closes closes] at nests
          cases stack with
          | nil => cases nests
          | cons innermost outer =>
              split at nests
              · next same =>
                  cases same
                  cases nests
                  exact Or.inr (Or.inl ⟨_, rfl, rfl⟩)
              · cases nests

/-- The stack has all brackets that are open in the context. -/
def Tallies (stack : List Bracket) (context : Context) : Prop :=
  ∀ bracket, context.opened bracket = stack.count bracket

theorem tallies_start : Tallies [] {} := by
  intro bracket
  cases bracket with
  | braces | group => rfl

theorem Tallies.depth (tallies : Tallies stack context) : context.depth = stack.length := by
  have total : stack.count .braces + stack.count .group = stack.length := by
    clear tallies
    induction stack with
    | nil => rfl
    | cons bracket stack ih =>
        cases bracket with
        | braces | group =>
            simp
            omega
  have braces := tallies .braces
  have groups := tallies .group
  simp only [Context.opened] at braces groups
  rw [Context.depth, braces, groups, total]

private theorem Context.opened_of_opens (opens : token.opens? = some bracket) (other : Bracket) :
    (context.after token).opened other =
      context.opened other + if other = bracket then 1 else 0 := by
  cases token with
  | braceOpen | groupOpen =>
      cases opens
      cases other with
      | braces | group => rfl
  | _ => cases opens

private theorem Context.opened_of_closes (closes : token.closes? = some bracket) (other : Bracket) :
    (context.after token).opened other =
      context.opened other - if other = bracket then 1 else 0 := by
  cases token with
  | braceClose | groupClose =>
      cases closes
      cases other with
      | braces | group => simp [after, opened]
  | _ => cases closes

private theorem Context.opened_of_neither (notOpening : token.opens? = none)
    (notClosing : token.closes? = none) (other : Bracket) :
    (context.after token).opened other = context.opened other := by
  cases token with
  | braceOpen | groupOpen => cases notOpening
  | braceClose | groupClose => cases notClosing
  | escape inClass | backslash inClass =>
      cases inClass with
      | true | false => rfl
  | _ => rfl

theorem Tallies.after (tallies : Tallies stack context) (nests : token.nest stack = some next) :
    Tallies next (context.after token) := by
  intro other
  rcases Token.nest_cases nests with
    ⟨bracket, opens, rfl⟩ | ⟨bracket, closes, rfl⟩ | ⟨notOpening, notClosing, rfl⟩
  · rw [Context.opened_of_opens opens, tallies, List.count_cons]
    simp only [beq_iff_eq, @eq_comm _ bracket]
  · rw [Context.opened_of_closes closes, tallies, List.count_cons]
    simp only [beq_iff_eq, @eq_comm _ bracket, Nat.add_sub_cancel]
  · rw [Context.opened_of_neither notOpening notClosing, tallies]

private theorem Token.closes_of_nest_eq_none (refused : token.nest stack = none) :
    ∃ bracket, token.closes? = some bracket ∧ stack.head? ≠ some bracket := by
  cases opens : token.opens? with
  | some bracket =>
      rw [nest_of_opens opens] at refused
      cases refused
  | none =>
      cases closes : token.closes? with
      | none =>
          rw [nest, opens, closes] at refused
          cases refused
      | some bracket =>
          rw [nest_of_closes closes] at refused
          split at refused
          · cases refused
          · next different => exact ⟨bracket, rfl, different⟩

/-- What lies below the stack changes nothing. -/
theorem Token.nest_append (nests : token.nest stack = some next) :
    token.nest (stack ++ base) = some (next ++ base) := by
  rcases nest_cases nests with
    ⟨bracket, opens, rfl⟩ | ⟨bracket, closes, rfl⟩ | ⟨notOpening, notClosing, rfl⟩
  · rw [nest_of_opens opens]
    rfl
  · rw [nest_of_closes closes]
    simp
  · rw [nest, notOpening, notClosing]

end

section

variable {tokens front inner : List Token} {token : Token} {stack next base : List Bracket}
  {bracket : Bracket} {context : Context}

theorem nestFrom_cons (stack : List Bracket) (token : Token) (tokens : List Token) :
    nestFrom stack (token :: tokens) = (token.nest stack).bind (nestFrom · tokens) :=
  List.foldlM_cons

theorem nestFrom_append (stack : List Bracket) (front rest : List Token) :
    nestFrom stack (front ++ rest) = (nestFrom stack front).bind (nestFrom · rest) :=
  List.foldlM_append

theorem nestFrom_append_eq_some {rest : List Token} :
    nestFrom stack (front ++ rest) = some next ↔
      ∃ middle, nestFrom stack front = some middle ∧ nestFrom middle rest = some next := by
  rw [nestFrom_append, Option.bind_eq_some_iff]

theorem nestFrom_cons_eq_some :
    nestFrom stack (token :: tokens) = some next ↔
      ∃ middle, token.nest stack = some middle ∧ nestFrom middle tokens = some next := by
  rw [nestFrom_cons, Option.bind_eq_some_iff]

theorem nestFrom_below (nests : nestFrom stack tokens = some next) :
    nestFrom (stack ++ base) tokens = some (next ++ base) := by
  induction tokens generalizing stack with
  | nil =>
      cases nests
      rfl
  | cons token tokens ih =>
      obtain ⟨middle, first, rest⟩ := nestFrom_cons_eq_some.mp nests
      exact nestFrom_cons_eq_some.mpr ⟨_, Token.nest_append first, ih rest⟩

theorem Tallies.afterAll (tallies : Tallies stack context)
    (nests : nestFrom stack tokens = some next) : Tallies next (context.afterAll tokens) := by
  induction tokens generalizing stack context with
  | nil =>
      cases nests
      exact tallies
  | cons token tokens ih =>
      obtain ⟨middle, first, rest⟩ := nestFrom_cons_eq_some.mp nests
      exact ih (tallies.after first) rest

/-- Where tokens do not nest, there is a first one that closes another bracket than the
innermost. -/
theorem exists_refused (crosses : nestFrom stack tokens = none) :
    ∃ before closing rest inBetween, tokens = before ++ closing :: rest ∧
      nestFrom stack before = some inBetween ∧ closing.nest inBetween = none := by
  induction tokens generalizing stack with
  | nil => cases crosses
  | cons token tokens ih =>
      rw [nestFrom_cons] at crosses
      cases first : token.nest stack with
      | none => exact ⟨[], token, tokens, stack, rfl, rfl, first⟩
      | some middle =>
          rw [first] at crosses
          obtain ⟨before, closing, rest, inBetween, rfl, nests, refused⟩ := ih crosses
          exact ⟨token :: before, closing, rest, inBetween, rfl,
            nestFrom_cons_eq_some.mpr ⟨middle, first, nests⟩, refused⟩

/-- The tokens close only what they open, or they come to close what lies below. -/
theorem nestFrom_or_closes (nests : nestFrom (stack ++ base) tokens = some next) :
    (∃ own, nestFrom stack tokens = some own ∧ next = own ++ base) ∨
      ∃ part token innermost outer, part ++ [token] <+: tokens ∧ nestFrom stack part = some [] ∧
        token.closes? = some innermost ∧ base = innermost :: outer := by
  induction tokens generalizing stack with
  | nil =>
      cases nests
      exact Or.inl ⟨stack, rfl, rfl⟩
  | cons token tokens ih =>
      obtain ⟨middle, first, rest⟩ := nestFrom_cons_eq_some.mp nests
      have goesOn : ∀ own, token.nest stack = some own → middle = own ++ base →
          (∃ last, nestFrom stack (token :: tokens) = some last ∧ next = last ++ base) ∨
            ∃ part closing innermost outer, part ++ [closing] <+: token :: tokens ∧
              nestFrom stack part = some [] ∧ closing.closes? = some innermost ∧
              base = innermost :: outer := by
        rintro own firstOwn rfl
        rcases ih rest with ⟨last, restOwn, rfl⟩ | ⟨part, closing, innermost, outer, isPrefix,
          partOwn, closes, below⟩
        · exact Or.inl ⟨last, nestFrom_cons_eq_some.mpr ⟨own, firstOwn, restOwn⟩, rfl⟩
        · exact Or.inr ⟨token :: part, closing, innermost, outer,
            List.cons_prefix_cons.mpr ⟨rfl, isPrefix⟩,
            nestFrom_cons_eq_some.mpr ⟨own, firstOwn, partOwn⟩, closes, below⟩
      rcases Token.nest_cases first with
        ⟨bracket, opens, rfl⟩ | ⟨bracket, closes, whole⟩ | ⟨notOpening, notClosing, rfl⟩
      · exact goesOn (bracket :: stack) (Token.nest_of_opens opens) rfl
      · cases stack with
        | nil =>
            exact Or.inr ⟨[], token, bracket, middle, by simp, rfl, closes, whole⟩
        | cons innermost outer =>
            obtain ⟨rfl, below⟩ := List.cons.inj whole
            refine goesOn outer ?_ below.symm
            rw [Token.nest_of_closes closes]
            simp
      · refine goesOn stack ?_ rfl
        rw [Token.nest, notOpening, notClosing]

/-- A bracket that is open has been opened, and nothing below it was closed since. -/
theorem exists_opening {own : List Bracket}
    (nests : nestFrom [] tokens = some (own ++ bracket :: base)) :
    ∃ front opening inner, tokens = front ++ opening :: inner ∧ opening.opens? = some bracket ∧
      nestFrom [] front = some base ∧ nestFrom [] inner = some own := by
  induction tokens using List.reverseRecOn generalizing own with
  | nil => simp [nestFrom] at nests
  | append_singleton tokens token ih =>
      obtain ⟨middle, before, last⟩ := nestFrom_append_eq_some.mp nests
      obtain ⟨stack, last, same⟩ := nestFrom_cons_eq_some.mp last
      cases same
      -- Unless the last token opens the bracket, it is part of what stands behind it.
      have goesOn : ∀ middleOwn, middle = middleOwn ++ bracket :: base →
          token.nest middleOwn = some own →
          ∃ front opening inner, tokens ++ [token] = front ++ opening :: inner ∧
            opening.opens? = some bracket ∧ nestFrom [] front = some base ∧
            nestFrom [] inner = some own := by
        rintro middleOwn rfl lastOwn
        obtain ⟨front, opening, inner, rfl, opens, frontNests, innerNests⟩ := ih before
        refine ⟨front, opening, inner ++ [token], by simp, opens, frontNests, ?_⟩
        exact nestFrom_append_eq_some.mpr
          ⟨_, innerNests, nestFrom_cons_eq_some.mpr ⟨_, lastOwn, rfl⟩⟩
      rcases Token.nest_cases last with
        ⟨other, opens, whole⟩ | ⟨other, closes, rfl⟩ | ⟨notOpening, notClosing, rfl⟩
      · cases own with
        | nil =>
            obtain ⟨rfl, rfl⟩ := List.cons.inj whole
            exact ⟨tokens, token, [], rfl, opens, before, rfl⟩
        | cons innermost own =>
            obtain ⟨rfl, rfl⟩ := List.cons.inj whole
            exact goesOn own rfl (Token.nest_of_opens opens)
      · refine goesOn (other :: own) rfl ?_
        rw [Token.nest_of_closes closes]
        simp
      · refine goesOn own rfl ?_
        rw [Token.nest, notOpening, notClosing]

end

section

variable {context : Context} {bracket : Bracket} {c : Char}

/-- Brackets are opened and closed outside of classes. -/
theorem Context.outside_of_bracket {rest : Text}
    (isBracket : (context.read c rest).opens? = some bracket ∨
      (context.read c rest).closes? = some bracket) : context.classPart = none := by
  cases location : context.classPart with
  | none => rfl
  | some part =>
      by_cases escape : c = '\\'
      · rw [Context.read, if_pos escape] at isBracket
        cases rest with
        | nil | cons => simp [Token.readEscape, Token.opens?, Token.closes?] at isBracket
      · rw [Context.read_member location escape] at isBracket
        unfold Token.readMember at isBracket
        split_ifs at isBracket
        all_goals simp [Token.opens?, Token.closes?] at isBracket

theorem Context.groups_of_read {rest : Text} {multiplicity : Multiplicity}
    (closes : context.read c rest = .groupClose multiplicity) :
    ∃ outer, context.groups = multiplicity :: outer := by
  have outside : context.classPart = none :=
    context.outside_of_bracket (Or.inr (by rw [closes]; rfl))
  have written := context.source_read_append c rest
  rw [closes] at written
  cases written
  rw [Context.read_plain_of_not_mark (by decide) outside rfl] at closes
  cases groups : context.groups with
  | nil => simp [Token.readPlain, groups] at closes
  | cons innermost outer =>
      simp only [Token.readPlain, groups] at closes
      cases closes
      exact ⟨outer, rfl⟩

private theorem Context.opened_ne_zero_of_closes {rest : Text}
    (closes : (context.read c rest).closes? = some bracket) : context.opened bracket ≠ 0 := by
  cases token : context.read c rest with
  | braceClose =>
      rw [token] at closes
      cases closes
      exact context.braces_ne_zero_of_read token
  | groupClose multiplicity =>
      rw [token] at closes
      cases closes
      obtain ⟨outer, groups⟩ := context.groups_of_read token
      simp [Context.opened, groups]
  | _ =>
      rw [token] at closes
      cases closes

end

/-- A token that opens a bracket and the one that closes it.  Between the two nothing of the
kind is closed that was open before, and nothing is left open. -/
structure Pair (glob : List Token) where
  bracket : Bracket
  front : List Token
  opening : Token
  inner : List Token
  closing : Token
  rest : List Token
  whole : glob = front ++ opening :: (inner ++ closing :: rest)
  opens : opening.opens? = some bracket
  closes : closing.closes? = some bracket
  stays : ∀ part, part <+: inner →
    (({} : Context).afterAll (front ++ [opening])).opened bracket ≤
      (({} : Context).afterAll (front ++ opening :: part)).opened bracket
  returns : (({} : Context).afterAll (front ++ opening :: inner)).opened bracket =
    (({} : Context).afterAll (front ++ [opening])).opened bracket

/-- Each bracket is closed before one around it. -/
def isNested (glob : List Token) : Bool :=
  (nestFrom [] glob).isSome

namespace Pair

variable {glob : List Token}

/-- What stands before the closing token. -/
def before (pair : Pair glob) : List Token :=
  pair.front ++ pair.opening :: pair.inner

theorem whole_eq (pair : Pair glob) : glob = pair.before ++ pair.closing :: pair.rest := by
  rw [before, List.append_assoc]
  exact pair.whole

/-- How many brackets of a kind are open behind an opening token and what is nested behind
it. -/
theorem opened_behind_opening {front part : List Token} {opening : Token} {bracket : Bracket}
    {base stack : List Bracket} (opens : opening.opens? = some bracket)
    (frontNests : nestFrom [] front = some base)
    (partNests : nestFrom (bracket :: base) part = some stack) :
    (({} : Context).afterAll (front ++ opening :: part)).opened bracket = stack.count bracket := by
  refine tallies_start.afterAll (nestFrom_append_eq_some.mpr ⟨base, frontNests, ?_⟩) bracket
  exact nestFrom_cons_eq_some.mpr ⟨_, Token.nest_of_opens opens, partNests⟩

/-- A token closes the bracket that has been opened last of its kind. -/
theorem exists_of_nests {front inner rest : List Token} {opening closing : Token}
    {bracket : Bracket} {base own : List Bracket}
    (whole : glob = front ++ opening :: (inner ++ closing :: rest))
    (opens : opening.opens? = some bracket) (closes : closing.closes? = some bracket)
    (frontNests : nestFrom [] front = some base) (innerNests : nestFrom [] inner = some own)
    (apart : bracket ∉ own) :
    ∃ pair : Pair glob, pair.front = front ∧ pair.before = front ++ opening :: inner := by
  have start := opened_behind_opening opens frontNests (show nestFrom _ [] = _ from rfl)
  have opened : ∀ part partOwn, nestFrom [] part = some partOwn →
      (({} : Context).afterAll (front ++ opening :: part)).opened bracket =
        partOwn.count bracket + (bracket :: base).count bracket := by
    intro part partOwn partNests
    rw [opened_behind_opening opens frontNests (nestFrom_below partNests),
      List.count_append]
  refine ⟨⟨bracket, front, opening, inner, closing, rest, whole, opens, closes, ?_, ?_⟩, rfl, rfl⟩
  · rintro part ⟨behind, rfl⟩
    obtain ⟨partOwn, partNests, _⟩ := nestFrom_append_eq_some.mp innerNests
    rw [start, opened part partOwn partNests]
    exact Nat.le_add_left _ _
  · rw [start, opened inner own innerNests, List.count_eq_zero.mpr apart, Nat.zero_add]

theorem exists_frontNests (pair : Pair glob) (nests : isNested glob = true) :
    ∃ base, nestFrom [] pair.front = some base := by
  obtain ⟨last, nests⟩ := Option.isSome_iff_exists.mp nests
  rw [pair.whole] at nests
  obtain ⟨base, frontNests, _⟩ := nestFrom_append_eq_some.mp nests
  exact ⟨base, frontNests⟩

/-- In a nested glob, what stands between the two tokens is nested on its own. -/
theorem nested (pair : Pair glob) (nests : isNested glob = true) :
    nestFrom [] pair.inner = some [] := by
  obtain ⟨last, nests⟩ := Option.isSome_iff_exists.mp nests
  rw [pair.whole] at nests
  obtain ⟨base, frontNests, nests⟩ := nestFrom_append_eq_some.mp nests
  obtain ⟨_, openingNests, nests⟩ := nestFrom_cons_eq_some.mp nests
  rw [Token.nest_of_opens pair.opens] at openingNests
  cases openingNests
  obtain ⟨stack, innerNests, nests⟩ := nestFrom_append_eq_some.mp nests
  obtain ⟨_, closingNests, _⟩ := nestFrom_cons_eq_some.mp nests
  have start := opened_behind_opening pair.opens frontNests (show nestFrom _ [] = _ from rfl)
  have above : nestFrom ([] ++ pair.bracket :: base) pair.inner = some stack := innerNests
  rcases nestFrom_or_closes above with
    ⟨own, ownNests, rfl⟩ | ⟨part, token, innermost, outer, isPrefix, partNests, closes, below⟩
  · -- The innermost bracket is of the kind that is closed, and of that kind none is left open.
    have balanced := pair.returns
    rw [opened_behind_opening pair.opens frontNests innerNests, start, List.count_append,
      Nat.add_eq_right] at balanced
    cases own with
    | nil => exact ownNests
    | cons innermost own =>
        rw [Token.nest_of_closes pair.closes, List.cons_append, List.head?_cons] at closingNests
        split at closingNests
        · next same =>
            cases same
            simp at balanced
        · cases closingNests
  · obtain ⟨rfl, rfl⟩ := List.cons.inj below
    have closed : nestFrom (pair.bracket :: base) (part ++ [token]) = some base := by
      refine nestFrom_append_eq_some.mpr ⟨_, nestFrom_below partNests, ?_⟩
      refine nestFrom_cons_eq_some.mpr ⟨base, ?_, rfl⟩
      rw [Token.nest_of_closes closes]
      simp
    have fewer := pair.stays _ isPrefix
    rw [opened_behind_opening pair.opens frontNests closed, start, List.count_cons_self] at fewer
    omega

end Pair

/-- Where brackets cross, a bracket is closed that is not the innermost one: another one has
been opened since. -/
theorem exists_crossing {glob : Text} (crosses : isNested (tokens {} glob) = false) :
    ∃ (pair : Pair (tokens {} glob)) (front : List Token) (opening : Token) (inner : List Token)
      (bracket : Bracket) (base : List Bracket),
      pair.before = front ++ opening :: inner ∧ opening.opens? = some bracket ∧
        nestFrom [] front = some base ∧ nestFrom [] inner = some [] ∧ front ≠ pair.front := by
  rw [isNested, Option.isSome_eq_false_iff, Option.isNone_iff_eq_none] at crosses
  obtain ⟨before, closing, rest, stack, whole, nests, refused⟩ := exists_refused crosses
  obtain ⟨bracket, closes, notInnermost⟩ := Token.closes_of_nest_eq_none refused
  -- The bracket that is closed lies below the innermost one.
  obtain ⟨own, base, rfl, apart⟩ : ∃ own base, stack = own ++ bracket :: base ∧ bracket ∉ own := by
    obtain ⟨c, behind, rfl⟩ := exists_read_of_append whole
    have opened := Context.opened_ne_zero_of_closes closes
    rw [tallies_start.afterAll nests bracket] at opened
    exact List.eq_append_cons_of_mem (List.count_pos_iff.mp (Nat.pos_of_ne_zero opened))
  obtain ⟨innermost, more, rfl⟩ : ∃ innermost more, own = innermost :: more := by
    cases own with
    | nil => exact absurd rfl notInnermost
    | cons innermost more => exact ⟨innermost, more, rfl⟩
  have nestsLast : nestFrom [] before = some ([] ++ innermost :: (more ++ bracket :: base)) := nests
  obtain ⟨last, lastOpening, between, split, lastOpens, lastNests, betweenNests⟩ :=
    exists_opening nestsLast
  obtain ⟨front, opening, inner, rfl, opens, frontNests, innerNests⟩ := exists_opening nests
  rw [List.append_assoc] at whole
  obtain ⟨pair, rfl, sameBefore⟩ :=
    Pair.exists_of_nests whole opens closes frontNests innerNests apart
  refine ⟨pair, last, lastOpening, between, innermost, _, sameBefore.trans split, lastOpens,
    lastNests, betweenNests, ?_⟩
  rintro rfl
  have lengths := congrArg List.length (Option.some.inj (lastNests.symm.trans frontNests))
  simp at lengths
  omega

end ShellGlob.Glob
