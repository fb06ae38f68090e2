import ShellGlob.Proofs.Glob.Fragments
import ShellGlob.Proofs.Regex.ClassMembers

/-!
# Classes of a glob

What stands between the brackets of a class are its members, each of which is a
token or a range of two tokens with a dash between them (`members`).

A glob and its pattern are read in step, token by token: where the glob is in a
class, so is the regular expression, and what has been read of the next member is
the same (`Follows`).  This holds as long as no class is closed without a member and
no range is refused (`Follows.run`), and a refused range is the only error that the
pattern can give on the way.
-/

namespace ShellGlob.Glob

open Regex (State Stage Brackets Operand ParseError refusesRange)

/-- A dash in a class that is not written with a backslash and is not followed by
another dash. -/
@[match_pattern] abbrev Token.dash : Token := .member false '-'

/-- The character that an escape stands for in a class, unless it stands for many. -/
def escapedCharacter? : Char → Option Char
  | 'b' => some '\x08'
  | 'n' => some '\n'
  | 'r' => some '\r'
  | 't' => some '\t'
  | 'd' | 'w' | 's' | 'D' | 'W' | 'S' => none
  | escaped => some escaped

/-- The character that a token stands for in a class, unless it stands for many. -/
def Token.character? : Token → Option Char
  | .escape _ escaped => escapedCharacter? escaped
  | .backslash _ => some '\\'
  | .member _ c => some c
  | _ => none

inductive Member where
  | single (token : Token)
  | range (first last : Token)
  deriving DecidableEq

/-- The members that the tokens of a class list.  A dash makes a range of what stands
around it, unless the token before it already ends a range or nothing follows it. -/
def members : List Token → List Member
  | first :: .dash :: last :: rest => .range first last :: members rest
  | token :: rest => .single token :: members rest
  | [] => []

/-- Whether a range ends before it starts or has a shorthand for an end. -/
def Member.refused : Member → Bool
  | .single _ => false
  | .range first last => refusesRange first.character? last.character?

def refuses (content : List Token) : Bool :=
  (members content).any Member.refused

/-- The tokens that list the members of a class, up to its end.  A `!` or `^` that
complements the class is none of them. -/
def classContent : Filling → List Token → List Token
  | .opened, token :: rest =>
      (if token.pattern = ['^'] then rest else token :: rest).takeWhile (· ≠ .classClose)
  | _, rest => rest.takeWhile (· ≠ .classClose)

/-- The contents of the classes that are opened, in order. -/
def classContents : List Token → List (List Token)
  | [] => []
  | token :: rest =>
      if token = .classOpen then classContent .opened rest :: classContents rest
      else classContents rest

/-- Whether a class has a range that is refused. -/
def refusesRanges (glob : List Token) : Bool :=
  (classContents glob).any refuses

section

variable {first token : Token} {behind : List Token}

theorem members_of_ne_dash (apart : token ≠ .dash) (behind : List Token) :
    members (first :: token :: behind) = .single first :: members (token :: behind) := by
  cases behind with
  | nil => simp [members]
  | cons last rest =>
      rw [members.eq_def]
      split
      · next same =>
          cases same
          exact absurd rfl apart
      · next same =>
          cases same
          rfl
      · next same => cases same

private theorem refuses_of_ne_dash (apart : token ≠ .dash) (behind : List Token) :
    refuses (first :: token :: behind) = refuses (token :: behind) := by
  simp [refuses, members_of_ne_dash apart, Member.refused]

private theorem refuses_range (last : Token) (behind : List Token) :
    refuses (first :: .dash :: last :: behind) =
      (refusesRange first.character? last.character? || refuses behind) := by
  simp [refuses, members, Member.refused]

theorem classContent_cons {filling : Filling} (notOpening : token ≠ .classOpen)
    (notClosing : token ≠ .classClose) (behind : List Token) :
    classContent filling (token :: behind) =
      if filling = .opened ∧ token.pattern = ['^'] then classContent (filling.after token) behind
      else token :: classContent (filling.after token) behind := by
  cases filling with
  | opened =>
      by_cases caret : token.pattern = ['^']
      · simp [classContent, Filling.after, notOpening, caret]
      · simp [classContent, Filling.after, notOpening, notClosing, caret]
  | complemented | filled => simp [classContent, Filling.after, notOpening, notClosing]

private theorem classContent_classClose (filling : Filling) (behind : List Token) :
    classContent filling (.classClose :: behind) = [] := by
  cases filling with
  | opened => simp [classContent, Token.pattern]
  | complemented | filled => simp [classContent]

end

private theorem escapedCharacter?_of_not_mem {escaped : Char} (notBackspace : escaped ≠ 'b')
    (unknown : escaped ∉ ['d', 'w', 's', 'D', 'W', 'S', 'n', 'r', 't']) :
    escapedCharacter? escaped = some escaped := by
  unfold escapedCharacter?
  split
  all_goals first
    | rfl
    | exact absurd rfl notBackspace
    | exact absurd (by decide) unknown

/-- The token is written like an operand and stands for the same. -/
def Token.ReadsAsOperand (token : Token) (operand : Operand) : Prop :=
  operand.WrittenAs token.pattern ∧ operand.character? = token.character?

theorem exists_operand_escape (escaped : Char) :
    ∃ operand, (Token.escape true escaped).ReadsAsOperand operand := by
  by_cases backspace : escaped = 'b'
  · subst backspace
    exact ⟨.literal (.hexadecimal '0' '8'), .hexadecimal rfl rfl, rfl⟩
  by_cases known : escaped ∈ ['d', 'w', 's', 'D', 'W', 'S', 'n', 'r', 't']
  · have pattern : (Token.escape true escaped).pattern = ['\\', escaped] := by
      simp [Token.pattern, escapePattern, backspace, known]
    unfold Token.ReadsAsOperand
    rw [pattern]
    simp only [List.mem_cons, List.not_mem_nil, or_false] at known
    rcases known with rfl | rfl | rfl | rfl | rfl | rfl | rfl | rfl | rfl
    all_goals exact ⟨_, .escaped rfl (by intro _ same; cases same), rfl⟩
  have character : (Token.escape true escaped).character? = some escaped :=
    escapedCharacter?_of_not_mem backspace known
  by_cases angle : escaped = '<' ∨ escaped = '>'
  · refine ⟨.literal (.plain escaped), ?_, character.symm⟩
    have pattern : (Token.escape true escaped).pattern = [escaped] := by
      simp [Token.pattern, escapePattern, backspace, known, angle]
    rw [pattern]
    rcases angle with rfl | rfl
    all_goals exact .plain (by decide)
  by_cases punctuation : isPunctuation escaped = true
  · refine ⟨.literal (.escaped escaped), ?_, character.symm⟩
    have pattern : (Token.escape true escaped).pattern = ['\\', escaped] := by
      simp [Token.pattern, escapePattern, backspace, known, angle, punctuation]
    rw [pattern]
    exact .escaped (ofEscaped?_of_isPunctuation punctuation angle) (by intro _ same; cases same)
  · refine ⟨.literal (.plain escaped), ?_, character.symm⟩
    have pattern : (Token.escape true escaped).pattern = [escaped] := by
      simp [Token.pattern, escapePattern, backspace, known, angle, punctuation]
    rw [pattern]
    apply Operand.WrittenAs.plain
    have special : [']', '[', '\\', '&', '~', '-'].all isPunctuation = true := rfl
    exact fun operator => punctuation (List.all_eq_true.mp special escaped operator)

private theorem exists_operand_guarded {c : Char} (punctuation : c ∈ ['[', '&', '~', '-']) :
    ∃ operand, (Token.member true c).ReadsAsOperand operand := by
  refine ⟨.literal (.escaped c), ?_, rfl⟩
  simp only [List.mem_cons, List.not_mem_nil, or_false] at punctuation
  rcases punctuation with rfl | rfl | rfl | rfl
  all_goals exact .escaped rfl (by intro _ same; cases same)

theorem exists_operand_readMember {part : ClassPart} {c : Char} {rest : Text}
    (notEscape : c ≠ '\\') (notClosing : c ≠ ']') :
    (Token.readMember part c rest = .dash ∧ rest.head? ≠ some '-') ∨
      (Token.readMember part c rest = .complement ∧ part = .leading) ∨
      ∃ operand, (Token.readMember part c rest).ReadsAsOperand operand := by
  unfold Token.readMember
  rw [if_neg notClosing]
  split
  · next complements => exact Or.inr (Or.inl ⟨rfl, complements.2⟩)
  split
  · next special =>
      refine Or.inr (Or.inr (exists_operand_guarded ?_))
      rcases special with rfl | rfl | rfl
      all_goals decide
  split
  · next dashes =>
      refine Or.inr (Or.inr (exists_operand_guarded ?_))
      simp [dashes.1]
  · next notSpecial notDoubled =>
      by_cases dash : c = '-'
      · subst dash
        exact Or.inl ⟨rfl, fun doubled => notDoubled ⟨rfl, doubled⟩⟩
      · refine Or.inr (Or.inr ⟨.literal (.plain c), .plain ?_, rfl⟩)
        simp only [not_or] at notSpecial
        simp [notEscape, notClosing, notSpecial, dash]

/-- Every token within a class closes it, complements it, is a dash, or is an
operand. -/
theorem Context.operand_read {context : Context} {part : ClassPart}
    (inside : context.classPart = some part) (c : Char) (rest : Text) :
    context.read c rest = .classClose ∨
      (context.read c rest = .dash ∧ rest.head? ≠ some '-') ∨
      (context.read c rest = .complement ∧ part = .leading) ∨
      ∃ operand, (context.read c rest).ReadsAsOperand operand := by
  by_cases escape : c = '\\'
  · have inClass : context.inClass = true := by simp [Context.inClass, inside]
    rw [Context.read, if_pos escape, inClass]
    refine Or.inr (Or.inr (Or.inr ?_))
    cases rest with
    | nil =>
        exact ⟨.literal (.escaped '\\'), .escaped rfl (by intro _ same; cases same), rfl⟩
    | cons escaped rest => exact exists_operand_escape escaped
  rw [Context.read_member inside escape]
  by_cases closing : c = ']'
  · rw [closing]
    exact Or.inl rfl
  · exact Or.inr (exists_operand_readMember escape closing)

/-- What the regular expression has read of a class, and the tokens that may yet become
part of a range.  A dash alone cannot, but another dash must not follow it. -/
inductive Awaits : Filling → Stage → List Token → Prop where
  | opened : Awaits .opened .opened []
  | complemented : Awaits .complemented .complemented []
  | dashes : Awaits .filled .dashes [.dash]
  | ready : Awaits .filled .ready []
  | symbol : Awaits .filled (.symbol .difference) [.dash]
  | operand {token : Token} {operand : Operand} :
      token.ReadsAsOperand operand → Awaits .filled (.operand operand) [token]
  | dash {token : Token} {operand : Operand} :
      token.ReadsAsOperand operand → Awaits .filled (.dash operand) [token, .dash]

/-- A class is open in the regular expression if one is open in the glob, and as many
groups as braces and groups. -/
structure Follows (context : Context) (filling : Filling) (awaited : List Token)
    (state : State) : Prop where
  depth : state.groups.length = context.depth
  pending : (context.classPart = none ∧ state.Idle ∧ awaited = []) ∨
    ∃ part current stage, context.classPart = some part ∧ (part = .leading → filling = .opened) ∧
      state.pending = .brackets ⟨current, [], stage⟩ ∧ Awaits filling stage awaited

/-- Whether a class that is open or that the tokens open has a range that is refused. -/
def refusesFrom (context : Context) (filling : Filling) (awaited rest : List Token) : Bool :=
  (context.inClass && refuses (awaited ++ classContent filling rest)) || refusesRanges rest

/-- The token has been read in step, and the ranges to come are refused if they were to
be refused before it. -/
structure Continues (context : Context) (filling : Filling) (awaited : List Token)
    (token : Token) (next : State) (further : List Token) : Prop where
  follows : Follows (context.after token) (filling.after token) further next
  same : ∀ behind, refusesFrom context filling awaited (token :: behind) =
    refusesFrom (context.after token) (filling.after token) further behind
  apart : further.getLast? = some .dash → token = .dash

section

variable {filling : Filling} {stage : Stage} {awaited : List Token} {token : Token}
  {operand : Operand}

theorem Token.ReadsAsOperand.ne_dash (reads : token.ReadsAsOperand operand) :
    token ≠ .dash := by
  rintro rfl
  obtain ⟨written, _⟩ := reads
  cases written with
  | plain ordinary => exact ordinary (by decide)

theorem Awaits.not_refuses (awaits : Awaits filling stage awaited) : refuses awaited = false := by
  cases awaits with
  | opened | complemented | dashes | ready | symbol => rfl
  | operand reads => rfl
  | dash reads => rfl

theorem Awaits.filling_eq_opened (awaits : Awaits filling .opened awaited) :
    filling = .opened := by
  cases awaits
  rfl

/-- Wherever an operand may start, those before it are members of their own. -/
theorem Awaits.begins (awaits : Awaits filling stage awaited)
    (notDash : ∀ first, stage ≠ .dash first) (current : Regex.Bracket) (token : Token) :
    (∃ before, Brackets.Begins current stage before) ∧
      ∀ behind, token ≠ .dash → refuses (awaited ++ token :: behind) =
        refuses (token :: behind) := by
  cases awaits with
  | opened => exact ⟨⟨_, .opened⟩, fun _ _ => rfl⟩
  | complemented => exact ⟨⟨_, .complemented⟩, fun _ _ => rfl⟩
  | dashes => exact ⟨⟨_, .dashes⟩, fun behind apart => refuses_of_ne_dash apart behind⟩
  | ready => exact ⟨⟨_, .ready⟩, fun _ _ => rfl⟩
  | symbol => exact ⟨⟨_, .symbol⟩, fun behind apart => refuses_of_ne_dash apart behind⟩
  | operand reads =>
      exact ⟨⟨_, .operand reads.1.listed⟩, fun behind apart => refuses_of_ne_dash apart behind⟩
  | dash reads => exact absurd rfl (notDash _)

theorem refusesRanges_cons (notOpening : token ≠ .classOpen) (behind : List Token) :
    refusesRanges (token :: behind) = refusesRanges behind := by
  simp [refusesRanges, classContents, notOpening]

end

/-- Either the token is read in step, or it completes a range that is refused. -/
def ReadOn (context : Context) (filling : Filling) (awaited : List Token) (state : State)
    (token : Token) : Prop :=
  (∃ next further, state.run token.pattern = .ok next ∧
      Continues context filling awaited token next further) ∨
    ∃ error, state.run token.pattern = .error error ∧ error.OfRange ∧
      ∀ behind, refusesFrom context filling awaited (token :: behind) = true

/-- A token that does not close the class comes next. -/
structure BeforeMember (context : Context) (filling : Filling) (awaited : List Token)
    (state : State) (token : Token) (current : Regex.Bracket) (stage : Stage) : Prop where
  follows : Follows context filling awaited state
  inside : context.inClass = true
  member : Inside token
  notClosing : token ≠ .classClose
  stays : context.after token = { context with classPart := some .interior }
  pending : state.pending = .brackets ⟨current, [], stage⟩
  awaits : Awaits filling stage awaited

namespace BeforeMember

variable {context : Context} {filling : Filling} {awaited further : List Token}
  {state next : State} {token : Token} {current later : Regex.Bracket} {stage stageLater : Stage}
  {operand first : Operand}

theorem continues (before : BeforeMember context filling awaited state token current stage)
    (groups : next.groups = state.groups)
    (pending : next.pending = .brackets ⟨later, [], stageLater⟩)
    (awaits : Awaits (filling.after token) stageLater further)
    (same : ∀ behind, refuses (awaited ++ classContent filling (token :: behind)) =
      refuses (further ++ classContent (filling.after token) behind))
    (apart : further.getLast? = some .dash → token = .dash) :
    Continues context filling awaited token next further := by
  have stillInClass : (context.after token).inClass = true := by
    simp [before.stays, Context.inClass]
  refine ⟨⟨?_, Or.inr ⟨.interior, later, stageLater, ?_, ?_, pending, awaits⟩⟩, ?_, apart⟩
  · rw [groups, before.stays]
    exact before.follows.depth
  · rw [before.stays]
  · intro leading
    cases leading
  · intro behind
    simp only [refusesFrom, before.inside, stillInClass, same,
      refusesRanges_cons before.member.ne_classOpen]

private theorem step_caret (before : BeforeMember context filling awaited state token current stage)
    (opened : filling = .opened) (caret : token.pattern = ['^']) :
    ReadOn context filling awaited state token := by
  have awaits := before.awaits
  rw [opened] at awaits
  have complemented : filling.after token = .complemented := by
    rw [Filling.after_inside before.member, if_pos ⟨opened, caret⟩]
  cases awaits with
  | opened =>
      obtain ⟨position, ran⟩ := State.run_reading (c := '^') before.pending fun _ => rfl
      rw [← caret] at ran
      refine Or.inl ⟨_, [], ran, before.continues rfl rfl ?_ ?_ (by simp)⟩
      · rw [complemented]
        exact .complemented
      · intro behind
        rw [classContent_cons before.member.ne_classOpen before.notClosing, if_pos ⟨opened, caret⟩]

section

variable (before : BeforeMember context filling awaited state token current stage)
  (notCaret : ¬ (filling = .opened ∧ token.pattern = ['^']))

include before notCaret

theorem after_eq_filled : filling.after token = .filled := by
  rw [Filling.after_inside before.member, if_neg notCaret]

theorem classContent_eq (behind : List Token) :
    classContent filling (token :: behind) = token :: classContent .filled behind := by
  rw [classContent_cons before.member.ne_classOpen before.notClosing, if_neg notCaret,
    before.after_eq_filled notCaret]

/-- The operand ends a range, which is refused or not. -/
theorem step_range (reads : token.ReadsAsOperand operand) (dash : stage = .dash first) :
    ReadOn context filling awaited state token := by
  have awaits := before.awaits
  have pending := before.pending
  subst dash
  cases awaits with
  | @dash start _ startReads =>
      have content : ∀ behind,
          refuses ([start, .dash] ++ classContent .filled (token :: behind)) =
            (refusesRange start.character? token.character? ||
              refuses (classContent .filled behind)) := by
        intro behind
        rw [before.classContent_eq notCaret]
        exact refuses_range token _
      have characters : refusesRange first.character? operand.character? =
          refusesRange start.character? token.character? := by rw [startReads.2, reads.2]
      obtain ⟨stop, position, ran⟩ := State.run_range pending reads.1
      cases refused : refusesRange start.character? token.character? with
      | true =>
          obtain ⟨error, failed, ofRange⟩ :=
            Regex.exists_error_of_refusesRange (characters.trans refused) stop
          rw [failed] at ran
          refine Or.inr ⟨error, ran, ofRange, fun behind => ?_⟩
          rw [refusesFrom, content, refused, before.inside]
          rfl
      | false =>
          obtain ⟨set, made⟩ :=
            Regex.exists_range_of_not_refusesRange (characters.trans refused) stop
          rw [made] at ran
          refine Or.inl ⟨_, [], ran, before.continues rfl rfl ?_ ?_ (by simp)⟩
          · rw [before.after_eq_filled notCaret]
            exact .ready
          · intro behind
            rw [content, refused, before.after_eq_filled notCaret]
            rfl

/-- The operand starts a member. -/
theorem step_operand (reads : token.ReadsAsOperand operand)
    (notDash : ∀ first, stage ≠ .dash first) : ReadOn context filling awaited state token := by
  obtain ⟨⟨complete, begins⟩, same⟩ := before.awaits.begins notDash current token
  have text : stage = .opened → token.pattern ≠ ['^'] := by
    rintro rfl caret
    exact notCaret ⟨before.awaits.filling_eq_opened, caret⟩
  obtain ⟨position, ran⟩ := State.run_operand before.pending begins reads.1 text
  refine Or.inl ⟨_, [token], ran, before.continues rfl rfl ?_ ?_ ?_⟩
  · rw [before.after_eq_filled notCaret]
    exact .operand reads
  · intro behind
    rw [before.classContent_eq notCaret, same _ reads.ne_dash, before.after_eq_filled notCaret]
    rfl
  · intro last
    exact Option.some.inj last

/-- A dash starts a range behind an operand, and is a member of its own elsewhere. -/
theorem step_dash (isDash : token = .dash) (apart : awaited.getLast? ≠ some .dash) :
    ReadOn context filling awaited state token := by
  have filled := before.after_eq_filled notCaret
  have content := before.classContent_eq notCaret
  have awaits := before.awaits
  have pending := before.pending
  have goesOn : ∀ {later stageLater} position, state.run ['-'] =
        .ok ⟨position, state.draft, state.groups, .brackets ⟨later, [], stageLater⟩⟩ →
      Awaits .filled stageLater (awaited ++ [.dash]) →
      ReadOn context filling awaited state token := by
    intro later stageLater position ran awaits
    subst isDash
    refine Or.inl ⟨_, awaited ++ [.dash], ran, before.continues rfl rfl ?_ ?_ (fun _ => rfl)⟩
    · rw [filled]
      exact awaits
    · intro behind
      rw [content, filled, List.append_assoc]
      rfl
  cases awaits with
  | opened =>
      obtain ⟨position, ran⟩ := State.run_dash_leading pending (Or.inl rfl)
      exact goesOn position ran .dashes
  | complemented =>
      obtain ⟨position, ran⟩ := State.run_dash_leading pending (Or.inr rfl)
      exact goesOn position ran .dashes
  | ready =>
      obtain ⟨position, ran⟩ := State.run_dash_ready pending
      exact goesOn position ran .symbol
  | dashes | symbol | dash => exact absurd rfl apart
  | operand reads =>
      obtain ⟨position, ran⟩ := State.run_dash_behind_operand pending
      exact goesOn position ran (.dash reads)

end

end BeforeMember

theorem classesFilled_cons_iff {filling : Filling} {token : Token} {rest : List Token} :
    classesFilled filling (token :: rest) = true ↔
      (token = .classClose → filling = .filled) ∧
        classesFilled (filling.after token) rest = true := by
  simp [classesFilled, Decidable.imp_iff_not_or]

theorem classesFilled_of_isPrefix {filling : Filling} {before front : List Token}
    (isPrefix : before <+: front)
    (filled : classesFilled filling front = true) : classesFilled filling before = true := by
  induction before generalizing filling front with
  | nil => rfl
  | cons token before ih =>
      obtain ⟨rest, rfl⟩ := isPrefix
      rw [List.cons_append, classesFilled_cons_iff] at filled
      exact classesFilled_cons_iff.mpr ⟨filled.1, ih (List.prefix_append _ _) filled.2⟩

/-- A token that starts no class stands between parts that have no empty class. -/
theorem classesFilled_of_append {filling : Filling} {front rest : List Token} {token : Token}
    (plain : ∀ filling : Filling, filling.after token = .filled)
    (filled : classesFilled filling (front ++ token :: rest) = true) :
    classesFilled filling front = true ∧ classesFilled .filled rest = true := by
  induction front generalizing filling with
  | nil =>
      rw [List.nil_append, classesFilled_cons_iff, plain] at filled
      exact ⟨rfl, filled.2⟩
  | cons first front ih =>
      rw [List.cons_append, classesFilled_cons_iff] at filled
      obtain ⟨frontFilled, restFilled⟩ := ih filled.2
      exact ⟨classesFilled_cons_iff.mpr ⟨filled.1, frontFilled⟩, restFilled⟩

/-- In a glob no two dashes that are not guarded follow each other. -/
theorem Context.head?_tokens_ne_dash {context : Context} {c : Char} {rest : Text}
    (dash : context.read c rest = .dash) :
    (tokens (context.after (context.read c rest))
      (rest.drop (context.read c rest).lookahead)).head? ≠ some .dash := by
  cases location : context.classPart with
  | none =>
      have writes : Outside context .dash := by
        rw [← dash]
        exact Context.outside_read location
      have inside : (context.after .dash).classPart = some .interior := rfl
      cases writes with
      | items _ stays | separator _ _ stays =>
          rw [stays, location] at inside
          cases inside
      | opening _ _ outside | closing _ _ _ outside => cases outside
  | some part =>
      have notDoubled : rest.head? ≠ some '-' := by
        rcases Context.operand_read location c rest with
          closing | ⟨_, notDoubled⟩ | ⟨complement, _⟩ | ⟨operand, reads⟩
        · cases dash.symm.trans closing
        · exact notDoubled
        · cases dash.symm.trans complement
        · exact absurd dash reads.ne_dash
      intro next
      rw [dash] at next
      cases rest with
      | nil => simp [Token.lookahead, Token.source, tokens_nil] at next
      | cons d rest =>
          have first : (context.after .dash).read d rest = .dash := by
            simpa [Token.lookahead, Token.source, tokens_cons] using next
          have written := (context.after .dash).source_read_append d rest
          rw [first] at written
          cases written
          exact notDoubled rfl

namespace Follows

variable {context : Context} {filling : Filling} {awaited : List Token} {state : State}

theorem step_classClose (follows : Follows context filling awaited state)
    (filled : filling = .filled) (inClass : context.inClass = true) :
    ReadOn context filling awaited state .classClose := by
  obtain ⟨depth, ⟨outside, _⟩ | ⟨part, current, stage, inside, leading, pending, awaits⟩⟩ := follows
  · simp [Context.inClass, outside] at inClass
  · subst filled
    obtain ⟨item, position, ran⟩ : ∃ item, state.Arrives [']'] (state.draft.push item)
        state.groups := by
      cases awaits with
      | dashes => exact ⟨_, State.run_classClose pending .dashes (by simp) (by simp)⟩
      | ready => exact ⟨_, State.run_classClose pending .ready (by simp) (by simp)⟩
      | symbol => exact ⟨_, State.run_classClose pending .symbol (by simp) (by simp)⟩
      | operand reads =>
          exact ⟨_, State.run_classClose pending (.operand reads.1.listed) (by simp) (by simp)⟩
      | dash reads => exact ⟨_, State.run_classClose_behind_dash reads.1.listed pending rfl⟩
    refine Or.inl ⟨_, [], ran, ⟨depth, Or.inl ⟨rfl, Or.inl rfl, rfl⟩⟩, fun behind => ?_, by simp⟩
    have closed : (context.after .classClose).inClass = false := rfl
    rw [refusesFrom, refusesFrom, inClass, closed, classContent_classClose, List.append_nil,
      awaits.not_refuses, refusesRanges_cons (by simp)]
    rfl

theorem step_inside (follows : Follows context filling awaited state) {part : ClassPart}
    (inside : context.classPart = some part) {c : Char} {rest : Text}
    (filled : context.read c rest = .classClose → filling = .filled)
    (apart : awaited.getLast? = some .dash → context.read c rest ≠ .dash) :
    ReadOn context filling awaited state (context.read c rest) := by
  have inClass : context.inClass = true := by simp [Context.inClass, inside]
  by_cases closing : context.read c rest = .classClose
  · rw [closing]
    exact follows.step_classClose (filled closing) inClass
  obtain ⟨member, stays⟩ := (Context.inside_read inside c rest).resolve_left closing
  obtain ⟨depth, ⟨outside, _⟩ | ⟨_, current, stage, located, leading, pending, awaits⟩⟩ :=
    id follows
  · rw [inside] at outside
    cases outside
  cases inside.symm.trans located
  have before : BeforeMember context filling awaited state (context.read c rest) current stage :=
    ⟨follows, inClass, member, closing, stays, pending, awaits⟩
  by_cases caret : filling = .opened ∧ (context.read c rest).pattern = ['^']
  · exact before.step_caret caret.1 caret.2
  rcases (Context.operand_read inside c rest).resolve_left closing with
    ⟨dash, _⟩ | ⟨complement, isLeading⟩ | ⟨operand, reads⟩
  · exact before.step_dash caret dash fun last => apart last dash
  · exact absurd ⟨leading isLeading, by rw [complement]; rfl⟩ caret
  · by_cases isDash : ∃ first, stage = .dash first
    · obtain ⟨first, dash⟩ := isDash
      exact before.step_range caret reads dash
    · exact before.step_operand caret reads fun first dash => isDash ⟨first, dash⟩

private theorem continues_outside {token : Token} {next : State}
    (outside : context.classPart = none)
    (outsideToo : (context.after token).classPart = none) (idle : next.Idle)
    (depth : next.groups.length = (context.after token).depth) :
    Continues context filling awaited token next [] := by
  have notOpening : token ≠ .classOpen := by
    rintro rfl
    cases outsideToo
  refine ⟨⟨depth, Or.inl ⟨outsideToo, idle, rfl⟩⟩, fun behind => ?_, by simp⟩
  simp [refusesFrom, Context.inClass, outside, outsideToo, refusesRanges_cons notOpening]

private theorem continues_classOpen {next : State} (outside : context.classPart = none)
    {start : Nat}
    (pending : next.pending = .brackets (.opened start))
    (depth : next.groups.length = context.depth) :
    Continues context filling awaited .classOpen next [] := by
  have opened : filling.after .classOpen = .opened := by rw [Filling.after, if_pos rfl]
  refine ⟨⟨depth, Or.inr ⟨.leading, _, .opened, rfl, fun _ => opened, pending, ?_⟩⟩,
    fun behind => ?_, by simp⟩
  · rw [opened]
    exact .opened
  · simp [refusesFrom, Context.inClass, outside, Context.after, opened, refusesRanges,
      classContents]

theorem step_outside (follows : Follows context filling awaited state) {token : Token}
    (outside : context.classPart = none) (writes : Outside context token) :
    ReadOn context filling awaited state token := by
  obtain ⟨depth, ⟨_, idle, _⟩ | ⟨part, _, _, inside, _⟩⟩ := follows
  · cases writes with
    | items reads stays =>
        obtain ⟨next, ran, nextIdle, _, groups⟩ := reads state idle
        refine Or.inl ⟨next, [], ran, continues_outside outside ?_ nextIdle ?_⟩
        · rw [stays, outside]
        · rw [stays, groups, depth]
    | charClass =>
        have ran := State.run_cons_of_step (State.step_of_idle idle (c := '[') (by decide) rfl) []
        exact Or.inl ⟨_, [], ran, continues_classOpen outside rfl depth⟩
    | opening pattern deeper outsideToo =>
        obtain ⟨next, group, ran, nextIdle, groups, _⟩ := run_opening idle pattern
        refine Or.inl ⟨next, [], ran, continues_outside outside outsideToo nextIdle ?_⟩
        rw [groups, deeper, List.length_cons, depth]
    | separator pattern _ stays =>
        obtain ⟨next, ran, nextIdle, _, groups⟩ := run_separator idle
        rw [← pattern] at ran
        refine Or.inl ⟨next, [], ran, continues_outside outside ?_ nextIdle ?_⟩
        · rw [stays, outside]
        · rw [stays, groups, depth]
    | closing multiplicity pattern shallower outsideToo =>
        have inGroup : state.groups ≠ [] := by
          intro none
          rw [none, List.length_nil] at depth
          omega
        obtain ⟨innermost, outer, groups⟩ := List.exists_cons_of_ne_nil inGroup
        obtain ⟨position, ran⟩ := run_closing idle groups multiplicity
        rw [← pattern] at ran
        refine Or.inl ⟨_, [], ran, continues_outside outside outsideToo (Or.inl rfl) ?_⟩
        rw [groups, List.length_cons] at depth
        simp only
        omega
  · rw [outside] at inside
    cases inside

theorem step (follows : Follows context filling awaited state) {c : Char} {rest : Text}
    (filled : context.read c rest = .classClose → filling = .filled)
    (apart : awaited.getLast? = some .dash → context.read c rest ≠ .dash) :
    ReadOn context filling awaited state (context.read c rest) := by
  cases location : context.classPart with
  | none => exact follows.step_outside location (Context.outside_read location)
  | some part => exact follows.step_inside location filled apart

/-- One more token of a text is read in step, and the next one may follow. -/
theorem step_of_isPrefix {token : Token} {front : List Token} {text : Text}
    (follows : Follows context filling awaited state)
    (isPrefix : token :: front <+: tokens context text)
    (filled : token = .classClose → filling = .filled)
    (apart : awaited.getLast? = some .dash → (token :: front).head? ≠ some .dash) :
    (∃ next further later, state.run token.pattern = .ok next ∧
        Continues context filling awaited token next further ∧
        front <+: tokens (context.after token) later ∧
        (further.getLast? = some .dash → front.head? ≠ some .dash)) ∨
      ∃ error, state.run token.pattern = .error error ∧ error.OfRange ∧
        ∀ behind, refusesFrom context filling awaited (token :: behind) = true := by
  obtain ⟨c, rest, rfl, later⟩ := exists_read_of_isPrefix isPrefix
  have notDash : awaited.getLast? = some .dash → context.read c rest ≠ .dash := by
    intro last dash
    exact apart last (congrArg some dash)
  rcases follows.step filled notDash with ⟨next, further, ran, continues⟩ | refused
  · refine Or.inl ⟨next, further, _, ran, continues, later, ?_⟩
    intro last isDash
    obtain ⟨behind, rfl⟩ := List.head?_eq_some_iff.mp isDash
    obtain ⟨other, split⟩ := later
    exact Context.head?_tokens_ne_dash (continues.apart last) (by rw [← split]; rfl)
  · exact Or.inr refused

/-- The tokens from here on are read in step, or a range in them is refused. -/
theorem run {front : List Token} {text : Text} (follows : Follows context filling awaited state)
    (isPrefix : front <+: tokens context text) (filled : classesFilled filling front = true)
    (apart : awaited.getLast? = some .dash → front.head? ≠ some .dash) :
    (∃ last behind further, state.run (front.flatMap Token.pattern) = .ok last ∧
        Follows (context.afterAll front) behind further last ∧
        refusesFrom context filling awaited front = false) ∨
      ∃ error, state.run (front.flatMap Token.pattern) = .error error ∧ error.OfRange ∧
        refusesFrom context filling awaited front = true := by
  induction front generalizing context filling awaited state text with
  | nil =>
      refine Or.inl ⟨state, filling, awaited, rfl, follows, ?_⟩
      have none : refuses awaited = false := by
        obtain ⟨_, ⟨_, _, rfl⟩ | ⟨_, _, _, _, _, _, awaits⟩⟩ := follows
        · rfl
        · exact awaits.not_refuses
      cases filling with
      | opened | complemented | filled => simp [refusesFrom, classContent, none, refusesRanges,
          classContents]
  | cons token front ih =>
      obtain ⟨tokenFilled, restFilled⟩ := classesFilled_cons_iff.mp filled
      rcases follows.step_of_isPrefix isPrefix tokenFilled apart with
        ⟨next, further, later, ran, continues, laterPrefix, laterApart⟩ |
        ⟨error, failed, ofRange, refused⟩
      · rw [List.flatMap_cons, State.run_append_of_run ran, continues.same]
        exact ih continues.follows laterPrefix restFilled laterApart
      · refine Or.inr ⟨error, ?_, ofRange, refused front⟩
        rw [List.flatMap_cons, State.run_append, failed]
        rfl

end Follows

end ShellGlob.Glob
