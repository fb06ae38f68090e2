import Mathlib
import ShellGlob.Proofs.Glob.MemberSets
import ShellGlob.Proofs.Glob.Refusal
import ShellGlob.Proofs.Regex.Enclosing

/-!
# What a class lists

The body of a class is read here without tokens and without regular expressions: as
characters, each of them raw or escaped (`entries`), and as single ones and ranges of
these (`items`).  A raw dash makes a range of what stands around it, unless another raw
dash follows it or what stands before it has gone into a range already.

A glob that is one class matches the characters that its body lists, or those that it does
not list if the class is complemented (`Matcher.isMatch_classGlob`).  Only the dashes ask
for thought.  The first of two is guarded in the pattern, so that it is not half of an
operator, and for the same reason it never makes a range.
-/

namespace ShellGlob

open Regex (State ClassSet Operand Shorthand)

namespace Glob

/-- A character of the body of a class, written with a backslash or without one. -/
inductive Entry where
  | raw (c : Char)
  | escaped (c : Char)
  deriving DecidableEq

def entries : Text → List Entry
  | '\\' :: escaped :: rest => .escaped escaped :: entries rest
  | c :: rest => .raw c :: entries rest
  | [] => []

/-- A character on its own, or a range of two. -/
inductive Item where
  | single (entry : Entry)
  | range (first last : Entry)
  deriving DecidableEq

/-- A raw dash between two characters makes a range of them, unless the second one is a
raw dash too. -/
def items : List Entry → List Item
  | first :: .raw '-' :: last :: rest =>
      if last = .raw '-' then .single first :: items (.raw '-' :: last :: rest)
      else .range first last :: items rest
  | entry :: rest => .single entry :: items rest
  | [] => []

/-- The character that is meant, unless many are. -/
def Entry.character? : Entry → Option Char
  | .raw c => some c
  | .escaped c => escapedCharacter? c

def Entry.contains : Entry → Char → Bool
  | .raw c, x => x = c
  | .escaped c, x =>
      match Shorthand.ofLetter? c with
      | some shorthand => shorthand.contains x
      | none => escapedCharacter? c = some x

def Item.contains : Item → Char → Bool
  | .single entry, x => entry.contains x
  | .range first last, x =>
      match first.character?, last.character? with
      | some low, some high => low ≤ x && x ≤ high
      | _, _ => false

/-- Whether the body of a class lists a character. -/
def lists (body : Text) (x : Char) : Bool :=
  (items (entries body)).any (·.contains x)

/-- The glob that is one class. -/
def classGlob (complemented : Bool) (body : Text) : Text :=
  '[' :: ((if complemented then '!' :: body else body) ++ [']'])

/-- Each character of the body has one token.  A raw dash is guarded if another one
follows. -/
inductive Writes : List Token → List Entry → Prop where
  | nil : Writes [] []
  | escaped (c : Char) {behind : List Token} {rest : List Entry} :
      Writes behind rest → Writes (.escape true c :: behind) (.escaped c :: rest)
  | raw {guarded : Bool} {c : Char} {behind : List Token} {rest : List Entry} :
      (Token.member guarded c = .dash ↔ c = '-' ∧ rest.head? ≠ some (.raw '-')) →
      Writes behind rest → Writes (.member guarded c :: behind) (.raw c :: rest)

theorem entries_cons {c : Char} (notEscape : c ≠ '\\') (rest : Text) :
    entries (c :: rest) = .raw c :: entries rest := by
  rw [entries.eq_def]
  split
  · next same => exact absurd (List.cons.inj same).1 notEscape
  · next same =>
      cases same
      rfl
  · next same => cases same

theorem head?_entries_eq_raw_iff {c : Char} (notEscape : c ≠ '\\') (text : Text) :
    (entries text).head? = some (.raw c) ↔ text.head? = some c := by
  fun_cases entries text with
  | case1 => simpa using Ne.symm notEscape
  | case2 | case3 => simp

theorem readMember_eq_member {part : ClassPart} {c : Char} (rest : Text) (notClosing : c ≠ ']')
    (notComplement : ¬ (c = '!' ∧ part = .leading)) :
    ∃ guarded, Token.readMember part c rest = .member guarded c ∧
      (Token.member guarded c = .dash ↔ c = '-' ∧ rest.head? ≠ some '-') := by
  unfold Token.readMember
  rw [if_neg notClosing, if_neg notComplement]
  split
  · next special =>
      refine ⟨true, rfl, ?_⟩
      rcases special with rfl | rfl | rfl
      all_goals simp
  split
  · next doubled => exact ⟨true, rfl, by simp [doubled.1, doubled.2]⟩
  · next notDoubled =>
      refine ⟨false, rfl, ?_⟩
      by_cases dash : c = '-'
      · subst dash
        simpa using notDoubled
      · simp [dash]

/-- Between the brackets of a class the tokens are those of the characters. -/
theorem writes_tokens {part : ClassPart} {body : Text} (closed : EscapesAll [']'] body)
    (notComplement : part = .leading → body.head? ≠ some '!') :
    Writes (tokens { classPart := some part } body) (entries body) := by
  induction closed generalizing part with
  | nil =>
      rw [tokens_nil]
      exact .nil
  | escape escaped _ ih =>
      rw [tokens_escape_inClass rfl]
      exact .escaped escaped (ih (by simp))
  | @plain c rest notEscape notListed _ ih =>
      have notClosing := List.ne_of_not_mem_cons notListed
      obtain ⟨guarded, member, isDash⟩ := readMember_eq_member rest notClosing
        fun complement => notComplement complement.2 (by rw [complement.1]; rfl)
      rw [tokens_member rfl notEscape notClosing, entries_cons notEscape, member]
      rw [Ne, ← head?_entries_eq_raw_iff (by decide)] at isDash
      exact .raw isDash (ih (by simp))

theorem lists_of_mem_tokens {part : ClassPart} {body : Text} (closed : EscapesAll [']'] body)
    (notComplement : part = .leading → body.head? ≠ some '!') :
    ∀ token ∈ tokens { classPart := some part } body, token.Lists := by
  induction closed generalizing part with
  | nil => simp [tokens_nil]
  | escape escaped _ ih =>
      rw [tokens_escape_inClass rfl]
      exact List.forall_mem_cons.mpr ⟨Or.inr (exists_operand_escape escaped), ih (by simp)⟩
  | @plain c rest notEscape notListed _ ih =>
      have notClosing := List.ne_of_not_mem_cons notListed
      rw [tokens_member rfl notEscape notClosing]
      refine List.forall_mem_cons.mpr ⟨?_, ih (by simp)⟩
      rcases @exists_operand_readMember part c rest notEscape notClosing with
        ⟨dash, _⟩ | ⟨complement, leading⟩ | operand
      · exact Or.inl dash
      · have written := Token.source_readMember part c rest
        rw [complement] at written
        cases written
        exact absurd rfl (notComplement leading)
      · exact Or.inr operand

section

variable {content : List Token} {body : List Entry}

private theorem Writes.head? (writes : Writes content body) (dash : content.head? = some .dash) :
    body.head? = some (.raw '-') := by
  cases writes with
  | nil | escaped => cases dash
  | raw =>
      cases dash
      rfl

/-- Of two raw dashes in a row the first one is guarded. -/
theorem Writes.isChain (writes : Writes content body) :
    content.IsChain fun token next => token = .dash → next ≠ .dash := by
  induction writes with
  | nil => exact .nil
  | escaped c _ ih =>
      refine List.isChain_cons.mpr ⟨?_, ih⟩
      intro next _ dash
      cases dash
  | raw isDash writes ih =>
      refine List.isChain_cons.mpr ⟨?_, ih⟩
      intro next isNext dash nextDash
      exact (isDash.mp dash).2 (writes.head? (nextDash ▸ isNext))

def Token.entryOf? : Token → Option Entry
  | .escape _ c => some (.escaped c)
  | .member _ c => some (.raw c)
  | _ => none

/-- The member is written like the item. -/
inductive Member.Spells : Member → Item → Prop where
  | single {token : Token} {entry : Entry} :
      token.entryOf? = some entry → Spells (.single token) (.single entry)
  | range {first last : Token} {low high : Entry} :
      first.entryOf? = some low → last.entryOf? = some high →
      Spells (.range first last) (.range low high)

private theorem Writes.exists_cons {entry : Entry} {rest : List Entry}
    (writes : Writes content (entry :: rest)) :
    ∃ token behind, content = token :: behind ∧ token.entryOf? = some entry ∧ Writes behind rest ∧
      (token = .dash ↔ entry = .raw '-' ∧ rest.head? ≠ some (.raw '-')) := by
  cases writes with
  | escaped c writes => exact ⟨_, _, rfl, rfl, writes, by simp⟩
  | raw isDash writes => exact ⟨_, _, rfl, rfl, writes, by simpa using isDash⟩

theorem Writes.members (writes : Writes content body) :
    List.Forall₂ Member.Spells (members content) (items body) := by
  fun_induction items body generalizing content with
  | case1 first rest ih =>
      obtain ⟨token, _, rfl, spells, writesDash, _⟩ := writes.exists_cons
      obtain ⟨next, behind, rfl, _, _, isDash⟩ := id writesDash.exists_cons
      have apart : next ≠ .dash := fun dash => (isDash.mp dash).2 rfl
      rw [members_of_ne_dash apart]
      exact .cons (.single spells) (ih writesDash)
  | case2 first last rest single ih =>
      obtain ⟨token, _, rfl, spells, writesDash, _⟩ := writes.exists_cons
      obtain ⟨next, _, rfl, _, writesLast, isDash⟩ := writesDash.exists_cons
      obtain ⟨final, behind, rfl, spellsLast, writesRest, _⟩ := writesLast.exists_cons
      obtain rfl := isDash.mpr ⟨rfl, fun doubled => single (Option.some.inj doubled)⟩
      exact .cons (.range spells spellsLast) (ih writesRest)
  | case3 entry rest notRange ih =>
      obtain ⟨token, behind, rfl, spells, writesRest, _⟩ := writes.exists_cons
      have listed : Glob.members (token :: behind) = .single token :: Glob.members behind := by
        cases writesRest with
        | nil => rfl
        | escaped => exact members_of_ne_dash (by simp) _
        | @raw guarded c later others isDash writesLater =>
            by_cases dash : Token.member guarded c = .dash
            · rw [dash]
              obtain ⟨rfl, _⟩ := isDash.mp dash
              cases writesLater with
              | nil => rfl
              | escaped | raw => exact absurd rfl (notRange _ _)
            · exact members_of_ne_dash dash _
      rw [listed]
      exact .cons (.single spells) (ih writesRest)
  | case4 =>
      cases writes
      exact .nil

end

section

variable {token : Token} {entry : Entry} {operand : Operand}

theorem character?_of_entryOf? (spells : token.entryOf? = some entry) :
    token.character? = entry.character? := by
  cases token with
  | escape | member =>
      cases spells
      rfl
  | _ => cases spells

private theorem Entry.contains_of_character? {c : Char} (single : entry.character? = some c)
    (x : Char) :
    entry.contains x = decide (x = c) := by
  cases entry with
  | raw =>
      cases single
      rfl
  | escaped escaped =>
      have noShorthand : Shorthand.ofLetter? escaped = none := by
        unfold Shorthand.ofLetter?
        split
        all_goals first
          | rfl
          | cases single
      have known : escapedCharacter? escaped = some c := single
      simp [Entry.contains, noShorthand, known, eq_comm]

private theorem ofLetter?_of_ofEscaped? {c : Char} {shorthand : Shorthand}
    (known : Operand.ofEscaped? c = some (.shorthand shorthand)) :
    Shorthand.ofLetter? c = some shorthand := by
  unfold Operand.ofEscaped? at known
  split at known
  · split at known
    · cases known
    · cases known
  split at known
  all_goals first
    | cases known
    | simpa using known

/-- An escape that needs its backslash in the pattern has the same character behind it. -/
theorem eq_of_escapePattern {inClass : Bool} {c escaped : Char}
    (same : escapePattern inClass escaped = ['\\', c]) : escaped = c := by
  unfold escapePattern at same
  split at same
  · simp at same
  split at same
  · exact (List.cons.inj (List.cons.inj same).2).1
  split at same
  · exact (List.cons.inj (List.cons.inj same).2).1
  split at same
  · simp at same
  split at same
  · exact (List.cons.inj (List.cons.inj same).2).1
  · simp at same

private theorem Token.ReadsAsOperand.ofLetter? {shorthand : Shorthand}
    (reads : token.ReadsAsOperand (.shorthand shorthand)) (spells : token.entryOf? = some entry) :
    ∃ letter, entry = .escaped letter ∧ Shorthand.ofLetter? letter = some shorthand := by
  obtain ⟨written, character⟩ := reads
  cases token with
  | escape inClass escaped =>
      cases spells
      generalize pattern : (Token.escape inClass escaped).pattern = text at written
      cases written with
      | @escaped c _ known listed =>
          obtain rfl := eq_of_escapePattern pattern
          exact ⟨_, rfl, ofLetter?_of_ofEscaped? known⟩
  | member => cases character
  | _ => cases spells

private theorem Token.ReadsAsOperand.contains (reads : token.ReadsAsOperand operand)
    (spells : token.entryOf? = some entry) (x : Char) :
    operand.set.contains x = entry.contains x := by
  cases operand with
  | literal value =>
      have single : entry.character? = some value.value :=
        (character?_of_entryOf? spells).symm.trans reads.2.symm
      rw [Entry.contains_of_character? single]
      rfl
  | shorthand shorthand =>
      obtain ⟨letter, rfl, known⟩ := reads.ofLetter? spells
      simp [Entry.contains, known, Operand.set, ClassSet.contains]
  | boundary negated => exact absurd rfl (reads.1.listed negated)

/-- A set has the characters of the item that it is read from. -/
theorem Member.ReadsAs.contains {member : Member} {set : ClassSet} {item : Item}
    (reads : member.ReadsAs set) (spells : member.Spells item) (x : Char) :
    set.contains x = item.contains x := by
  cases reads with
  | dash =>
      cases spells with
      | single same =>
          cases same
          rfl
  | operand reads =>
      cases spells with
      | single same => exact reads.contains same x
  | range reads readsLast =>
      cases spells with
      | range same sameLast =>
          have low := (character?_of_entryOf? same).symm.trans reads.2.symm
          have high := (character?_of_entryOf? sameLast).symm.trans readsLast.2.symm
          simp [ClassSet.contains, Item.contains, low, high, Operand.character?]

end

private theorem contains_ofMembers (sets : List ClassSet) (x : Char) :
    (ClassSet.ofMembers sets).contains x = sets.any (·.contains x) := by
  induction sets with
  | nil => rfl
  | cons set rest ih =>
      cases rest with
      | nil => simp [ClassSet.ofMembers]
      | cons next rest =>
          have unions : ClassSet.ofMembers (set :: next :: rest) =
              .union set (.ofMembers (next :: rest)) := rfl
          rw [unions, ClassSet.contains, ih]
          rfl

private theorem contains_of_reads {listed : List Member} {sets : List ClassSet} {body : List Item}
    (reads : List.Forall₂ Member.ReadsAs listed sets)
    (spells : List.Forall₂ Member.Spells listed body) (x : Char) :
    (ClassSet.ofMembers sets).contains x = body.any (·.contains x) := by
  rw [contains_ofMembers]
  induction reads generalizing body with
  | nil =>
      cases spells
      rfl
  | cons read _ ih =>
      cases spells with
      | cons spell spells => rw [List.any_cons, List.any_cons, read.contains spell, ih spells]

section

variable {complemented : Bool} {body : Text}

/-- The body of a class reads as one: it is not empty, each `]` in it is escaped, and its
first character does not complement the class. -/
structure IsClassBody (complemented : Bool) (body : Text) : Prop where
  written : body ≠ []
  closed : EscapesAll [']'] body
  plain : complemented = false → body.head? ≠ some '!' ∧ body.head? ≠ some '^'

/-- The part of the class that the body is read in. -/
def bodyPart (complemented : Bool) : ClassPart :=
  if complemented then .interior else .leading

theorem IsClassBody.head?_ne_mark (isBody : IsClassBody complemented body) :
    bodyPart complemented = .leading → body.head? ≠ some '!' := by
  intro leading
  cases complemented with
  | false => exact (isBody.plain rfl).1
  | true => cases leading

theorem patternFrom_classGlob (isBody : IsClassBody complemented body) :
    patternFrom {} (classGlob complemented body) =
      ClassSet.opening complemented ++
        ((tokens { classPart := some (bodyPart complemented) } body).flatMap Token.pattern ++
          [']']) := by
  have outside : ({} : Context).classPart = none := rfl
  cases complemented with
  | false =>
      have read := tokens_class outside isBody.closed []
      rw [tokens_nil] at read
      rw [classGlob, patternFrom, if_neg (by decide), read]
      simp [Token.pattern, ClassSet.opening, bodyPart]
  | true =>
      have closed : EscapesAll [']'] ('!' :: body) := .plain (by decide) (by decide) isBody.closed
      have complements : tokens { classPart := some .leading } ('!' :: body) =
          .complement :: tokens { classPart := some .interior } body := by
        rw [tokens_member rfl (by decide) (by decide)]
        rfl
      have read := tokens_class outside closed []
      rw [tokens_nil, complements] at read
      rw [classGlob, patternFrom, if_pos rfl, read]
      simp [Token.pattern, ClassSet.opening, bodyPart]

private theorem escapePattern_ne_caret (inClass : Bool) (escaped : Char) :
    escapePattern inClass escaped ≠ ['^'] := by
  intro caret
  by_cases special : escaped = '^'
  · subst special
    cases inClass with
    | false | true => simp [escapePattern, isPunctuation] at caret
  unfold escapePattern at caret
  repeat' split at caret
  all_goals simp [special] at caret

/-- No token but a raw `^` is written as one. -/
theorem Writes.head?_ne_caret {content : List Token} {rest : List Entry}
    (writes : Writes content rest) (notCaret : rest.head? ≠ some (.raw '^')) :
    ∀ token ∈ content.head?, token.pattern ≠ ['^'] := by
  intro token isHead caret
  cases writes with
  | nil => cases isHead
  | escaped c =>
      cases isHead
      exact escapePattern_ne_caret true c caret
  | @raw guarded c =>
      cases isHead
      cases guarded with
      | true => simp [Token.pattern] at caret
      | false =>
          simp only [Token.pattern, Bool.false_eq_true, if_false, List.cons.injEq, and_true]
            at caret
          exact notCaret (by rw [caret]; rfl)

/-- The expression of a glob that is one class. -/
theorem exists_sets_of_compile (isBody : IsClassBody complemented body)
    {compiled : CompiledRegex}
    (compiles : compile (classGlob complemented body) true = .ok compiled) :
    ∃ sets, compiled.regex =
        Regex.anchored [.atom (.bracket complemented (.ofMembers sets))] ∧
      List.Forall₂ Member.ReadsAs
        (members (tokens { classPart := some (bodyPart complemented) } body)) sets := by
  obtain ⟨regex, parsed, _, rfl⟩ := compile_anchored_eq_ok_iff.mp compiles
  have writes := writes_tokens isBody.closed isBody.head?_ne_mark
  have written : tokens { classPart := some (bodyPart complemented) } body ≠ [] := by
    obtain ⟨c, rest, rfl⟩ := List.exists_cons_of_ne_nil isBody.written
    rw [tokens_cons]
    exact List.cons_ne_nil _ _
  rw [patternFrom_classGlob isBody, anchor, Regex.parse_enclosed] at parsed
  obtain ⟨last, ran, finished⟩ := bind_eq_ok parsed
  obtain ⟨position, sets, rfl, reads⟩ := run_bracket (Or.inl rfl) written
    (lists_of_mem_tokens isBody.closed isBody.head?_ne_mark) writes.isChain
    (fun plain => writes.head?_ne_caret
      (mt (head?_entries_eq_raw_iff (by decide) body).mp (isBody.plain plain).2)) ran
  cases finished
  exact ⟨sets, rfl, reads⟩

end

end Glob

namespace Matcher

/-- A class matches the characters that its body lists, and a complemented one all
others. -/
theorem isMatch_classGlob {complemented : Bool} {body : Text} {matcher : Matcher}
    (isBody : Glob.IsClassBody complemented body)
    (plain : Glob.negations (Glob.classGlob complemented body) = [])
    (built : ofGlob (Glob.classGlob complemented body) true = .ok matcher) (x : Char) :
    matcher.isMatch [x] = true ↔ Glob.lists body x ≠ complemented := by
  obtain ⟨compiles, byRegex⟩ := isMatch_of_plain plain built
  obtain ⟨sets, anchored, reads⟩ := Glob.exists_sets_of_compile isBody compiles
  have spells := (Glob.writes_tokens isBody.closed isBody.head?_ne_mark).members
  have listed := Glob.contains_of_reads reads spells x
  rw [byRegex, Regex.isMatch_of_anchored anchored, Regex.spansItems_singleton]
  simp [Regex.Spans, Regex.Atom.accepts, ClassSet.contains, listed, Glob.lists]

set_option maxRecDepth 4096 in
/-- Of the two dashes the first one is listed, and the second one starts a range. -/
theorem isMatch_classGlob_dashes :
    let body := "+--.-\\d&&[b-d".toList
    ∃ matcher, ofGlob (Glob.classGlob true body) true = .ok matcher ∧
      matcher.isMatch ['c'] = false ∧ matcher.isMatch ['-'] = false ∧
      matcher.isMatch [','] = true := by
  intro body
  have closed : Glob.EscapesAll [']'] body := by
    repeat first
      | exact .nil
      | apply Glob.EscapesAll.escape
      | apply Glob.EscapesAll.plain (by decide) (by decide)
  have isBody : Glob.IsClassBody true body := ⟨by decide, closed, fun plain => by cases plain⟩
  have plain : Glob.negations (Glob.classGlob true body) = [] := by
    simp only [body]
    cbv
  have accepted : (ofGlob "[!+--.-\\d&&[b-d]".toList true).isOk = true := by cbv
  obtain ⟨matcher, built⟩ : ∃ matcher, ofGlob (Glob.classGlob true body) true = .ok matcher :=
    exists_of_isOk accepted
  have isListed : ∀ x, Glob.lists body x = true → matcher.isMatch [x] = false := by
    intro x listed
    apply Bool.eq_false_iff.mpr
    exact fun matched => (isMatch_classGlob isBody plain built x).mp matched listed
  have lists : Glob.lists body 'c' = true ∧ Glob.lists body '-' = true ∧
      Glob.lists body ',' = false := by
    simp only [body]
    cbv
  refine ⟨matcher, built, isListed 'c' lists.1, isListed '-' lists.2.1, ?_⟩
  apply (isMatch_classGlob isBody plain built ',').mpr
  rw [lists.2.2]
  decide

end Matcher

end ShellGlob
