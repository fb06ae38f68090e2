import ShellGlob.Proofs.Glob.Tokens

/-!
# Escapes

A backslash escapes the character behind it, within classes and outside of them.
Where every backslash of a text has such a character (`escapesPaired`), no escape
reaches beyond the text.  A text in which every `]` is escaped (`EscapesAll`) closes
no class, so between the brackets of a class it is read as all of it
(`tokens_class`).
-/

namespace ShellGlob.Glob

/-- Whether every backslash has a character behind it that it escapes. -/
def escapesPaired : Text → Bool
  | [] => true
  | [c] => c ≠ '\\'
  | c :: d :: rest =>
      if c = '\\' then escapesPaired rest else escapesPaired (d :: rest)

theorem escapesPaired_cons {c : Char} (notEscape : c ≠ '\\') (rest : Text) :
    escapesPaired (c :: rest) = escapesPaired rest := by
  cases rest with
  | nil => simp [escapesPaired, notEscape]
  | cons d rest => simp [escapesPaired, notEscape]

theorem escapesPaired_append {front : Text} (plain : '\\' ∉ front)
    (rest : Text) : escapesPaired (front ++ rest) = escapesPaired rest := by
  induction front with
  | nil => rfl
  | cons c front ih =>
      rw [List.mem_cons, not_or] at plain
      rw [List.cons_append, escapesPaired_cons (Ne.symm plain.1), ih plain.2]

theorem escapesPaired_append_of_paired {front : Text} (paired : escapesPaired front = true)
    (rest : Text) : escapesPaired (front ++ rest) = escapesPaired rest := by
  fun_induction escapesPaired front with
  | case1 => rfl
  | case2 c => exact escapesPaired_cons (by simpa using paired) rest
  | case3 escaped front ih =>
      rw [← ih paired]
      simp [escapesPaired]
  | case4 c d front notEscape ih =>
      rw [List.cons_append, escapesPaired_cons notEscape, ih paired]

theorem Context.escape_not_mem_source_read {context : Context} {c : Char}
    {rest : Text} (notEscape : c ≠ '\\') :
    '\\' ∉ (context.read c rest).source := by
  have whole := context.source_read_append c rest
  cases read : context.read c rest with
  | escape inClass escaped | backslash inClass =>
      rw [read] at whole
      simp [Token.source] at whole
      exact absurd whole.1.symm notEscape
  | member guarded listed | literal listed =>
      rw [read] at whole
      simp [Token.source] at whole
      simp [Token.source, whole.1, Ne.symm notEscape]
  | groupOpen multiplicity =>
      cases multiplicity with
      | zeroOrOne | zeroOrMore | oneOrMore | exactlyOne =>
          simp [Token.source, Multiplicity.mark]
  | tree slash =>
      cases slash with
      | false | true => simp [Token.source]
  | _ => simp [Token.source]

theorem Context.read_of_escapesPaired (context : Context) {c : Char}
    {rest : Text} (paired : escapesPaired (c :: rest) = true) :
    (∀ inClass, context.read c rest ≠ .backslash inClass) ∧
      escapesPaired (rest.drop (context.read c rest).lookahead) = true := by
  by_cases escape : c = '\\'
  · subst escape
    cases rest with
    | nil => simp [escapesPaired] at paired
    | cons d rest =>
        constructor
        · simp [Context.read, Token.readEscape]
        · simpa [Context.read, Token.readEscape, Token.lookahead, Token.source,
            escapesPaired] using paired
  · have plain : '\\' ∉ (context.read c rest).source :=
      Context.escape_not_mem_source_read escape
    constructor
    · intro inClass read
      simp [read, Token.source] at plain
    · rw [← context.source_read_append c rest, escapesPaired_append plain] at paired
      exact paired

theorem getLast?_tokens_ne_backslash {context : Context} {text : Text}
    (paired : escapesPaired text = true) (inClass : Bool) :
    (tokens context text).getLast? ≠ some (.backslash inClass) := by
  induction context, text using tokens.induct with
  | case1 context => simp [tokens_nil]
  | case2 context c rest token ih =>
      obtain ⟨notBackslash, pairedRest⟩ :=
        context.read_of_escapesPaired paired
      rw [tokens_cons, List.getLast?_cons]
      cases last : (tokens (context.after (context.read c rest))
          (rest.drop (context.read c rest).lookahead)).getLast? with
      | none => simpa using notBackslash inClass
      | some other =>
          have later : (tokens (context.after (context.read c rest))
              (rest.drop (context.read c rest).lookahead)).getLast? ≠
                some (.backslash inClass) := ih pairedRest
          simpa [last] using later

/-- Before most characters a text is read as it is on its own. -/
theorem tokens_append_of_escapesPaired {context : Context} {front : Text}
    (paired : escapesPaired front = true) {c : Char} (apart : c ∉ ['-', '*', '(', '/'])
    (rest : Text) :
    tokens context (front ++ c :: rest) =
      tokens context front ++ tokens (context.afterAll (tokens context front)) (c :: rest) := by
  apply tokens_append
  intro last isLast next isNext
  cases isNext
  simp only [List.mem_cons, List.not_mem_nil, or_false, not_or] at apart
  cases last with
  | backslash inClass => exact absurd isLast (getLast?_tokens_ne_backslash paired inClass)
  | _ => simp [Token.growsBefore, apart]

/-- Every backslash escapes a character, and so does one before each of the
listed characters: they all are escaped. -/
inductive EscapesAll (listed : List Char) : Text → Prop where
  | nil : EscapesAll listed []
  | escape (escaped : Char) {rest : Text} :
      EscapesAll listed rest → EscapesAll listed ('\\' :: escaped :: rest)
  | plain {c : Char} {rest : Text} :
      c ≠ '\\' → c ∉ listed → EscapesAll listed rest → EscapesAll listed (c :: rest)

section

variable {context : Context} {part : ClassPart} {c : Char} {rest : Text}

theorem Context.read_member (inside : context.classPart = some part)
    (notEscape : c ≠ '\\') :
    context.read c rest = Token.readMember part c rest := by
  simp [Context.read, inside, notEscape]

theorem tokens_escape_inClass (inside : context.classPart = some part)
    (escaped : Char) :
    tokens context ('\\' :: escaped :: rest) =
      .escape true escaped ::
        tokens { context with classPart := some .interior } rest := by
  rw [tokens_cons]
  simp [Context.read, Token.readEscape, Context.inClass, inside, Context.after,
    Token.lookahead, Token.source]

theorem Context.after_readMember (stays : c ≠ ']') :
    context.after (Token.readMember part c rest) =
      { context with classPart := some .interior } := by
  unfold Token.readMember
  rw [if_neg stays]
  split
  · rfl
  split
  · rfl
  split
  · rfl
  · rfl

theorem tokens_member (inside : context.classPart = some part)
    (notEscape : c ≠ '\\') (stays : c ≠ ']') :
    tokens context (c :: rest) =
      Token.readMember part c rest ::
        tokens { context with classPart := some .interior } rest := by
  have single : (Token.readMember part c rest).lookahead = 0 := by
    simp [Token.lookahead, Token.source_readMember]
  rw [tokens_cons, Context.read_member inside notEscape,
    Context.after_readMember stays, single]
  rfl

end

/-- The text between the brackets of a class is read alike whatever is open around
the class. -/
theorem Context.tokens_inClass (context : Context) {part : ClassPart} {text : Text}
    (inside : context.classPart = some part) (stays : EscapesAll [']'] text) :
    tokens context text = tokens { classPart := some part } text := by
  induction stays generalizing context part with
  | nil => rw [tokens_nil, tokens_nil]
  | escape escaped _ ih =>
      have later := @ih { context with classPart := some .interior } _ rfl
      rw [tokens_escape_inClass inside, tokens_escape_inClass rfl, later]
  | plain notEscape notListed _ ih =>
      have notClosing := List.ne_of_not_mem_cons notListed
      have later := @ih { context with classPart := some .interior } _ rfl
      rw [tokens_member inside notEscape notClosing,
        tokens_member rfl notEscape notClosing, later]

private theorem Context.afterAll_tokens_inClass (context : Context) {part : ClassPart} {text : Text}
    (inside : context.classPart = some part) (stays : EscapesAll [']'] text) :
    ∃ behind, context.afterAll (tokens context text) =
      { context with classPart := some behind } := by
  induction stays generalizing context part with
  | nil => exact ⟨part, by rw [tokens_nil, Context.afterAll_nil, ← inside]⟩
  | escape escaped _ ih =>
      rw [tokens_escape_inClass inside]
      exact @ih { context with classPart := some .interior } _ rfl
  | plain notEscape notListed _ ih =>
      have notClosing := List.ne_of_not_mem_cons notListed
      rw [tokens_member inside notEscape notClosing, Context.afterAll_cons,
        Context.after_readMember notClosing]
      exact @ih { context with classPart := some .interior } _ rfl

private theorem EscapesAll.paired {listed : List Char} {text : Text}
    (escapes : EscapesAll listed text) : escapesPaired text = true := by
  induction escapes with
  | nil => rfl
  | escape escaped _ ih => simpa [escapesPaired] using ih
  | plain notEscape _ _ ih => rw [escapesPaired_cons notEscape, ih]

/-- A class is read from its `[` to its `]`, and reading goes on behind it. -/
theorem tokens_class {context : Context} {text : Text}
    (outside : context.classPart = none) (stays : EscapesAll [']'] text)
    (rest : Text) :
    tokens context ('[' :: (text ++ ']' :: rest)) =
      .classOpen :: (tokens { classPart := some .leading } text ++
        .classClose :: tokens context rest) := by
  let inside : Context := { context with classPart := some .leading }
  have opens : tokens context ('[' :: (text ++ ']' :: rest)) =
      .classOpen :: tokens inside (text ++ ']' :: rest) := by
    rw [tokens_cons, Context.read_plain_of_not_mark (by decide) outside rfl]
    rfl
  have goesOn : tokens inside (text ++ ']' :: rest) =
      tokens inside text ++ tokens (inside.afterAll (tokens inside text)) (']' :: rest) :=
    tokens_append_of_escapesPaired stays.paired (by decide) rest
  obtain ⟨behind, stillInside⟩ :=
    inside.afterAll_tokens_inClass rfl stays
  have closes : tokens { context with classPart := some behind } (']' :: rest) =
      .classClose :: tokens context rest := by
    rw [tokens_cons, Context.read_member rfl (by decide)]
    simp [Token.readMember, Context.after, Token.lookahead, Token.source, ← outside]
  rw [opens, goesOn, stillInside, inside.tokens_inClass rfl stays]
  exact congrArg (fun behind => .classOpen :: (_ ++ behind)) closes

end ShellGlob.Glob
