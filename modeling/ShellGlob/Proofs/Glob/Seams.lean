import ShellGlob.Proofs.Glob.ClassOverlap

/-!
# Seams between texts

The last token of a text may grow into what is written behind it.  It does so whenever it
can, so two texts in a row are read one after the other exactly if the last token of the
first does not grow (`tokens_append_iff`).

Behind a text that leaves nothing open the other one is read as on its own, and few tokens
can grow there: a backslash, a star or two, and the mark of an extended group
(`Separate`).  Which token is the last one depends on the whole text before it: `***` ends
in a single star, and `****` does not.  Where nothing grows, the pattern of the whole is
those of the two texts in a row (`pattern?_append`).
-/

namespace ShellGlob.Glob

section

variable {context : Context} {c d : Char} {rest more : Text}

theorem Context.classPart_eq_none_of_read {token : Token} (notEscape : c ≠ '\\')
    (read : context.read c rest = token) (outside : token.ofClass = false) :
    context.classPart = none := by
  apply Context.classPart_eq_none
  apply Bool.eq_false_iff.mpr
  intro inside
  have ofClass := Context.ofClass_read_inClass inside notEscape rest
  rw [read, outside] at ofClass
  cases ofClass

theorem Context.eq_of_read_literal {listed : Char} (read : context.read c rest = .literal listed) :
    c = listed ∧ c ≠ '\\' := by
  have whole := context.source_read_append c rest
  rw [read, Token.source, List.singleton_append] at whole
  obtain ⟨rfl, -⟩ := List.cons.inj whole
  refine ⟨rfl, ?_⟩
  rintro rfl
  cases rest
  all_goals simp [Context.read, Token.readEscape] at read

/-- The characters `?` and `*` never stand for themselves. -/
theorem Context.ne_of_read_literal {listed : Char} (read : context.read c rest = .literal listed) :
    listed ≠ '?' ∧ listed ≠ '*' := by
  obtain ⟨rfl, notEscape⟩ := Context.eq_of_read_literal read
  have outside := Context.classPart_eq_none_of_read notEscape read rfl
  cases opened : Multiplicity.opening? c rest with
  | some multiplicity =>
      rw [Context.read_opening notEscape outside opened] at read
      cases read
  | none =>
      rw [Context.read_plain notEscape outside opened] at read
      constructor
      · rintro rfl
        cases read
      · rintro rfl
        have star : Token.readStar rest = .literal '*' := read
        unfold Token.readStar at star
        split at star
        all_goals cases star

private theorem Context.read_dash_of_member {guarded : Bool}
    (read : context.read '-' [] = .member guarded '-') (more : Text) :
    guarded = false ∧ context.read '-' ('-' :: more) = .member true '-' := by
  cases location : context.classPart with
  | none =>
      rw [Context.read_plain_of_not_mark (by decide) location rfl] at read
      cases read
  | some part =>
      rw [Context.read_member location (by decide)] at read ⊢
      cases read
      exact ⟨rfl, rfl⟩

/-- A token that can grow is not read before what it grows into. -/
theorem Context.read_ne_of_growsBefore {last : Token} (alone : tokens context (c :: rest) = [last])
    (grows : last.growsBefore d = true) : context.read c (rest ++ d :: more) ≠ last := by
  have source := flatMap_source_tokens context (c :: rest)
  rw [alone, List.flatMap_singleton] at source
  have read : context.read c rest = last := by
    rw [tokens_cons] at alone
    exact (List.cons.inj alone).1
  cases last with
  | backslash inClass =>
      cases source
      simp [Context.read, Token.readEscape]
  | member guarded listed =>
      cases source
      obtain ⟨rfl, rfl⟩ : c = '-' ∧ d = '-' := by simpa [Token.growsBefore] using grows
      obtain ⟨rfl, guards⟩ := Context.read_dash_of_member read more
      simp [guards]
  | tree slash =>
      obtain ⟨rfl, rfl⟩ : slash = false ∧ d = '/' := by simpa [Token.growsBefore] using grows
      cases source
      have outside := Context.classPart_eq_none_of_read (by decide) read rfl
      have longer : context.read '*' ('*' :: '/' :: more) = .tree true :=
        Context.read_star_star (by simp [Context.inClass, outside])
      simp [longer]
  | star =>
      cases source
      have outside := Context.classPart_eq_none_of_read (by decide) read rfl
      have outsideToo : context.inClass = false := by simp [Context.inClass, outside]
      rcases (by simpa [Token.growsBefore] using grows : d = '*' ∨ d = '(') with rfl | rfl
      · simp [Context.read_star_star outsideToo]
      · simp [Context.read_star_paren outsideToo]
  | one =>
      cases source
      obtain rfl : d = '(' := by simpa [Token.growsBefore] using grows
      have outside := Context.classPart_eq_none_of_read (by decide) read rfl
      have opened : context.read '?' ('(' :: more) = .groupOpen .zeroOrOne :=
        Context.read_opening (by decide) outside rfl
      simp [opened]
  | literal listed =>
      cases source
      obtain ⟨isMark, rfl⟩ : (Multiplicity.ofMark? c).isSome = true ∧ d = '(' := by
        simpa [Token.growsBefore] using grows
      have notEscape := (Context.eq_of_read_literal read).2
      have outside := Context.classPart_eq_none_of_read notEscape read rfl
      obtain ⟨multiplicity, mark⟩ := Option.isSome_iff_exists.mp isMark
      have opened : context.read c ('(' :: more) = .groupOpen multiplicity :=
        Context.read_opening notEscape outside (by simpa [Multiplicity.opening?])
      simp [opened]
  | _ => cases grows

end

/-- Two texts in a row are read one after the other exactly if the last token of the first
does not grow. -/
theorem tokens_append_iff (context : Context) (front rest : Text) :
    tokens context (front ++ rest) =
        tokens context front ++ tokens (context.afterAll (tokens context front)) rest ↔
      ∀ last ∈ (tokens context front).getLast?, ∀ c ∈ rest.head?, last.growsBefore c = false := by
  refine ⟨?_, tokens_append⟩
  intro whole last isLast d isNext
  obtain ⟨more, rfl⟩ := List.head?_eq_some_iff.mp isNext
  obtain ⟨before, read⟩ := List.getLast?_eq_some_iff.mp isLast
  obtain ⟨tail, alone, readOn⟩ := tokens_append_of_eq read
  cases tail with
  | nil =>
      rw [tokens_nil] at alone
      cases alone
  | cons c tail =>
      rw [readOn, read, List.append_assoc, List.append_cancel_left_eq, List.cons_append,
        tokens_cons] at whole
      apply Bool.eq_false_iff.mpr
      intro grows
      exact Context.read_ne_of_growsBefore alone grows (List.cons.inj whole).1

/-- No token of the first text reaches into the second one. -/
structure Separate (front rest : Text) : Prop where
  /-- A backslash that ends the text would escape the next character. -/
  backslash : ∀ inClass, (tokens {} front).getLast? = some (.backslash inClass) → rest = []
  /-- A single star would become `**` or open a group. -/
  star : (tokens {} front).getLast? = some .star →
    rest.head? ≠ some '*' ∧ rest.head? ≠ some '('
  /-- The other marks would open a group. -/
  mark : (tokens {} front).getLast? ∈ [some .one, some (.literal '+'), some (.literal '@')] →
    rest.head? ≠ some '('
  /-- A `**` would take a slash along. -/
  tree : (tokens {} front).getLast? = some (.tree false) → rest.head? ≠ some '/'

instance Separate.decidable (front rest : Text) : Decidable (Separate front rest) :=
  decidable_of_iff
    ((∀ inClass, (tokens {} front).getLast? = some (.backslash inClass) → rest = []) ∧
      ((tokens {} front).getLast? = some .star →
        rest.head? ≠ some '*' ∧ rest.head? ≠ some '(') ∧
      ((tokens {} front).getLast? ∈ [some .one, some (.literal '+'), some (.literal '@')] →
        rest.head? ≠ some '(') ∧
      ((tokens {} front).getLast? = some (.tree false) → rest.head? ≠ some '/'))
    ⟨fun ⟨backslash, star, mark, tree⟩ => ⟨backslash, star, mark, tree⟩,
      fun separate => ⟨separate.backslash, separate.star, separate.mark, separate.tree⟩⟩

section

variable {front rest : Text}

/-- The last token of a text that leaves no class open is no member of a class. -/
theorem getLast?_tokens_ne_member
    (settled : ({} : Context).afterAll (tokens {} front) = {}) (guarded : Bool) (listed : Char) :
    (tokens {} front).getLast? ≠ some (.member guarded listed) := by
  intro isLast
  obtain ⟨before, read⟩ := List.getLast?_eq_some_iff.mp isLast
  rw [read, Context.afterAll_append] at settled
  cases settled

private theorem ne_of_getLast?_literal {context : Context} {listed : Char}
    (isLast : (tokens context front).getLast? = some (.literal listed)) :
    listed ≠ '?' ∧ listed ≠ '*' := by
  obtain ⟨before, read⟩ := List.getLast?_eq_some_iff.mp isLast
  obtain ⟨c, behind, same⟩ := exists_read_of_append read
  exact Context.ne_of_read_literal same.symm

theorem separate_iff (settled : ({} : Context).afterAll (tokens {} front) = {}) :
    Separate front rest ↔
      ∀ last ∈ (tokens {} front).getLast?, ∀ c ∈ rest.head?, last.growsBefore c = false := by
  constructor
  · intro separate last isLast c isNext
    rw [Option.mem_def] at isLast isNext
    cases last with
    | backslash inClass =>
        rw [separate.backslash inClass isLast] at isNext
        cases isNext
    | member guarded listed => exact absurd isLast (getLast?_tokens_ne_member settled _ _)
    | tree slash =>
        cases slash with
        | true => rfl
        | false =>
            have notSlash := separate.tree isLast
            rw [isNext] at notSlash
            simpa [Token.growsBefore] using notSlash
    | star =>
        have apart := separate.star isLast
        rw [isNext] at apart
        simpa [Token.growsBefore] using apart
    | one =>
        have notParen := separate.mark (by simp [isLast])
        rw [isNext] at notParen
        simpa [Token.growsBefore] using notParen
    | literal listed =>
        by_cases isMark : listed = '+' ∨ listed = '@'
        · have notParen := separate.mark (by rcases isMark with rfl | rfl <;> simp [isLast])
          rw [isNext] at notParen
          have different : c ≠ '(' := by simpa using notParen
          simp [Token.growsBefore, different]
        · have others := ne_of_getLast?_literal isLast
          have noMark : Multiplicity.ofMark? listed = none := by
            unfold Multiplicity.ofMark?
            split <;> simp_all
          simp [Token.growsBefore, noMark]
    | _ => rfl
  · intro stays
    simp only [Option.mem_def] at stays
    refine ⟨?_, ?_, ?_, ?_⟩
    · intro inClass isLast
      cases rest with
      | nil => rfl
      | cons c rest => cases stays _ isLast c rfl
    · intro isLast
      refine ⟨fun isNext => ?_, fun isNext => ?_⟩
      all_goals cases stays _ isLast _ isNext
    · intro isMark isNext
      simp only [List.mem_cons, List.not_mem_nil, or_false] at isMark
      rcases isMark with isLast | isLast | isLast
      all_goals cases stays _ isLast _ isNext
    · intro isLast isNext
      cases stays _ isLast _ isNext

end

/-- Behind a text that leaves nothing open another one is read as on its own exactly if no
token reaches across the seam, and then the pattern of both is that of the one before that
of the other. -/
theorem pattern?_append {front rest : Text}
    (settled : ({} : Context).afterAll (tokens {} front) = {}) :
    (tokens {} (front ++ rest) = tokens {} front ++ tokens {} rest ↔ Separate front rest) ∧
      (Separate front rest →
        (pattern? (front ++ rest) false).getD [] =
          (pattern? front false).getD [] ++ (pattern? rest false).getD []) := by
  have exact := tokens_append_iff {} front rest
  rw [settled, ← separate_iff settled] at exact
  refine ⟨exact, ?_⟩
  intro separate
  simp only [getD_pattern?, patternFrom, exact.mpr separate, List.flatMap_append]

/-- The last of the three stars is a token of its own, before which no slash is taken along. -/
theorem pattern?_append_threeStars :
    let front := "\x7ba,@(b|c)\x7d***".toList
    let rest := "/[!*]?(d)".toList
    ({} : Context).afterAll (tokens {} front) = {} ∧ Separate front rest ∧
      (pattern? (front ++ rest) false).getD [] =
        (pattern? front false).getD [] ++ (pattern? rest false).getD [] := by
  intro front rest
  have settled : ({} : Context).afterAll (tokens {} front) = {} := by decide +kernel
  have separate : Separate front rest := by decide +kernel
  exact ⟨settled, separate, (pattern?_append settled).2 separate⟩

end ShellGlob.Glob
