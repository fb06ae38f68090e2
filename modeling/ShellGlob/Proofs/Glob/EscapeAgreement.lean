import ShellGlob.Proofs.Glob.ClassOverlap
import ShellGlob.Proofs.Glob.Variants

/-!
# Escapes in the variants

Backslashes are paired with the characters that they escape three times: where negations
are looked for, where a glob is read, and where one of its variants is read.  Whatever is
open, a reader pairs them from the left (`flatMap_readBytes`), for no token but an escape
reaches over a backslash.  What is left unescaped is then what has an even run of
backslashes before it, by which negations are extracted (`getElem?_pairedBytes_iff`).

No escape reaches into a negation or out of it, nor out of its inner text.  So what a
variant keeps of the glob is escaped there exactly if it is escaped in the glob, and nothing
that is put for a negation is escaped (`escapes_agree`).
-/

namespace ShellGlob.Glob

/-- The bytes of the token, each with whether it is part of an escaped character. -/
def Token.readBytes : Token → List (UInt8 × Bool)
  | .escape _ escaped => ('\\'.toUInt8, false) :: (String.utf8EncodeChar escaped).map (·, true)
  | token => (Text.bytes token.source).map (·, false)

/-- The bytes of a glob as they are read, each with whether it is part of an escaped
character. -/
def readBytes (glob : Text) : List (UInt8 × Bool) :=
  (tokens {} glob).flatMap Token.readBytes

/-- As `readBytes`, from the backslashes alone. -/
def pairedBytes : Text → List (UInt8 × Bool)
  | [] => []
  | c :: rest =>
      if c = '\\' then
        match rest with
        | [] => [('\\'.toUInt8, false)]
        | escaped :: behind =>
            ('\\'.toUInt8, false) ::
              ((String.utf8EncodeChar escaped).map (·, true) ++ pairedBytes behind)
      else (String.utf8EncodeChar c).map (·, false) ++ pairedBytes rest

section

variable {c : Char} {front : Text}

theorem pairedBytes_escape (escaped : Char) (rest : Text) :
    pairedBytes ('\\' :: escaped :: rest) =
      ('\\'.toUInt8, false) ::
        ((String.utf8EncodeChar escaped).map (·, true) ++ pairedBytes rest) := by
  simp [pairedBytes]

theorem pairedBytes_cons (notEscape : c ≠ '\\') (rest : Text) :
    pairedBytes (c :: rest) = (String.utf8EncodeChar c).map (·, false) ++ pairedBytes rest := by
  rw [pairedBytes.eq_def]
  simp [notEscape]

private theorem pairedBytes_append_of_not_mem (plain : '\\' ∉ front) (rest : Text) :
    pairedBytes (front ++ rest) = front.bytes.map (·, false) ++ pairedBytes rest := by
  induction front with
  | nil => rfl
  | cons c front ih =>
      rw [List.mem_cons, not_or] at plain
      rw [List.cons_append, pairedBytes_cons (Ne.symm plain.1), ih plain.2, Text.bytes_cons,
        List.map_append, List.append_assoc]

theorem pairedBytes_append (paired : escapesPaired front = true) (rest : Text) :
    pairedBytes (front ++ rest) = pairedBytes front ++ pairedBytes rest := by
  fun_induction escapesPaired front with
  | case1 => rfl
  | case2 c =>
      have notEscape : c ≠ '\\' := by simpa using paired
      rw [List.singleton_append, pairedBytes_cons notEscape, pairedBytes_cons notEscape]
      simp [pairedBytes]
  | case3 escaped front ih =>
      simp only [List.cons_append, pairedBytes_escape, ih paired, List.append_assoc]
  | case4 c d front notEscape ih =>
      rw [List.cons_append, pairedBytes_cons notEscape, ih paired, pairedBytes_cons notEscape,
        List.append_assoc]

private theorem Token.readBytes_of_not_mem {token : Token} (plain : '\\' ∉ token.source) :
    token.readBytes = (Text.bytes token.source).map (·, false) := by
  cases token with
  | escape inClass escaped => simp [Token.source] at plain
  | _ => rfl

/-- Wherever a text is read, its backslashes are paired from the left. -/
theorem flatMap_readBytes (context : Context) (text : Text) :
    (tokens context text).flatMap Token.readBytes = pairedBytes text := by
  induction context, text using tokens.induct with
  | case1 context =>
      rw [tokens_nil]
      rfl
  | case2 context c rest token ih =>
      rw [tokens_cons, List.flatMap_cons, ih]
      by_cases escape : c = '\\'
      · subst escape
        cases rest with
        | nil => rfl
        | cons escaped rest => exact (pairedBytes_escape escaped rest).symm
      · have plain : '\\' ∉ token.source := Context.escape_not_mem_source_read escape
        have whole := context.source_read_append c rest
        rw [Token.readBytes_of_not_mem plain, ← pairedBytes_append_of_not_mem plain, whole]

private theorem map_fst_pairedBytes (text : Text) :
    (pairedBytes text).map Prod.fst = text.bytes := by
  fun_induction pairedBytes text with
  | case1 => rfl
  | case2 => rfl
  | case3 escaped behind ih =>
      simp [ih, Function.comp_def, utf8EncodeChar_of_ascii]
  | case4 c rest notEscape ih => simp [ih, Function.comp_def]

theorem length_pairedBytes (text : Text) : (pairedBytes text).length = text.utf8Length := by
  rw [← Text.length_bytes, ← map_fst_pairedBytes, List.length_map]

end

private theorem getElem?_pairedBytes_append {mark : Char} {front rest : Text}
    (complete : EscapesClosed front) (paired : escapesPaired front = true)
    (here : ∀ place, (pairedBytes front)[place]? = some (mark.toUInt8, false) ↔
      standsAt front.bytes mark place = true)
    (behind : ∀ place, (pairedBytes rest)[place]? = some (mark.toUInt8, false) ↔
      standsAt rest.bytes mark place = true) (place : Nat) :
    (pairedBytes (front ++ rest))[place]? = some (mark.toUInt8, false) ↔
      standsAt (Text.bytes (front ++ rest)) mark place = true := by
  have width : (pairedBytes front).length = front.bytes.length := by
    rw [length_pairedBytes, Text.length_bytes]
  rw [pairedBytes_append paired, Text.bytes_append]
  by_cases inside : place < front.bytes.length
  · rw [List.getElem?_append_left (width ▸ inside), standsAt_append_of_lt inside]
    exact here place
  · obtain ⟨later, rfl⟩ := Nat.exists_eq_add_of_le (Nat.le_of_not_lt inside)
    rw [standsAt_append complete, ← width, List.getElem?_append_right (Nat.le_add_right _ _),
      Nat.add_sub_cancel_left]
    exact behind later

section

variable {mark : Char} (ascii : mark.toNat ≤ 0x7f)

include ascii

private theorem getElem?_pairedBytes_char (c : Char) (place : Nat) :
    (pairedBytes [c])[place]? = some (mark.toUInt8, false) ↔
      standsAt (Text.bytes [c]) mark place = true := by
  have single : pairedBytes [c] = (String.utf8EncodeChar c).map (·, false) := by
    by_cases escape : c = '\\'
    · rw [escape]
      rfl
    · rw [pairedBytes_cons escape]
      exact List.append_nil _
  rw [single, standsAt_char ascii, decide_eq_true_iff, List.getElem?_map]
  by_cases same : c = mark
  · subst same
    rw [utf8EncodeChar_of_ascii ascii]
    cases place with
    | zero => simp
    | succ place => simp
  · have different : (String.utf8EncodeChar c)[place]? ≠ some mark.toUInt8 :=
      fun found => not_mem_utf8EncodeChar ascii same (List.mem_of_getElem? found)
    simp [same, different]

private theorem getElem?_pairedBytes_escape (notEscape : mark ≠ '\\') (escaped : Char)
    (place : Nat) :
    (pairedBytes ['\\', escaped])[place]? = some (mark.toUInt8, false) ↔
      standsAt (Text.bytes ['\\', escaped]) mark place = true := by
  rw [standsAt_escape ascii notEscape, pairedBytes_escape]
  refine iff_of_false ?_ Bool.false_ne_true
  cases place with
  | zero =>
      have different : mark.toUInt8 ∉ ['\\'.toUInt8] :=
        not_mem_utf8EncodeChar ascii (Ne.symm notEscape)
      simpa [eq_comm] using different
  | succ place => simp [pairedBytes]

/-- A byte is read as an unescaped character exactly if it is one by the run of backslashes
before it. -/
theorem getElem?_pairedBytes_iff (notEscape : mark ≠ '\\') (text : Text) (place : Nat) :
    (pairedBytes text)[place]? = some (mark.toUInt8, false) ↔
      standsAt text.bytes mark place = true := by
  induction text using pairedBytes.induct generalizing place with
  | case1 => simp [pairedBytes, standsAt]
  | case2 => exact getElem?_pairedBytes_char ascii '\\' place
  | case3 escaped behind ih =>
      exact getElem?_pairedBytes_append (escapedAt_escape escaped) rfl
        (getElem?_pairedBytes_escape ascii notEscape escaped) ih place
  | case4 c rest notBackslash ih =>
      have paired : escapesPaired [c] = true := by simpa [escapesPaired] using notBackslash
      exact getElem?_pairedBytes_append (escapedAt_char notBackslash) paired
        (getElem?_pairedBytes_char ascii c) ih place

end

theorem escapedAt_succ {bytes : List UInt8} {place : Nat} {byte : UInt8}
    (found : bytes[place]? = some byte) (notEscape : byte ≠ '\\'.toUInt8) :
    escapedAt bytes (place + 1) = false := by
  rw [escapedAt, List.take_add_one, found]
  simp [notEscape]

/-- The characters that make a negation are not escaped. -/
theorem IsNegation.getElem?_pairedBytes {glob : Text} {negation : Negation}
    (sound : IsNegation glob negation) :
    (pairedBytes glob)[negation.start]? = some ('!'.toUInt8, false) ∧
      (pairedBytes glob)[negation.start + 1]? = some ('('.toUInt8, false) ∧
      (pairedBytes glob)[negation.stop]? = some (')'.toUInt8, false) := by
  have opens := sound.closed.opens
  rw [opensAt, Bool.and_eq_true, decide_eq_true_iff] at opens
  have mark : glob.bytes[negation.start]? = some '!'.toUInt8 := by
    have stands := opens.1
    rw [standsAt, Bool.and_eq_true, decide_eq_true_iff] at stands
    exact stands.1
  have opening : standsAt glob.bytes '(' (negation.start + 1) = true := by
    rw [standsAt, opens.2, escapedAt_succ mark (by decide)]
    simp
  have closing := sound.closed.closes.closing
  exact ⟨(getElem?_pairedBytes_iff (by decide) (by decide) glob _).mpr opens.1,
    (getElem?_pairedBytes_iff (by decide) (by decide) glob _).mpr opening,
    (getElem?_pairedBytes_iff (by decide) (by decide) glob _).mpr closing⟩

/-- The places of the bytes of a text that is at an offset. -/
def places (offset : Nat) (text : Text) : List (Option Nat) :=
  (List.range' offset text.utf8Length).map some

/-- For each byte of what stands for a negation the place in the glob that it was kept
from, if it was. -/
def keptIn (expanded : Bool) (offset : Nat) (inner : Text) : List (Option Nat) :=
  if expanded then none :: none :: (places (offset + 2) inner ++ [none]) else [none]

/-- For each byte of a variant the place in the glob that it was kept from, if it was, from
the negation of number `index` on.  The first piece is at `offset`. -/
def keptFrom (expansion : Option Nat) : (index offset : Nat) → List Piece → List (Option Nat)
  | _, _, [] => []
  | index, offset, piece :: rest =>
      let next := offset + piece.source.utf8Length
      match piece with
      | .text content => places offset content ++ keptFrom expansion index next rest
      | .negation inner =>
          keptIn (expansion = some index) offset inner ++
            keptFrom expansion (index + 1) next rest

/-- How a byte of a variant is read: as the byte of the glob that it was kept from, and
unescaped if it was put for a negation. -/
inductive ReadAlike (read : List (UInt8 × Bool)) : Option Nat → UInt8 × Bool → Prop where
  | kept {place : Nat} {byte : UInt8 × Bool} :
      read[place]? = some byte → ReadAlike read (some place) byte
  | put {c : Char} : c ∈ ['*', '@', '(', ')'] → ReadAlike read none (c.toUInt8, false)

theorem readAlike_range (before front after : List (UInt8 × Bool)) :
    List.Forall₂ (ReadAlike (before ++ (front ++ after)))
      ((List.range' before.length front.length).map some) front := by
  induction front generalizing before with
  | nil => exact .nil
  | cons byte front ih =>
      have later := ih (before ++ [byte])
      rw [List.append_assoc, List.length_append, List.length_singleton] at later
      exact .cons (.kept (by simp)) later

section

variable {content inner rest : Text}

private theorem readAlike_text (paired : escapesPaired content = true) (rest : Text)
    (before : List (UInt8 × Bool)) :
    List.Forall₂ (ReadAlike (before ++ pairedBytes (content ++ rest)))
      (places before.length content) (pairedBytes content) := by
  rw [pairedBytes_append paired, places, ← length_pairedBytes]
  exact readAlike_range before _ _

theorem escapesPaired_group {mark : Char} (notEscape : mark ≠ '\\')
    (paired : escapesPaired inner = true) :
    escapesPaired (mark :: '(' :: (inner ++ [')'])) = true := by
  rw [escapesPaired_cons notEscape, escapesPaired_cons (by decide),
    escapesPaired_append_of_paired paired]
  rfl

private theorem pairedBytes_group {mark : Char} (notEscape : mark ≠ '\\')
    (paired : escapesPaired inner = true) :
    pairedBytes (mark :: '(' :: (inner ++ [')'])) =
      (String.utf8EncodeChar mark).map (·, false) ++ ('('.toUInt8, false) ::
        (pairedBytes inner ++ [(')'.toUInt8, false)]) := by
  rw [pairedBytes_cons notEscape, pairedBytes_cons (by decide), pairedBytes_append paired]
  rfl

private theorem escapesPaired_replacement (paired : escapesPaired inner = true) (expanded : Bool) :
    escapesPaired (replacement expanded inner) = true := by
  cases expanded with
  | false => rfl
  | true => exact escapesPaired_group (by decide) paired

private theorem pairedBytes_negation (paired : escapesPaired inner = true) (rest : Text) :
    pairedBytes ((Piece.negation inner).source ++ rest) =
      pairedBytes (Piece.negation inner).source ++ pairedBytes rest :=
  pairedBytes_append (escapesPaired_group (by decide) paired) rest

private theorem readAlike_replacement (paired : escapesPaired inner = true) (expanded : Bool)
    (before : List (UInt8 × Bool)) (rest : Text) :
    List.Forall₂ (ReadAlike (before ++ pairedBytes ((Piece.negation inner).source ++ rest)))
      (keptIn expanded before.length inner) (pairedBytes (replacement expanded inner)) := by
  cases expanded with
  | false => exact .cons (.put (by decide)) .nil
  | true =>
      let opening := [('!'.toUInt8, false), ('('.toUInt8, false)]
      have source : pairedBytes (Piece.negation inner).source =
          opening ++ (pairedBytes inner ++ [(')'.toUInt8, false)]) :=
        pairedBytes_group (by decide) paired
      have group : pairedBytes (replacement true inner) =
          ('@'.toUInt8, false) :: ('('.toUInt8, false) ::
            (pairedBytes inner ++ [(')'.toUInt8, false)]) :=
        pairedBytes_group (by decide) paired
      have whole : before ++ pairedBytes ((Piece.negation inner).source ++ rest) =
          (before ++ opening) ++
            (pairedBytes inner ++ (')'.toUInt8, false) :: pairedBytes rest) := by
        simp [pairedBytes_negation paired, source]
      have within := readAlike_range (before ++ opening) (pairedBytes inner)
        ((')'.toUInt8, false) :: pairedBytes rest)
      rw [← whole, List.length_append, length_pairedBytes] at within
      rw [group]
      exact .cons (.put (by decide)) (.cons (.put (by decide))
        (List.rel_append within (.cons (.put (by decide)) .nil)))

/-- Reading goes on behind a piece as it does behind what becomes of the piece. -/
theorem readAlike_append {expansion : Option Nat} {next : Nat} {source becomes : Text}
    {kept : List (Option Nat)} {before : List (UInt8 × Bool)}
    (pairedSource : escapesPaired source = true) (paired : escapesPaired becomes = true)
    (here : List.Forall₂ (ReadAlike (before ++ pairedBytes (source ++ rest))) kept
      (pairedBytes becomes))
    (behind : ∀ before, List.Forall₂ (ReadAlike (before ++ pairedBytes rest))
      (keptFrom expansion next before.length (pieces rest))
      (pairedBytes (resolveFrom expansion next (pieces rest)))) :
    List.Forall₂ (ReadAlike (before ++ pairedBytes (source ++ rest)))
      (kept ++ keptFrom expansion next (before.length + source.utf8Length) (pieces rest))
      (pairedBytes (becomes ++ resolveFrom expansion next (pieces rest))) := by
  have later := behind (before ++ pairedBytes source)
  rw [List.append_assoc, ← pairedBytes_append pairedSource, List.length_append,
    length_pairedBytes] at later
  rw [pairedBytes_append paired]
  exact List.rel_append here later

end

/-- What a variant has from the glob is read alike in both, where `before` is in front of
the glob. -/
theorem readAlike_resolveFrom (expansion : Option Nat) (glob : Text) (index : Nat)
    (before : List (UInt8 × Bool)) :
    List.Forall₂ (ReadAlike (before ++ pairedBytes glob))
      (keptFrom expansion index before.length (pieces glob))
      (pairedBytes (resolveFrom expansion index (pieces glob))) := by
  induction glob using pieces_induction generalizing index before with
  | nil =>
      rw [pieces_nil]
      exact .nil
  | negation inner behind split ih =>
      have paired := escapesPaired_of_splitAtClosing split
      rw [pieces_source_negation split]
      exact readAlike_append (escapesPaired_group (by decide) paired)
        (escapesPaired_replacement paired _) (readAlike_replacement paired _ before behind)
        (ih (index + 1))
  | escape escaped behind ih =>
      have paired : escapesPaired ['\\', escaped] = true := rfl
      rw [pieces_escape]
      exact readAlike_append paired paired (readAlike_text paired behind before) (ih index)
  | backslash =>
      rw [pieces_backslash]
      exact readAlike_range before [('\\'.toUInt8, false)] []
  | char c rest notEscape noNegation ih =>
      have paired : escapesPaired [c] = true := by simpa [escapesPaired] using notEscape
      rw [pieces_cons notEscape noNegation]
      exact readAlike_append paired paired (readAlike_text paired rest before) (ih index)

/-- The byte at a place is outside of the negation, or within its parentheses if the
negation is expanded. -/
def Negation.Spares (negation : Negation) (expanded : Prop) (place : Nat) : Prop :=
  place < negation.start ∨ negation.stop < place ∨
    expanded ∧ negation.start + 1 < place ∧ place < negation.stop

theorem some_mem_places_iff {offset place : Nat} {text : Text} :
    some place ∈ places offset text ↔ offset ≤ place ∧ place < offset + text.utf8Length := by
  simp [places]

private theorem some_mem_keptIn_iff {expanded : Bool} {offset place : Nat} {inner : Text} :
    some place ∈ keptIn expanded offset inner ↔
      expanded = true ∧ offset + 2 ≤ place ∧ place < offset + 2 + inner.utf8Length := by
  cases expanded with
  | false => simp [keptIn]
  | true => simp [keptIn, some_mem_places_iff]

private theorem le_start_of_mem_negationsFrom {offset : Nat} {cutUp : List Piece}
    {negation : Negation}
    (member : negation ∈ negationsFrom offset cutUp) : offset ≤ negation.start := by
  rw [negationsFrom_eq_located] at member
  exact (places_of_mem_located member).1

theorem spares_iff {offset place : Nat} {inner : Text} {expanded : Prop} :
    let next := offset + (Piece.negation inner).source.utf8Length
    Negation.Spares ⟨offset, next - 1, inner⟩ expanded place ↔
      place < offset ∨ next ≤ place ∨
        expanded ∧ offset + 2 ≤ place ∧ place < offset + 2 + inner.utf8Length := by
  intro next
  have width : next = offset + (2 + inner.utf8Length + 1) :=
    congrArg (offset + ·) (utf8Length_source_negation inner)
  have beyond : next - 1 < place ↔ next ≤ place := by omega
  have within : offset + 1 < place ∧ place < next - 1 ↔
      offset + 2 ≤ place ∧ place < offset + 2 + inner.utf8Length := by omega
  exact or_congr_right (or_congr beyond (and_congr_right fun _ => within))

/-- All is kept that no negation takes away. -/
theorem some_mem_keptFrom_iff {expansion : Option Nat} {index offset place : Nat}
    {cutUp : List Piece} :
    some place ∈ keptFrom expansion index offset cutUp ↔
      (offset ≤ place ∧ place < offset + Text.utf8Length (cutUp.flatMap Piece.source)) ∧
        ∀ (number : Nat) (negation : Negation),
          (negationsFrom offset cutUp)[number]? = some negation →
          negation.Spares (expansion = some (index + number)) place := by
  induction cutUp generalizing index offset with
  | nil => simp [keptFrom]
  | cons piece rest ih =>
      let next := offset + Text.utf8Length piece.source
      -- The later negations start behind the piece, so they take nothing of it.
      have sparedBefore : place < next → ∀ {number : Nat} {negation : Negation} {expanded : Prop},
          (negationsFrom next rest)[number]? = some negation → negation.Spares expanded place :=
        fun before _ _ _ found => Or.inl (Nat.lt_of_lt_of_le before
          (le_start_of_mem_negationsFrom (List.mem_of_getElem? found)))
      rw [List.flatMap_cons, Text.utf8Length_append, ← Nat.add_assoc]
      cases piece with
      | text content =>
          rw [keptFrom, List.mem_append, some_mem_places_iff, ih]
          constructor
          · rintro (⟨least, before⟩ | ⟨⟨least, most⟩, spared⟩)
            · exact ⟨⟨least, Nat.lt_add_right _ before⟩, fun _ _ found => sparedBefore before found⟩
            · exact ⟨⟨Nat.le_of_add_right_le least, most⟩, spared⟩
          · rintro ⟨⟨least, most⟩, spared⟩
            rcases Nat.lt_or_ge place next with before | behind
            · exact Or.inl ⟨least, before⟩
            · exact Or.inr ⟨⟨behind, most⟩, spared⟩
      | negation inner =>
          have width : next = offset + (2 + inner.utf8Length + 1) :=
            congrArg (offset + ·) (utf8Length_source_negation inner)
          rw [keptFrom, List.mem_append, some_mem_keptIn_iff, ih, decide_eq_true_iff]
          constructor
          · rintro (⟨expanded, least, most⟩ | ⟨⟨least, most⟩, spared⟩)
            · have before : place < next := by omega
              refine ⟨⟨by omega, Nat.lt_add_right _ before⟩, ?_⟩
              rintro (_ | number) negation found
              · cases found
                exact spares_iff.mpr (Or.inr (Or.inr ⟨expanded, least, most⟩))
              · exact sparedBefore before found
            · refine ⟨⟨Nat.le_of_add_right_le least, most⟩, ?_⟩
              rintro (_ | number) negation found
              · cases found
                exact spares_iff.mpr (Or.inr (Or.inl least))
              · rw [Nat.add_comm number, ← Nat.add_assoc]
                exact spared number negation found
          · rintro ⟨⟨least, most⟩, spared⟩
            rcases spares_iff.mp (spared 0 _ rfl) with front | behind | within
            · exact absurd least (Nat.not_le_of_lt front)
            · refine Or.inr ⟨⟨behind, most⟩, ?_⟩
              intro number negation found
              have later := spared (number + 1) negation found
              rwa [Nat.add_comm number, ← Nat.add_assoc] at later
            · exact Or.inl within

/-- Negations are extracted, replaced and read with the same characters escaped.  Those that
make a negation never are.  Each byte of a variant is kept from the glob and read alike there,
or put for a negation and not escaped; what is kept is all that is outside of the negations
or within the expanded one. -/
theorem escapes_agree (glob : Text) (expansion : Option Nat) :
    let read := readBytes glob
    let kept := keptFrom expansion 0 0 (pieces glob)
    (∀ negation ∈ negations glob,
      read[negation.start]? = some ('!'.toUInt8, false) ∧
        read[negation.start + 1]? = some ('('.toUInt8, false) ∧
        read[negation.stop]? = some (')'.toUInt8, false)) ∧
      List.Forall₂ (ReadAlike read) kept (readBytes (variant glob expansion)) ∧
      ∀ place, some place ∈ kept ↔
        place < glob.utf8Length ∧
          ∀ (index : Nat) (negation : Negation), (negations glob)[index]? = some negation →
            negation.Spares (expansion = some index) place := by
  intro read kept
  have paired : read = pairedBytes glob := flatMap_readBytes {} glob
  refine ⟨?_, ?_, ?_⟩
  · intro negation member
    rw [paired]
    exact ((extracts_negations glob).sound negation member).getElem?_pairedBytes
  · have alike := readAlike_resolveFrom expansion glob 0 []
    rw [List.nil_append, ← paired] at alike
    rw [readBytes, flatMap_readBytes]
    exact alike
  · intro place
    have whole : some place ∈ kept ↔ _ := some_mem_keptFrom_iff
    rw [flatMap_source_pieces] at whole
    simpa [negations] using whole

/-- One `)` of the inner text is escaped and stays so, and the `)` that closes the group is
not. -/
theorem escapes_agree_escapedParenthesis :
    let glob := "\\\\!(a\\)é)\\!b".toList
    let negation : Negation := ⟨2, 9, "a\\)é".toList⟩
    negation ∈ negations glob ∧
      (readBytes glob)[negation.stop]? = some (')'.toUInt8, false) ∧
      (readBytes glob)[6]? = some (')'.toUInt8, true) ∧
      exclusion glob 0 = "\\\\@(a\\)é)\\!b".toList ∧
      List.Forall₂ (ReadAlike (readBytes glob))
        [some 0, some 1, none, none, some 4, some 5, some 6, some 7, some 8, none, some 10,
          some 11, some 12]
        (readBytes (exclusion glob 0)) := by
  intro glob negation
  have member : negation ∈ negations glob := by decide +kernel
  have kept : keptFrom (some 0) 0 0 (pieces glob) =
      [some 0, some 1, none, none, some 4, some 5, some 6, some 7, some 8, none, some 10,
        some 11, some 12] := by
    decide +kernel
  refine ⟨member, ((escapes_agree glob none).1 negation member).2.2, by decide +kernel,
    by decide +kernel, ?_⟩
  rw [← kept]
  exact (escapes_agree glob (some 0)).2.1

end ShellGlob.Glob
