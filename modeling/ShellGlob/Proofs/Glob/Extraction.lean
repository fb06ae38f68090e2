import Mathlib.Data.List.Sort
import Mathlib.Data.Nat.Count
import ShellGlob.Proofs.Glob.Placement
import ShellGlob.Text.Bytes

/-!
# Extracting the negations

The negations of a glob are found in one pass from the left that keeps neither escapes nor
parentheses beyond the next step.  `Extracts` says what they are without any pass: a byte
is escaped if an odd number of backslashes stands directly before it, and a negation ends
where the closers behind its `(` first outnumber the openers.  Exactly one list of
negations is of that kind, and it is the one that the pass reports (`eq_negations_iff`).

Escapes count from the left and runs of backslashes from the right, so all of this rests on
one fact: behind a text that ends in an even run, bytes are escaped as if nothing stood
before them (`escapedAt_append`).
-/

namespace ShellGlob.Glob

/-- Whether an odd number of backslashes stands directly before the byte at a place. -/
def escapedAt (bytes : List UInt8) (place : Nat) : Bool :=
  ((bytes.take place).reverse.takeWhile (· = '\\'.toUInt8)).length % 2 = 1

/-- Whether the byte at a place is that of the character and not escaped. -/
def standsAt (bytes : List UInt8) (c : Char) (place : Nat) : Bool :=
  bytes[place]? = some c.toUInt8 && !escapedAt bytes place

/-- Whether an unescaped `!` with a `(` directly behind it is at a place. -/
def opensAt (bytes : List UInt8) (place : Nat) : Bool :=
  standsAt bytes '!' place && bytes[place + 1]? = some '('.toUInt8

/-- How often the character stands unescaped from one place on and before another. -/
def count (bytes : List UInt8) (c : Char) (start stop : Nat) : Nat :=
  Nat.count (fun place => standsAt bytes c (start + place)) (stop - start)

/-- From `start` on, the unescaped `)` at `stop` is the first one at which closers outnumber
openers by `depth`. -/
structure ClosesAt (bytes : List UInt8) (depth start stop : Nat) : Prop where
  behind : start ≤ stop
  closing : standsAt bytes ')' stop
  outnumbers : count bytes '(' start (stop + 1) + depth ≤ count bytes ')' start (stop + 1)
  first : ∀ place ≤ stop, count bytes ')' start place < count bytes '(' start place + depth

/-- A negation opens at `start`, and the `)` at `stop` closes it. -/
structure Closed (bytes : List UInt8) (start stop : Nat) : Prop where
  opens : opensAt bytes start
  closes : ClosesAt bytes 1 (start + 2) stop

/-- The unescaped parentheses are balanced, and no closer lacks its opener. -/
structure Balanced (bytes : List UInt8) : Prop where
  balanced : count bytes ')' 0 bytes.length = count bytes '(' 0 bytes.length
  above : ∀ place ≤ bytes.length, count bytes ')' 0 place ≤ count bytes '(' 0 place

/-- The glob has this negation where it says. -/
structure IsNegation (glob : Text) (negation : Negation) : Prop where
  closed : Closed glob.bytes negation.start negation.stop
  between : glob.between? (negation.start + 2) negation.stop = some negation.inner
  balanced : Balanced negation.inner.bytes
  bounded : glob.IsBoundary negation.start ∧ glob.IsBoundary negation.stop ∧
    glob.IsBoundary (negation.stop + 1)

/-- What a pass from the left reports: in ascending order, without overlaps, and wherever a
`!(` that closes lies within no negation that starts before it. -/
structure Extracts (glob : Text) (reported : List Negation) : Prop where
  apart : reported.Pairwise fun earlier later => earlier.stop < later.start
  sound : ∀ negation ∈ reported, IsNegation glob negation
  complete : ∀ start stop, Closed glob.bytes start stop →
    (∀ negation ∈ reported, negation.start < start → negation.stop < start) →
    ∃ negation ∈ reported, negation.start = start ∧ negation.stop = stop

section

variable {front rest : List UInt8} {c : Char} {place start stop : Nat}

theorem escapedAt_append (paired : escapedAt front front.length = false) (rest : List UInt8)
    (place : Nat) : escapedAt (front ++ rest) (front.length + place) = escapedAt rest place := by
  unfold escapedAt at paired ⊢
  rw [List.take_length] at paired
  rw [List.take_length_add_append, List.reverse_append, List.takeWhile_append]
  split
  · next all =>
      -- The run goes on into the front, where its length is even.
      rw [List.length_append, ← all]
      congr 1
      simp only [decide_eq_false_iff_not] at paired
      apply propext
      omega
  · rfl

private theorem escapedAt_append_of_le (inside : place ≤ front.length) (rest : List UInt8) :
    escapedAt (front ++ rest) place = escapedAt front place := by
  rw [escapedAt, List.take_append_of_le_length inside]
  rfl

/-- Nothing is escaped behind bytes that are no backslashes. -/
theorem escapedAt_append_of_not_mem (front : List UInt8) {last : List UInt8} (nonempty : last ≠ [])
    (plain : '\\'.toUInt8 ∉ last) : escapedAt (front ++ last) (front ++ last).length = false := by
  have none : last.reverse.takeWhile (· = '\\'.toUInt8) = [] := by
    apply List.eq_nil_iff_forall_not_mem.mpr
    intro byte member
    have same := List.mem_takeWhile_imp member
    have inside := List.mem_reverse.mp ((List.takeWhile_sublist _).mem member)
    simp only [decide_eq_true_eq] at same
    exact plain (same ▸ inside)
  have shorter : ¬ ([] : List UInt8).length = last.reverse.length := by
    simpa [eq_comm] using nonempty
  rw [escapedAt, List.take_length, List.reverse_append, List.takeWhile_append, none,
    if_neg shorter]
  rfl

theorem standsAt_append (paired : escapedAt front front.length = false) (rest : List UInt8)
    (c : Char) (place : Nat) :
    standsAt (front ++ rest) c (front.length + place) = standsAt rest c place := by
  rw [standsAt, escapedAt_append paired, List.getElem?_append_right (Nat.le_add_right _ _),
    Nat.add_sub_cancel_left]
  rfl

theorem standsAt_append_of_lt (inside : place < front.length) (rest : List UInt8) (c : Char) :
    standsAt (front ++ rest) c place = standsAt front c place := by
  rw [standsAt, escapedAt_append_of_le (Nat.le_of_lt inside), List.getElem?_append_left inside]
  rfl

theorem opensAt_append (paired : escapedAt front front.length = false) (rest : List UInt8)
    (place : Nat) : opensAt (front ++ rest) (front.length + place) = opensAt rest place := by
  rw [opensAt, standsAt_append paired, Nat.add_assoc,
    List.getElem?_append_right (Nat.le_add_right _ _), Nat.add_sub_cancel_left]
  rfl

theorem count_append (paired : escapedAt front front.length = false) (rest : List UInt8) (c : Char)
    (start stop : Nat) :
    count (front ++ rest) c (front.length + start) (front.length + stop) =
      count rest c start stop := by
  simp only [count, Nat.add_assoc, standsAt_append paired, Nat.add_sub_add_left]

theorem count_append_of_le (inside : stop ≤ front.length) (rest : List UInt8) (c : Char) :
    count (front ++ rest) c 0 stop = count front c 0 stop := by
  unfold count
  apply Nat.le_antisymm
  all_goals
    apply Nat.count_mono_left
    intro place before stands
    have within : 0 + place < front.length := by omega
    simpa only [standsAt_append_of_lt within] using stands

private theorem count_eq_add (c : Char) (bytes : List UInt8) (start stop : Nat) :
    count bytes c 0 (start + stop) =
      count bytes c 0 start + count bytes c start (start + stop) := by
  simp [count, Nat.count_add]

/-- Counting behind a front goes on from the count of the front. -/
theorem count_length_add (paired : escapedAt front front.length = false) (rest : List UInt8)
    (c : Char) (stop : Nat) :
    count (front ++ rest) c 0 (front.length + stop) =
      count front c 0 front.length + count rest c 0 stop := by
  rw [count_eq_add, count_append_of_le (Nat.le_refl _)]
  exact congrArg _ (count_append paired rest c 0 stop)

theorem count_succ (bytes : List UInt8) (c : Char) (stop : Nat) :
    count bytes c 0 (stop + 1) =
      count bytes c 0 stop + if standsAt bytes c stop then 1 else 0 := by
  simp [count, Nat.count_succ]

private theorem count_eq_zero (none : ∀ place < stop, standsAt front c place = false) :
    count front c 0 stop = 0 := by
  rw [count, Nat.sub_zero, Nat.count_iff_forall_not]
  intro place before
  simp [none place before]

theorem count_of_le (bytes : List UInt8) (c : Char) (nothing : stop ≤ start) :
    count bytes c start stop = 0 := by
  rw [count, Nat.sub_eq_zero_of_le nothing, Nat.count_zero]

theorem closesAt_append (paired : escapedAt front front.length = false) (rest : List UInt8)
    (depth : Nat) :
    ClosesAt (front ++ rest) depth (front.length + start) (front.length + stop) ↔
      ClosesAt rest depth start stop := by
  constructor
  · intro closes
    refine ⟨Nat.le_of_add_le_add_left closes.behind, ?_, ?_, ?_⟩
    · have closing := closes.closing
      rwa [standsAt_append paired] at closing
    · have outnumbers := closes.outnumbers
      rwa [Nat.add_assoc, count_append paired, count_append paired] at outnumbers
    · intro place before
      have first := closes.first (front.length + place) (Nat.add_le_add_left before _)
      rwa [count_append paired, count_append paired] at first
  · intro closes
    refine ⟨Nat.add_le_add_left closes.behind _, ?_, ?_, ?_⟩
    · rw [standsAt_append paired]
      exact closes.closing
    · rw [Nat.add_assoc, count_append paired, count_append paired]
      exact closes.outnumbers
    · intro place before
      by_cases within : front.length ≤ place
      · obtain ⟨later, rfl⟩ := Nat.exists_eq_add_of_le within
        rw [count_append paired, count_append paired]
        exact closes.first later (Nat.le_of_add_le_add_left before)
      · have depthPositive := closes.first start closes.behind
        rw [count_of_le _ _ (Nat.le_refl _), count_of_le _ _ (Nat.le_refl _)] at depthPositive
        rw [count_of_le _ _ (by omega), count_of_le _ _ (by omega)]
        exact depthPositive

/-- Closers are looked for behind a front that has too few of them. -/
theorem closesAt_behind (paired : escapedAt front front.length = false) {depth further : Nat}
    (short : ∀ place ≤ front.length, count front ')' 0 place < count front '(' 0 place + depth)
    (left : count front '(' 0 front.length + depth = count front ')' 0 front.length + further)
    (rest : List UInt8) (stop : Nat) :
    ClosesAt (front ++ rest) depth 0 stop ↔
      ∃ later, stop = front.length + later ∧ ClosesAt rest further 0 later := by
  have counts := fun later c => count_length_add paired rest c later
  constructor
  · intro closes
    have outside : front.length ≤ stop := by
      apply Nat.le_of_not_lt
      intro within
      have outnumbers := closes.outnumbers
      rw [count_append_of_le within, count_append_of_le within] at outnumbers
      exact Nat.not_le_of_lt (short _ within) outnumbers
    obtain ⟨later, rfl⟩ := Nat.exists_eq_add_of_le outside
    refine ⟨later, rfl, Nat.zero_le _, ?_, ?_, ?_⟩
    · have closing := closes.closing
      rwa [standsAt_append paired] at closing
    · have outnumbers := closes.outnumbers
      rw [Nat.add_assoc, counts, counts] at outnumbers
      omega
    · intro place before
      have first := closes.first (front.length + place) (Nat.add_le_add_left before _)
      rw [counts, counts] at first
      omega
  · rintro ⟨later, rfl, closes⟩
    refine ⟨Nat.zero_le _, ?_, ?_, ?_⟩
    · rw [standsAt_append paired]
      exact closes.closing
    · have outnumbers := closes.outnumbers
      rw [Nat.add_assoc, counts, counts]
      omega
    · intro place before
      rcases Nat.le_total place front.length with within | outside
      · rw [count_append_of_le within, count_append_of_le within]
        exact short place within
      · obtain ⟨place, rfl⟩ := Nat.exists_eq_add_of_le outside
        have first := closes.first place (Nat.le_of_add_le_add_left before)
        rw [counts, counts]
        omega

end

section

variable {c mark escaped : Char} {text inner behind : Text} {place : Nat}

theorem utf8EncodeChar_of_ascii (ascii : mark.toNat ≤ 0x7f) :
    String.utf8EncodeChar mark = [mark.toUInt8] := by
  apply String.utf8EncodeChar_eq_singleton
  exact Char.utf8Size_eq_one_iff.mpr (UInt32.le_iff_toNat_le.mpr ascii)

theorem not_mem_utf8EncodeChar (ascii : mark.toNat ≤ 0x7f) (different : c ≠ mark) :
    mark.toUInt8 ∉ String.utf8EncodeChar c :=
  fun member => different (Text.eq_of_mem_utf8EncodeChar ascii member)

private theorem standsAt_of_not_mem {bytes : List UInt8} (absent : mark.toUInt8 ∉ bytes)
    (place : Nat) :
    standsAt bytes mark place = false := by
  have different : bytes[place]? ≠ some mark.toUInt8 :=
    fun found => absent (List.mem_of_getElem? found)
  simp [standsAt, different]

/-- An ASCII character stands in the bytes of one character only if it is that. -/
theorem standsAt_char (ascii : mark.toNat ≤ 0x7f) (c : Char) (place : Nat) :
    standsAt (Text.bytes [c]) mark place = decide (c = mark ∧ place = 0) := by
  rw [Text.bytes_cons, Text.bytes_nil, List.append_nil]
  by_cases same : c = mark
  · subst same
    rw [utf8EncodeChar_of_ascii ascii]
    cases place with
    | zero => simp [standsAt, escapedAt]
    | succ place => simp [standsAt]
  · rw [standsAt_of_not_mem (not_mem_utf8EncodeChar ascii same)]
    simp [same]

private theorem count_char (ascii : mark.toNat ≤ 0x7f) (c : Char) (place : Nat) :
    count (Text.bytes [c]) mark 0 place = if c = mark ∧ 0 < place then 1 else 0 := by
  induction place with
  | zero => simp [count]
  | succ place ih =>
      rw [count_succ, ih, standsAt_char ascii]
      by_cases same : c = mark
      · cases place with
        | zero => simp [same]
        | succ place => simp
      · simp [same]

theorem escapedAt_char (notEscape : c ≠ '\\') :
    escapedAt (Text.bytes [c]) (Text.bytes [c]).length = false := by
  rw [Text.bytes_cons, Text.bytes_nil, List.append_nil]
  exact escapedAt_append_of_not_mem [] (String.utf8EncodeChar_ne_nil)
    (not_mem_utf8EncodeChar (by decide) notEscape)

theorem bytes_escape (escaped : Char) :
    Text.bytes ['\\', escaped] = '\\'.toUInt8 :: String.utf8EncodeChar escaped := by
  rw [Text.bytes_cons, Text.bytes_cons, Text.bytes_nil, List.append_nil]
  rfl

/-- No escaped character stands for itself. -/
theorem standsAt_escape (ascii : mark.toNat ≤ 0x7f) (notEscape : mark ≠ '\\') (escaped : Char)
    (place : Nat) : standsAt (Text.bytes ['\\', escaped]) mark place = false := by
  rw [bytes_escape]
  cases place with
  | zero =>
      have different : mark.toUInt8 ∉ ['\\'.toUInt8] :=
        not_mem_utf8EncodeChar ascii (Ne.symm notEscape)
      have notFirst : '\\'.toUInt8 ≠ mark.toUInt8 := by simpa [eq_comm] using different
      simp [standsAt, notFirst]
  | succ place =>
      by_cases same : escaped = mark
      · subst same
        rw [utf8EncodeChar_of_ascii ascii]
        cases place with
        | zero => simp [standsAt, escapedAt]
        | succ place => simp [standsAt]
      · have absent := not_mem_utf8EncodeChar ascii same
        have different : (String.utf8EncodeChar escaped)[place]? ≠ some mark.toUInt8 :=
          fun found => absent (List.mem_of_getElem? found)
        simp [standsAt, different]

theorem escapedAt_escape (escaped : Char) :
    escapedAt (Text.bytes ['\\', escaped]) (Text.bytes ['\\', escaped]).length = false := by
  by_cases same : escaped = '\\'
  · subst same
    decide
  · rw [bytes_escape]
    exact escapedAt_append_of_not_mem ['\\'.toUInt8] (String.utf8EncodeChar_ne_nil)
      (not_mem_utf8EncodeChar (by decide) same)

private theorem closesAt_escape {depth : Nat} (opened : 1 ≤ depth) (escaped : Char) (rest : Text)
    (stop : Nat) :
    ClosesAt (Text.bytes ('\\' :: escaped :: rest)) depth 0 stop ↔
      ∃ later, stop = Text.utf8Length ['\\', escaped] + later ∧
        ClosesAt rest.bytes depth 0 later := by
  have noOpener : ∀ place, count (Text.bytes ['\\', escaped]) '(' 0 place = 0 := fun _ =>
    count_eq_zero fun earlier _ => standsAt_escape (by decide) (by decide) escaped earlier
  have noCloser : ∀ place, count (Text.bytes ['\\', escaped]) ')' 0 place = 0 := fun _ =>
    count_eq_zero fun earlier _ => standsAt_escape (by decide) (by decide) escaped earlier
  rw [← Text.length_bytes]
  change ClosesAt (Text.bytes (['\\', escaped] ++ rest)) depth 0 stop ↔ _
  rw [Text.bytes_append]
  apply closesAt_behind (escapedAt_escape escaped)
  · intro place _
    rw [noOpener, noCloser]
    omega
  · rw [noOpener, noCloser]

private theorem closesAt_char {depth : Nat} (opened : 1 ≤ depth) (notEscape : c ≠ '\\')
    (stays : ¬ (c = ')' ∧ depth ≤ 1)) (rest : Text) (stop : Nat) :
    ClosesAt (Text.bytes (c :: rest)) depth 0 stop ↔
      ∃ later, stop = Text.utf8Length [c] + later ∧
        ClosesAt rest.bytes (depthAfter depth c) 0 later := by
  have openers : ∀ place, count (Text.bytes [c]) '(' 0 place =
      if c = '(' ∧ 0 < place then 1 else 0 := count_char (by decide) c
  have closers : ∀ place, count (Text.bytes [c]) ')' 0 place =
      if c = ')' ∧ 0 < place then 1 else 0 := count_char (by decide) c
  have width : 0 < (Text.bytes [c]).length := by
    rw [Text.length_bytes]
    exact Nat.add_pos_left c.utf8Size_pos _
  rw [← Text.length_bytes]
  change ClosesAt (Text.bytes ([c] ++ rest)) depth 0 stop ↔ _
  rw [Text.bytes_append]
  apply closesAt_behind (escapedAt_char notEscape)
  · intro place _
    rw [openers, closers]
    by_cases closes : c = ')'
    · have deeper : 1 < depth := Nat.lt_of_not_le fun shallow => stays ⟨closes, shallow⟩
      split <;> omega
    · rw [if_neg (by simp [closes])]
      omega
  · rw [openers, closers, depthAfter]
    simp only [width, and_true]
    by_cases opens : c = '('
    · simp [opens, Nat.add_comm]
    · by_cases closes : c = ')'
      · simp only [closes]
        simp
        omega
      · simp [opens, closes]

/-- The parenthesis that closes the last open one is the end. -/
theorem closesAt_last (rest : Text) (stop : Nat) :
    ClosesAt (Text.bytes (')' :: rest)) 1 0 stop ↔ stop = 0 := by
  have closing : standsAt (Text.bytes (')' :: rest)) ')' 0 = true := by
    simp [standsAt, escapedAt, utf8EncodeChar_of_ascii]
  have notOpening : standsAt (Text.bytes (')' :: rest)) '(' 0 = false := by
    rw [standsAt]
    rfl
  have closers : count (Text.bytes (')' :: rest)) ')' 0 1 = 1 := by
    rw [count_succ, closing, count_of_le _ _ (Nat.le_refl _)]
    rfl
  have openers : count (Text.bytes (')' :: rest)) '(' 0 1 = 0 := by
    rw [count_succ, notOpening, count_of_le _ _ (Nat.le_refl _)]
    rfl
  constructor
  · intro closes
    apply Nat.eq_zero_of_not_pos
    intro later
    have first := closes.first 1 later
    rw [closers, openers] at first
    omega
  · rintro rfl
    refine ⟨Nat.le_refl _, closing, ?_, ?_⟩
    · rw [closers, openers]
    · intro place before
      rw [count_of_le _ _ before, count_of_le _ _ before]
      omega

private theorem exists_map_split {split : Option (Text × Text)} (front : Text) (stop : Nat) :
    (∃ inner behind, split.map (Prod.map (front ++ ·) id) = some (inner, behind) ∧
        stop = inner.utf8Length) ↔
      ∃ later, stop = front.utf8Length + later ∧
        ∃ inner behind, split = some (inner, behind) ∧ later = inner.utf8Length := by
  constructor
  · rintro ⟨_, _, found, rfl⟩
    obtain ⟨⟨inner, behind⟩, rfl, same⟩ := Option.map_eq_some_iff.mp found
    cases same
    exact ⟨_, Text.utf8Length_append _ _, inner, behind, rfl, rfl⟩
  · rintro ⟨_, rfl, inner, behind, rfl, rfl⟩
    exact ⟨front ++ inner, behind, rfl, (Text.utf8Length_append _ _).symm⟩

/-- The end that is found is the first `)` at which closers outnumber the open
parentheses. -/
theorem closesAt_iff {depth : Nat} (opened : 1 ≤ depth) (text : Text) (stop : Nat) :
    ClosesAt text.bytes depth 0 stop ↔
      ∃ inner behind, splitAtClosing depth text = some (inner, behind) ∧
        stop = inner.utf8Length := by
  fun_induction splitAtClosing depth text generalizing stop with
  | case1 depth =>
      refine iff_of_false (fun closes => ?_) (by simp)
      simpa [standsAt] using closes.closing
  | case2 depth =>
      refine iff_of_false (fun closes => ?_) (by simp)
      have closing := closes.closing
      rw [standsAt_char (by decide)] at closing
      simp at closing
  | case3 depth escaped rest ih =>
      rw [closesAt_escape opened, exists_map_split]
      simp only [ih opened]
  | case4 depth c rest notEscape closes =>
      obtain ⟨rfl, shallow⟩ := closes
      obtain rfl := Nat.le_antisymm shallow opened
      rw [closesAt_last]
      simp
  | case5 depth c rest notEscape staysOpen ih =>
      have deeper := one_le_depthAfter opened staysOpen
      rw [closesAt_char opened notEscape staysOpen]
      simp only [ih deeper]
      exact (exists_map_split [c] stop).symm

private theorem balanced_of_splitAtClosing (split : splitAtClosing 1 text = some (inner, behind)) :
    Balanced inner.bytes := by
  have closes : ClosesAt text.bytes 1 0 inner.bytes.length := by
    rw [closesAt_iff (Nat.le_refl 1), Text.length_bytes]
    exact ⟨inner, behind, split, rfl⟩
  have whole := eq_append_of_splitAtClosing split
  have outnumbers := closes.outnumbers
  have first := closes.first
  rw [count_succ, count_succ] at outnumbers
  rw [whole, Text.bytes_append] at outnumbers first
  have above : ∀ place ≤ inner.bytes.length,
      count inner.bytes ')' 0 place ≤ count inner.bytes '(' 0 place := by
    intro place inside
    have before := first place inside
    rw [count_append_of_le inside, count_append_of_le inside] at before
    exact Nat.le_of_lt_succ before
  refine ⟨Nat.le_antisymm (above _ (Nat.le_refl _)) ?_, above⟩
  rw [count_append_of_le (Nat.le_refl _), count_append_of_le (Nat.le_refl _)] at outnumbers
  split at outnumbers <;> split at outnumbers <;> omega

/-- The negation that many bytes further on. -/
def Negation.shift (width : Nat) (negation : Negation) : Negation :=
  ⟨width + negation.start, width + negation.stop, negation.inner⟩

/-- Text that leaves nothing escaped behind it. -/
def EscapesClosed (front : Text) : Prop :=
  escapedAt front.bytes front.bytes.length = false

private theorem escapesClosed_negation (inner : Text) :
    EscapesClosed (Piece.negation inner).source := by
  have source : (Piece.negation inner).source = ('!' :: '(' :: inner) ++ [')'] := rfl
  rw [EscapesClosed, source, Text.bytes_append]
  exact escapedAt_append_of_not_mem _ (List.cons_ne_nil _ _) (by decide)

section

variable {front rest : Text} {start stop : Nat}

theorem closed_append (complete : EscapesClosed front) (rest : Text) (start stop : Nat) :
    Closed (Text.bytes (front ++ rest)) (front.utf8Length + start) (front.utf8Length + stop) ↔
      Closed rest.bytes start stop := by
  rw [Text.bytes_append, ← Text.length_bytes]
  constructor
  · rintro ⟨opens, closes⟩
    rw [opensAt_append complete] at opens
    rw [Nat.add_assoc, closesAt_append complete] at closes
    exact ⟨opens, closes⟩
  · rintro ⟨opens, closes⟩
    refine ⟨?_, ?_⟩
    · rwa [opensAt_append complete]
    · rwa [Nat.add_assoc, closesAt_append complete]

theorem IsNegation.append (complete : EscapesClosed front) {negation : Negation}
    (sound : IsNegation rest negation) :
    IsNegation (front ++ rest) (negation.shift front.utf8Length) where
  closed := (closed_append complete rest _ _).mpr sound.closed
  between := by
    change (front ++ rest).between? (front.utf8Length + negation.start + 2) _ = _
    rw [Nat.add_assoc, Negation.shift, Text.between?_append, sound.between]
  balanced := sound.balanced
  bounded := sound.bounded.imp (Text.isBoundary_append front) fun behind =>
    behind.imp (Text.isBoundary_append front) (Text.isBoundary_append front)

theorem Extracts.complete_append {reported : List Negation} (complete : EscapesClosed front)
    (extracts : Extracts rest reported) (inside : front.utf8Length ≤ start)
    (closed : Closed (Text.bytes (front ++ rest)) start stop)
    (outside : ∀ negation ∈ reported.map (Negation.shift front.utf8Length),
      negation.start < start → negation.stop < start) :
    ∃ negation ∈ reported.map (Negation.shift front.utf8Length),
      negation.start = start ∧ negation.stop = stop := by
  have behind := closed.closes.behind
  obtain ⟨start, rfl⟩ := Nat.exists_eq_add_of_le inside
  obtain ⟨stop, rfl⟩ := Nat.exists_eq_add_of_le (show front.utf8Length ≤ stop by omega)
  have outsideInRest : ∀ negation ∈ reported, negation.start < start → negation.stop < start := by
    intro negation isReported before
    have apart := outside _ (List.mem_map_of_mem isReported) (Nat.add_lt_add_left before _)
    exact Nat.lt_of_add_lt_add_left apart
  obtain ⟨negation, isReported, rfl, rfl⟩ :=
    extracts.complete start stop ((closed_append complete rest start stop).mp closed) outsideInRest
  exact ⟨_, List.mem_map_of_mem isReported, rfl, rfl⟩

theorem pairwise_shift {reported : List Negation} (width : Nat)
    (apart : reported.Pairwise fun earlier later => earlier.stop < later.start) :
    (reported.map (Negation.shift width)).Pairwise fun earlier later =>
      earlier.stop < later.start :=
  List.Pairwise.map _ (fun _ _ before => Nat.add_lt_add_left before _) apart

theorem sound_shift {reported : List Negation} (complete : EscapesClosed front)
    (sound : ∀ negation ∈ reported, IsNegation rest negation) :
    ∀ negation ∈ reported.map (Negation.shift front.utf8Length),
      IsNegation (front ++ rest) negation := by
  intro negation member
  obtain ⟨inRest, isReported, rfl⟩ := List.mem_map.mp member
  exact (sound _ isReported).append complete

/-- Behind a front the same is reported, if nothing that opens in the front closes. -/
theorem Extracts.append {reported : List Negation} (front : Text) (complete : EscapesClosed front)
    (quiet : ∀ start stop, start < front.utf8Length →
      ¬ Closed (Text.bytes (front ++ rest)) start stop)
    (extracts : Extracts rest reported) :
    Extracts (front ++ rest) (reported.map (Negation.shift front.utf8Length)) where
  apart := pairwise_shift _ extracts.apart
  sound := sound_shift complete extracts.sound
  complete := by
    intro start stop closed outside
    have inside := Nat.le_of_not_lt fun before => quiet start stop before closed
    exact extracts.complete_append complete inside closed outside

theorem ClosesAt.unique {bytes : List UInt8} {depth other : Nat}
    (closes : ClosesAt bytes depth start stop) (closesToo : ClosesAt bytes depth start other) :
    stop = other := by
  rcases Nat.lt_trichotomy stop other with before | same | behind
  · exact absurd (closesToo.first (stop + 1) before) (Nat.not_lt_of_le closes.outnumbers)
  · exact same
  · exact absurd (closes.first (other + 1) behind) (Nat.not_lt_of_le closesToo.outnumbers)

theorem utf8Length_source_negation (inner : Text) :
    (Piece.negation inner).source.utf8Length = 2 + inner.utf8Length + 1 := by
  have marks : '!'.utf8Size = 1 ∧ '('.utf8Size = 1 ∧ ')'.utf8Size = 1 := by decide
  simp only [Piece.source, Text.utf8Length, Text.utf8Length_append, marks]
  omega

theorem closed_iff (text : Text) (stop : Nat) :
    Closed (Text.bytes ('!' :: '(' :: text)) 0 stop ↔
      ∃ later, stop = 2 + later ∧ ClosesAt text.bytes 1 0 later := by
  have opens : opensAt (Text.bytes ('!' :: '(' :: text)) 0 = true := rfl
  have complete : escapedAt (Text.bytes ['!', '(']) (Text.bytes ['!', '(']).length = false := by
    decide
  constructor
  · rintro ⟨_, closes⟩
    obtain ⟨later, rfl⟩ := Nat.exists_eq_add_of_le (Nat.le_of_add_left_le closes.behind)
    exact ⟨later, rfl, (closesAt_append complete _ _).mp closes⟩
  · rintro ⟨later, rfl, closes⟩
    exact ⟨opens, (closesAt_append complete _ _).mpr closes⟩

theorem isNegation_of_split {inner : Text}
    (split : splitAtClosing 1 (inner ++ ')' :: rest) = some (inner, rest)) :
    IsNegation ((Piece.negation inner).source ++ rest)
      ⟨0, 2 + inner.utf8Length, inner⟩ := by
  have whole : (Piece.negation inner).source ++ rest =
      ['!', '('] ++ (inner ++ ')' :: rest) := by
    simp [Piece.source]
  refine ⟨?_, ?_, balanced_of_splitAtClosing split, ?_, ?_, ?_⟩
  · rw [whole]
    refine (closed_iff _ _).mpr ⟨_, rfl, ?_⟩
    rw [closesAt_iff (Nat.le_refl 1)]
    exact ⟨inner, rest, split, rfl⟩
  · rw [whole]
    exact (Text.between?_append ['!', '('] _ 0 _).trans (Text.between?_front _ _)
  · exact ⟨0, Nat.zero_le _, rfl⟩
  · rw [whole]
    refine Text.isBoundary_append ['!', '('] ⟨inner.length, by simp, ?_⟩
    rw [Text.offset, List.take_left]
  · rw [← utf8Length_source_negation]
    exact Text.isBoundary_append _ ⟨0, Nat.zero_le _, rfl⟩

/-- A negation at the front is reported, and what is reported behind it as well. -/
theorem Extracts.negation {inner : Text} {reported : List Negation}
    (split : splitAtClosing 1 (inner ++ ')' :: rest) = some (inner, rest))
    (extracts : Extracts rest reported) :
    Extracts ((Piece.negation inner).source ++ rest)
      (⟨0, 2 + inner.utf8Length, inner⟩ ::
        reported.map (Negation.shift (Piece.negation inner).source.utf8Length)) := by
  have here := isNegation_of_split split
  have complete := escapesClosed_negation inner
  have width := utf8Length_source_negation inner
  refine ⟨?_, ?_, ?_⟩
  · refine List.pairwise_cons.mpr ⟨?_, pairwise_shift _ extracts.apart⟩
    intro negation member
    obtain ⟨inRest, _, rfl⟩ := List.mem_map.mp member
    simp only [Negation.shift]
    omega
  · exact List.forall_mem_cons.mpr ⟨here, sound_shift complete extracts.sound⟩
  · intro start stop closed outside
    obtain ⟨outsideHere, outsideLater⟩ := List.forall_mem_cons.mp outside
    rcases Nat.eq_zero_or_pos start with rfl | later
    · exact ⟨_, List.mem_cons_self, rfl, here.closed.closes.unique closed.closes⟩
    · have inside : (Piece.negation inner).source.utf8Length ≤ start := by
        have := outsideHere later
        simp only at this
        omega
      obtain ⟨negation, member, same⟩ :=
        extracts.complete_append complete inside closed outsideLater
      exact ⟨negation, List.mem_cons_of_mem _ member, same⟩

theorem not_closed_of_not_standsAt {bytes : List UInt8}
    (notMark : standsAt bytes '!' start = false) : ¬ Closed bytes start stop := by
  rintro ⟨opens, _⟩
  simp [opensAt, notMark] at opens

private theorem not_closed_escape (escaped : Char) (rest : Text) {start : Nat}
    (inside : start < Text.utf8Length ['\\', escaped]) (stop : Nat) :
    ¬ Closed (Text.bytes (['\\', escaped] ++ rest)) start stop := by
  rw [← Text.length_bytes] at inside
  apply not_closed_of_not_standsAt
  rw [Text.bytes_append, standsAt_append_of_lt inside,
    standsAt_escape (by decide) (by decide)]

private theorem head?_eq_of_bytes {mark : Char} (ascii : mark.toNat ≤ 0x7f) {text : Text}
    (first : text.bytes[0]? = some mark.toUInt8) : text.head? = some mark := by
  cases text with
  | nil => cases first
  | cons c text =>
      have nonempty := List.length_pos_of_ne_nil (String.utf8EncodeChar_ne_nil (c := c))
      rw [Text.bytes_cons, List.getElem?_append_left nonempty] at first
      exact congrArg some (Text.eq_of_mem_utf8EncodeChar ascii (List.mem_of_getElem? first))

/-- A character with which no negation starts opens none, or one that never closes. -/
theorem not_closed_char {c : Char} (noNegation : splitNegation? (c :: rest) = none)
    (inside : start < Text.utf8Length [c]) (stop : Nat) :
    ¬ Closed (Text.bytes ([c] ++ rest)) start stop := by
  rw [← Text.length_bytes] at inside
  intro closed
  cases stands : standsAt (Text.bytes ([c] ++ rest)) '!' start with
  | false => exact not_closed_of_not_standsAt stands closed
  | true =>
      rw [Text.bytes_append, standsAt_append_of_lt inside, standsAt_char (by decide)] at stands
      obtain ⟨rfl, rfl⟩ := of_decide_eq_true stands
      have paren : rest.bytes[0]? = some '('.toUInt8 := by
        have opens := closed.opens
        rw [opensAt, Bool.and_eq_true] at opens
        exact of_decide_eq_true opens.2
      obtain ⟨behind, rfl⟩ := List.head?_eq_some_iff.mp (head?_eq_of_bytes (by decide) paren)
      obtain ⟨later, -, closes⟩ := (closed_iff behind stop).mp closed
      obtain ⟨inner, more, split, -⟩ := (closesAt_iff (Nat.le_refl 1) behind later).mp closes
      cases noNegation.symm.trans split

theorem negationsFrom_eq_map (offset : Nat) (cutUp : List Piece) :
    negationsFrom offset cutUp = (negationsFrom 0 cutUp).map (Negation.shift offset) := by
  induction cutUp generalizing offset with
  | nil => rfl
  | cons piece rest ih =>
      have again : ∀ width, (negationsFrom (0 + width) rest).map (Negation.shift offset) =
          negationsFrom (offset + width) rest := by
        intro width
        rw [ih (0 + width), ih (offset + width), List.map_map]
        apply List.map_congr_left
        intro negation _
        simp [Negation.shift, Nat.add_assoc]
      cases piece with
      | text content => exact (again _).symm
      | negation inner =>
          have width := utf8Length_source_negation inner
          simp only [negationsFrom, List.map_cons, again, Negation.shift]
          congr 2
          omega

theorem negations_eq_map_text {text rest content : Text}
    (cutUp : pieces text = .text content :: pieces rest) :
    negations text = (negations rest).map (Negation.shift content.utf8Length) := by
  rw [negations, cutUp, negationsFrom, negationsFrom_eq_map, Nat.zero_add]
  rfl

theorem negations_eq_map_negation {text rest inner : Text}
    (cutUp : pieces text = .negation inner :: pieces rest) :
    negations text = ⟨0, 2 + inner.utf8Length, inner⟩ ::
      (negations rest).map (Negation.shift (Piece.negation inner).source.utf8Length) := by
  rw [negations, cutUp]
  simp only [negationsFrom, Nat.zero_add]
  rw [negationsFrom_eq_map, utf8Length_source_negation]
  rfl

private theorem extracts_backslash : Extracts ['\\'] (negations ['\\']) := by
  rw [negations, pieces_backslash]
  refine ⟨List.Pairwise.nil, by simp [negationsFrom], ?_⟩
  intro start stop closed
  refine absurd closed (not_closed_of_not_standsAt ?_)
  rw [standsAt_char (by decide)]
  simp

/-- What is reported is what a pass from the left extracts. -/
theorem extracts_negations (glob : Text) : Extracts glob (negations glob) := by
  induction glob using pieces_induction with
  | nil =>
      rw [negations, pieces_nil]
      refine ⟨List.Pairwise.nil, by simp [negationsFrom], ?_⟩
      intro start stop closed
      exact absurd closed (not_closed_of_not_standsAt (by simp [standsAt]))
  | negation inner behind split ih =>
      rw [negations_eq_map_negation (pieces_source_negation split)]
      exact ih.negation split
  | escape escaped behind ih =>
      rw [negations_eq_map_text (pieces_escape escaped behind)]
      exact ih.append ['\\', escaped] (escapedAt_escape escaped)
        fun _ stop inside => not_closed_escape escaped behind inside stop
  | backslash => exact extracts_backslash
  | char c rest notEscape noNegation ih =>
      rw [negations_eq_map_text (pieces_cons notEscape noNegation)]
      exact ih.append [c] (escapedAt_char notEscape)
        fun _ stop inside => not_closed_char noNegation inside stop

theorem IsNegation.start_le_stop {negation : Negation} (sound : IsNegation text negation) :
    negation.start ≤ negation.stop :=
  Nat.le_trans (Nat.le_add_right _ 2) sound.closed.closes.behind

theorem IsNegation.eq {negation other : Negation} (sound : IsNegation text negation)
    (soundToo : IsNegation text other) (start : negation.start = other.start)
    (stop : negation.stop = other.stop) : negation = other := by
  have inner : some negation.inner = some other.inner := by
    rw [← sound.between, ← soundToo.between, start, stop]
  cases negation
  cases other
  simp_all

section

variable {reported other : List Negation} {negation : Negation}

/-- Of two negations that are reported the one that starts first ends before the other. -/
theorem Extracts.stop_lt (extracts : Extracts text reported) {later : Negation}
    (member : negation ∈ reported) (laterMember : later ∈ reported)
    (before : negation.start < later.start) : negation.stop < later.start := by
  have symmetric : Std.Symm fun one two : Negation =>
      one.stop < two.start ∨ two.stop < one.start := ⟨fun _ _ => Or.symm⟩
  have different : negation ≠ later := by
    rintro rfl
    exact Nat.lt_irrefl _ before
  have apart : reported.Pairwise fun one two => one.stop < two.start ∨ two.stop < one.start :=
    extracts.apart.imp Or.inl
  rcases apart.forall member laterMember different with inOrder | crossed
  · exact inOrder
  · have := (extracts.sound _ laterMember).start_le_stop
    omega

theorem Extracts.mem_of_mem (extracts : Extracts text reported)
    (extractsToo : Extracts text other) (member : negation ∈ reported)
    (agree : ∀ earlier ∈ other, earlier.start < negation.start → earlier ∈ reported) :
    negation ∈ other := by
  have sound := extracts.sound _ member
  obtain ⟨same, isOther, start, stop⟩ := extractsToo.complete _ _ sound.closed (by
    intro earlier isOther before
    exact extracts.stop_lt (agree earlier isOther before) member before)
  rwa [(extractsToo.sound _ isOther).eq sound start stop] at isOther

theorem Extracts.mem_iff (extracts : Extracts text reported) (extractsToo : Extracts text other)
    (negation : Negation) : negation ∈ reported ↔ negation ∈ other := by
  induction bound : negation.start using Nat.strong_induction_on generalizing negation with
  | _ start ih =>
      subst bound
      have agree := fun (earlier : Negation) before => ih earlier.start before earlier rfl
      exact ⟨fun member => extracts.mem_of_mem extractsToo member
          fun earlier isOther before => (agree earlier before).mpr isOther,
        fun member => extractsToo.mem_of_mem extracts member
          fun earlier isReported before => (agree earlier before).mp isReported⟩

theorem Extracts.unique (extracts : Extracts text reported) (extractsToo : Extracts text other) :
    reported = other := by
  have ascending : ∀ {list : List Negation}, Extracts text list →
      list.Pairwise fun earlier later => earlier.start < later.start := by
    intro list extracts
    refine extracts.apart.imp_of_mem fun member _ apart => ?_
    exact Nat.lt_of_le_of_lt (extracts.sound _ member).start_le_stop apart
  have irreflexive : Std.Irrefl fun earlier later : Negation => earlier.start < later.start :=
    ⟨fun negation => Nat.lt_irrefl _⟩
  have antisymmetric : Std.Antisymm fun earlier later : Negation => earlier.start < later.start :=
    ⟨fun earlier later before behind => absurd before (Nat.lt_asymm behind)⟩
  exact (ascending extracts).eq_of_mem_iff (ascending extractsToo) (extracts.mem_iff extractsToo)

end

/-- The negations of a glob are what a pass from the left extracts, and there is no other such
list.  A `!(` outside of all of them is never closed. -/
theorem eq_negations_iff (glob : Text) :
    (∀ reported, reported = negations glob ↔ Extracts glob reported) ∧
      ∀ start stop, opensAt glob.bytes start →
        (∀ negation ∈ negations glob, start < negation.start ∨ negation.stop < start) →
        ¬ ClosesAt glob.bytes 1 (start + 2) stop := by
  refine ⟨fun reported => ⟨?_, ?_⟩, ?_⟩
  · rintro rfl
    exact extracts_negations glob
  · exact fun extracts => extracts.unique (extracts_negations glob)
  · intro start stop opens outside closes
    obtain ⟨negation, member, rfl, -⟩ := (extracts_negations glob).complete start stop
      ⟨opens, closes⟩ (by
        intro negation member before
        exact (outside negation member).resolve_left (Nat.lt_asymm before))
    have := (extracts_negations glob |>.sound _ member).start_le_stop
    have := outside _ member
    omega

end

end

end ShellGlob.Glob
