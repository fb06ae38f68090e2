import ShellGlob.Text

/-!
# Offsets in bytes

The offset of a place in a text is the number of bytes before it.  An offset that lies
within a character is that of no place, and the text cannot be cut there.
-/

namespace ShellGlob.Text

/-- The bytes of the text in UTF-8. -/
def bytes (text : Text) : List UInt8 :=
  text.flatMap String.utf8EncodeChar

/-- The number of bytes before a place. -/
def offset (text : Text) (place : Nat) : Nat :=
  Text.utf8Length (text.take place)

/-- The offset is that of a place. -/
def IsBoundary (text : Text) (offset : Nat) : Prop :=
  ∃ place ≤ text.length, offset = text.offset place

/-- The text from an offset on, if that is the offset of a place. -/
def fromByte? : (text : Text) → (offset : Nat) → Option Text
  | [], offset => if offset = 0 then some [] else none
  | c :: rest, offset =>
      if offset = 0 then some (c :: rest)
      else if offset < c.utf8Size then none
      else fromByte? rest (offset - c.utf8Size)

/-- The text before an offset, if that is the offset of a place. -/
def toByte? : (text : Text) → (offset : Nat) → Option Text
  | [], offset => if offset = 0 then some [] else none
  | c :: rest, offset =>
      if offset = 0 then some []
      else if offset < c.utf8Size then none
      else (toByte? rest (offset - c.utf8Size)).map (c :: ·)

/-- The text from one offset up to another, if both are those of places and in order. -/
def between? (text : Text) (start stop : Nat) : Option Text :=
  if start ≤ stop then (text.fromByte? start).bind (toByte? · (stop - start)) else none

variable {text : Text} {place other offset : Nat}

@[simp] theorem offset_zero (text : Text) : text.offset 0 = 0 := rfl

theorem isBoundary_offset (inside : place ≤ text.length) : text.IsBoundary (text.offset place) :=
  ⟨place, inside, rfl⟩

theorem offset_succ {c : Char} (found : text[place]? = some c) :
    text.offset (place + 1) = text.offset place + c.utf8Size := by
  rw [offset, List.take_add_one, found, utf8Length_append]
  rfl

theorem offset_lt_of_lt (before : place < other) (inside : other ≤ text.length) :
    text.offset place < text.offset other := by
  induction other with
  | zero => exact absurd before (Nat.not_lt_zero _)
  | succ other ih =>
      have next : text.offset (other + 1) = text.offset other + text[other].utf8Size :=
        offset_succ (List.getElem?_eq_getElem inside)
      have width := text[other].utf8Size_pos
      rcases Nat.lt_or_eq_of_le (Nat.le_of_lt_succ before) with further | rfl
      · have := ih further (Nat.le_of_succ_le inside)
        omega
      · omega

theorem offset_le_iff (placeInside : place ≤ text.length) (inside : other ≤ text.length) :
    text.offset place ≤ text.offset other ↔ place ≤ other := by
  constructor
  · intro before
    apply Nat.le_of_not_lt
    intro behind
    exact Nat.not_le_of_lt (offset_lt_of_lt behind placeInside) before
  · intro before
    rcases Nat.lt_or_eq_of_le before with further | rfl
    · exact Nat.le_of_lt (offset_lt_of_lt further inside)
    · exact Nat.le_refl _

theorem fromByte?_offset (inside : place ≤ text.length) :
    text.fromByte? (text.offset place) = some (text.drop place) := by
  induction text generalizing place with
  | nil =>
      cases Nat.le_zero.mp inside
      rfl
  | cons c rest ih =>
      cases place with
      | zero => simp [fromByte?]
      | succ place =>
          have width := c.utf8Size_pos
          have before : offset (c :: rest) (place + 1) = c.utf8Size + offset rest place := rfl
          rw [before, fromByte?, if_neg (by omega), if_neg (by omega), Nat.add_sub_cancel_left,
            ih (Nat.le_of_succ_le_succ inside), List.drop_succ_cons]

@[simp] theorem bytes_nil : bytes [] = [] := rfl

@[simp] theorem bytes_cons (c : Char) (rest : Text) :
    bytes (c :: rest) = String.utf8EncodeChar c ++ bytes rest := rfl

@[simp] theorem bytes_append (front rest : Text) :
    bytes (front ++ rest) = bytes front ++ bytes rest :=
  List.flatMap_append

@[simp] theorem length_bytes (text : Text) : text.bytes.length = text.utf8Length := by
  induction text with
  | nil => rfl
  | cons c rest ih => simp [utf8Length, ih]

/-- An ASCII byte stands for the character of the same number. -/
theorem toNat_of_mem_utf8EncodeChar {c : Char} {byte : UInt8} (ascii : byte.toNat ≤ 0x7f)
    (member : byte ∈ String.utf8EncodeChar c) : c.toNat = byte.toNat := by
  have bound : c.toNat < 0x110000 := by
    rcases c.valid with low | high
    · exact Nat.lt_trans low (by decide)
    · exact high.2
  change c.val.toNat = _
  change c.val.toNat < _ at bound
  simp only [String.utf8EncodeChar] at member
  split at member
  · rw [List.mem_singleton] at member
    rw [member, UInt8.toNat_ofNat']
    omega
  · -- All bytes of longer encodings have their highest bit set.
    exfalso
    have high : ∀ {digit base : Nat}, digit + base < 256 → 128 ≤ base →
        byte ≠ UInt8.ofNat (digit + base) := by
      rintro digit base small high rfl
      rw [UInt8.toNat_ofNat'] at ascii
      omega
    split at member
    · simp only [List.mem_cons, List.not_mem_nil, or_false] at member
      rcases member with same | same <;> exact high (by omega) (by omega) same
    · split at member
      · simp only [List.mem_cons, List.not_mem_nil, or_false] at member
        rcases member with same | same | same <;> exact high (by omega) (by omega) same
      · simp only [List.mem_cons, List.not_mem_nil, or_false] at member
        rcases member with same | same | same | same <;> exact high (by omega) (by omega) same

/-- The byte of an ASCII character is part of no other character. -/
theorem eq_of_mem_utf8EncodeChar {mark c : Char} (ascii : mark.toNat ≤ 0x7f)
    (member : mark.toUInt8 ∈ String.utf8EncodeChar c) : c = mark := by
  have value : mark.toUInt8.toNat = mark.toNat := by
    change mark.val.toUInt8.toNat = mark.val.toNat
    rw [UInt32.toNat_toUInt8]
    exact Nat.mod_eq_of_lt (Nat.lt_of_le_of_lt ascii (by decide))
  have same := toNat_of_mem_utf8EncodeChar (by omega) member
  exact Char.toNat_inj.mp (same.trans value)

theorem fromByte?_append (front rest : Text) (offset : Nat) :
    (front ++ rest).fromByte? (front.utf8Length + offset) = rest.fromByte? offset := by
  induction front with
  | nil => simp
  | cons c front ih =>
      have width := c.utf8Size_pos
      rw [List.cons_append, utf8Length, fromByte?, if_neg (by omega), if_neg (by omega), ← ih]
      congr 1
      omega

theorem fromByte?_zero (text : Text) : text.fromByte? 0 = some text := by
  cases text <;> rfl

private theorem toByte?_append (front rest : Text) :
    (front ++ rest).toByte? front.utf8Length = some front := by
  induction front with
  | nil => cases rest <;> rfl
  | cons c front ih =>
      have width := c.utf8Size_pos
      rw [List.cons_append, utf8Length, toByte?, if_neg (by omega), if_neg (by omega),
        Nat.add_sub_cancel_left, ih]
      rfl

theorem between?_append (front rest : Text) (start stop : Nat) :
    (front ++ rest).between? (front.utf8Length + start) (front.utf8Length + stop) =
      rest.between? start stop := by
  unfold between?
  rw [fromByte?_append, Nat.add_sub_add_left]
  simp only [Nat.add_le_add_iff_left]

theorem between?_front (front rest : Text) :
    (front ++ rest).between? 0 front.utf8Length = some front := by
  rw [between?, if_pos (Nat.zero_le _), fromByte?_zero, Option.bind_some, Nat.sub_zero,
    toByte?_append]

theorem isBoundary_append (front : Text) {rest : Text} (boundary : rest.IsBoundary offset) :
    (front ++ rest).IsBoundary (front.utf8Length + offset) := by
  obtain ⟨place, inside, rfl⟩ := boundary
  refine ⟨front.length + place, by simpa using inside, ?_⟩
  rw [Text.offset, Text.offset, List.take_length_add_append, utf8Length_append]

end ShellGlob.Text
