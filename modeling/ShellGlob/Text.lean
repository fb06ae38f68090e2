/-!
# Text

Globs, regular expressions and candidates are lists of characters.  Places in
a glob are reported in bytes of its UTF-8 encoding, which `utf8Length` counts.
-/

namespace ShellGlob

/-- A text, one entry per character. -/
abbrev Text := List Char

/-- The number of bytes of the text in UTF-8. -/
def Text.utf8Length : Text → Nat
  | [] => 0
  | c :: rest => c.utf8Size + Text.utf8Length rest

@[simp] theorem Text.utf8Length_nil : Text.utf8Length [] = 0 := rfl

theorem Text.utf8Length_append (left right : Text) :
    Text.utf8Length (left ++ right) = Text.utf8Length left + Text.utf8Length right := by
  induction left with
  | nil => simp
  | cons c left ih => simp [Text.utf8Length, ih, Nat.add_assoc]

/-- The part of the text from one place up to another. -/
def Text.slice (text : Text) (start stop : Nat) : Text :=
  (text.take stop).drop start

/-- A printing ASCII character that is neither a letter nor a digit nor a
blank. -/
def isPunctuation (c : Char) : Bool :=
  ('!' ≤ c && c ≤ '/') || (':' ≤ c && c ≤ '@') || ('[' ≤ c && c ≤ '\x60')
    || ('\x7b' ≤ c && c ≤ '~')

end ShellGlob
