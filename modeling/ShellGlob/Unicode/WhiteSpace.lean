import ShellGlob.Unicode.CharacterSet

/-!
# White space

The characters with the property White_Space, as of Unicode 16.0.
-/

namespace ShellGlob.Unicode

/-- The intervals of White_Space: 25 characters in all. -/
def whiteSpaceIntervals : Ranges :=
  [(0x9, 0xD), (0x20, 0x20), (0x85, 0x85), (0xA0, 0xA0), (0x1680, 0x1680), (0x2000, 0x200A),
   (0x2028, 0x2029), (0x202F, 0x202F), (0x205F, 0x205F), (0x3000, 0x3000)]

/-- The characters with the property White_Space. -/
def whiteSpace : CharacterSet :=
  .ofTable whiteSpaceIntervals (by decide +kernel)

end ShellGlob.Unicode
