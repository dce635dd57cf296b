/-! # White space and its removal

A character is blank when it has the Unicode property `White_Space`. Trimming takes the blank
characters off both ends of a text and leaves those inside it.
-/

namespace ProcessFlow

/-- The characters of the property `White_Space`, by code point. -/
def isBlank (character : Char) : Bool :=
  let code := character.toNat
  (9 ≤ code && code ≤ 13) || code == 0x20 || code == 0x85 || code == 0xA0 || code == 0x1680 ||
    (0x2000 ≤ code && code ≤ 0x200A) || code == 0x2028 || code == 0x2029 || code == 0x202F ||
    code == 0x205F || code == 0x3000

def skipBlank (text : List Char) : List Char := text.dropWhile isBlank

def trimBlank (text : List Char) : List Char := (skipBlank (skipBlank text).reverse).reverse

theorem skipBlank_suffix (text : List Char) : skipBlank text <:+ text := List.dropWhile_suffix _

theorem length_skipBlank_le (text : List Char) : (skipBlank text).length ≤ text.length :=
  (skipBlank_suffix text).length_le

theorem skipBlank_cons_of_not_blank {character : Char} {rest : List Char}
    (solid : isBlank character = false) : skipBlank (character :: rest) = character :: rest := by
  simp [skipBlank, solid]

end ProcessFlow
