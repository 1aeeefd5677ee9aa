/-
Membership in the class of word characters.
-/
import ComponentLens.Text.WordCharData

namespace ComponentLens

/-- Whether a character can be part of a word: an ASCII letter, digit or underscore, or a character
of the Unicode ranges. -/
def isWordChar (c : Char) : Bool :=
  if c.val < 0x80 then c.isAlphanum || c == '_'
  else WordChar.ranges.any fun (first, last) => first ≤ c.toNat && c.toNat ≤ last

end ComponentLens
