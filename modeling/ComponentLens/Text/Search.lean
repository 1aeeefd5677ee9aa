/-
# Searching text

Cuts at the first place where a given piece of text stands.
-/

namespace ComponentLens

/-- The text before the first occurrence of a needle, and the text from it on. -/
def breakOn (needle : List Char) : List Char → List Char × List Char
  | [] => ([], [])
  | c :: cs =>
    if needle.isPrefixOf (c :: cs) then ([], c :: cs)
    else
      let (before, rest) := breakOn needle cs
      (c :: before, rest)

/-- The two parts make up the text. -/
theorem breakOn_append (needle cs : List Char) : (breakOn needle cs).1 ++ (breakOn needle cs).2 = cs := by
  induction cs with
  | nil => rfl
  | cons c cs ih =>
    rw [breakOn]
    split
    · rfl
    · simp [ih]

/-- What follows the cut is empty, or the needle stands there. -/
theorem breakOn_snd (needle cs : List Char) :
    (breakOn needle cs).2 = [] ∨ needle <+: (breakOn needle cs).2 := by
  induction cs with
  | nil => exact .inl rfl
  | cons c cs ih =>
    rw [breakOn]
    split
    next h => exact .inr (List.isPrefixOf_iff_prefix.1 h)
    · exact ih

/-- The text up to the first `stop`, that character included, and the text behind it. -/
def cutAfter (stop : Char) : List Char → List Char × List Char
  | [] => ([], [])
  | c :: cs =>
    if c == stop then ([c], cs)
    else
      let (before, rest) := cutAfter stop cs
      (c :: before, rest)

/-- The two parts make up the text. -/
theorem cutAfter_append (stop : Char) (cs : List Char) :
    (cutAfter stop cs).1 ++ (cutAfter stop cs).2 = cs := by
  induction cs with
  | nil => rfl
  | cons c cs ih =>
    rw [cutAfter]
    split
    · rfl
    · simp [ih]

theorem length_cutAfter_snd_le (stop : Char) (cs : List Char) :
    (cutAfter stop cs).2.length ≤ cs.length := by
  have := congrArg List.length (cutAfter_append stop cs)
  simp only [List.length_append] at this
  omega

/-- The parts of a text between the occurrences of a character. There is always one part. -/
def splitOnChar (separator : Char) : List Char → List (List Char)
  | [] => [[]]
  | c :: cs =>
    if c == separator then [] :: splitOnChar separator cs
    else
      match splitOnChar separator cs with
      | [] => [[c]]
      | part :: parts => (c :: part) :: parts

/-- Whether a text starts with a word, letter case of ASCII letters aside. -/
def startsWithWord (word cs : List Char) : Bool :=
  (cs.take word.length).map Char.toLower == word.map Char.toLower

end ComponentLens
