/-
Upper and lower case of single characters. The counterpart of one character may be several, as for
the sharp s, so both functions return a list.
-/
import ComponentLens.Text.LetterCaseData

namespace ComponentLens.LetterCase

/-- The counterpart that a run gives to code point `n`, if `n` is one of its characters. -/
def Run.image? (r : Run) (n : Nat) : Option Nat :=
  if r.first ≤ n ∧ n ≤ r.last ∧ (n - r.first) % r.step = 0 then some (n + r.shift).toNat else none

/-- The counterpart of a character by table; a character in neither table is its own. -/
def image (sequences : List (Nat × List Nat)) (runs : List Run) (c : Char) : List Char :=
  match sequences.lookup c.toNat with
  | some ns => ns.map Char.ofNat
  | none =>
    match runs.findSome? (·.image? c.toNat) with
    | some n => [Char.ofNat n]
    | none => [c]

/-- The upper case of a character. -/
def upper (c : Char) : List Char :=
  if c.val < 0x80 then [c.toUpper] else image upperSequences upperRuns c

/-- The lower case of a character. -/
def lower (c : Char) : List Char :=
  if c.val < 0x80 then [c.toLower] else image lowerSequences lowerRuns c

end ComponentLens.LetterCase
