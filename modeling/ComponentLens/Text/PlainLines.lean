/-
# The lines of plain text

Text that no editor holds open is read with the line feed as its only line end, and the end is not
part of the line. An offset has a position only at a character boundary.
-/
import ComponentLens.Text.Position

namespace ComponentLens.PlainLines

/-! ## 1. From offsets to positions -/

/-- The position after the given characters, counted from `at_`. -/
def advance (at_ : Position) : List Char → Position
  | [] => at_
  | c :: cs => advance (if c == '\n' then ⟨at_.line + 1, 0⟩ else ⟨at_.line, at_.character + 1⟩) cs

/-- The position of a byte offset. -/
def positionAt? (text : String) (offset : Nat) : Option Position :=
  (splitAtByte? text.toList offset).map fun (before, _) => advance ⟨0, 0⟩ before

/-! ## 2. From positions to offsets -/

/-- The text after the first line feed, and the bytes up to there. -/
def nextLine? : List Char → Option (Nat × List Char)
  | [] => none
  | c :: cs => if c == '\n' then some (1, cs) else (nextLine? cs).map fun (n, rest) => (c.utf8Size + n, rest)

/-- The byte offset of a line, and the text from there on. -/
def lineStart? (cs : List Char) : Nat → Option (Nat × List Char)
  | 0 => some (0, cs)
  | n + 1 => do
    let (skipped, rest) ← nextLine? cs
    let (offset, line) ← lineStart? rest n
    return (skipped + offset, line)

/-- The byte offset of a position. A character past the end of its line counts as the end. -/
def offsetAt? (text : String) (pos : Position) : Option Nat :=
  (lineStart? text.toList pos.line).map fun (offset, rest) =>
    offset + byteLength ((rest.takeWhile (· != '\n')).take pos.character)

/-! ## 3. Both ends at once -/

/-- The range of a span. -/
def rangeOf? (text : String) (span : Span) : Option Range := do
  return ⟨← positionAt? text span.start, ← positionAt? text span.stop⟩

/-- The span of a range, its ends in order. -/
def spanOf? (text : String) (range : Range) : Option Span := do
  let start ← offsetAt? text range.start
  let stop ← offsetAt? text range.stop
  return (Span.mk start stop).normalized

end ComponentLens.PlainLines
