/-
# The lines of an open document

An open document ends a line at a line feed, a carriage return, the two together, a vertical tab, a
form feed, a next-line character, and the line and paragraph separators. The end belongs to the line
that it ends, so the lines of a text make up the text (`flatten_lines`).

The two conversions are total where they can be: an offset inside a character counts as the start of
that character, and a character past the end of its line counts as the end, which is the start of the
next line. `none` means an offset past the text or a line that does not exist.
-/
import ComponentLens.Text.Position

namespace ComponentLens.Lines

/-! ## 1. Splitting -/

/-- The characters that end a line. -/
def isLineEnd (c : Char) : Bool :=
  c == '\n' || c == '\r' || c == '\x0b' || c == '\x0c' || c == '\x85' || c == '\u2028' ||
    c == '\u2029'

/-- Whether the line ends after `c`; a carriage return leaves that to a line feed behind it. -/
def endsAfter (c : Char) (rest : List Char) : Bool :=
  isLineEnd c && !(c == '\r' && rest.head? == some '\n')

/-- The lines of a text, each with its end. There is always a last line, perhaps empty. -/
def lines : List Char → List (List Char)
  | [] => [[]]
  | c :: cs =>
    if endsAfter c cs then [c] :: lines cs
    else
      match lines cs with
      | [] => [[c]]
      | line :: rest => (c :: line) :: rest

/-- The lines make up the text. -/
theorem flatten_lines (cs : List Char) : (lines cs).flatten = cs := by
  induction cs with
  | nil => rfl
  | cons c cs ih =>
    rw [lines]
    split
    · simp [ih]
    · split
      next h => simp [h] at ih; simp [ih]
      next line rest h => rw [h] at ih; simpa using ih

theorem lines_ne_nil (cs : List Char) : lines cs ≠ [] := by
  cases cs with
  | nil => simp [lines]
  | cons c cs =>
    rw [lines]
    split
    · simp
    · split <;> simp

/-- The number of lines. -/
def count (text : String) : Nat := (lines text.toList).length

/-! ## 2. From offsets to positions -/

/-- Walks `remaining` bytes from a position. A character that is not walked over in full stops the
walk at its start. -/
def walk : List Char → Position → Nat → Option Position
  | [], at_, remaining => if remaining = 0 then some at_ else none
  | c :: cs, at_, remaining =>
    if remaining < c.utf8Size then some at_
    else
      walk cs (if endsAfter c cs then ⟨at_.line + 1, 0⟩ else ⟨at_.line, at_.character + 1⟩)
        (remaining - c.utf8Size)

/-- The position of a byte offset. -/
def positionAt? (text : String) (offset : Nat) : Option Position :=
  walk text.toList ⟨0, 0⟩ offset

/-! ## 3. From positions to offsets -/

/-- The byte offset of a position, in the given lines. -/
def offsetIn? : List (List Char) → Position → Option Nat
  | [], _ => none
  | line :: _, ⟨0, character⟩ => some (byteLength (line.take character))
  | line :: rest, ⟨n + 1, character⟩ =>
    (offsetIn? rest ⟨n, character⟩).map (byteLength line + ·)

/-- The byte offset of a position. -/
def offsetAt? (text : String) (pos : Position) : Option Nat :=
  offsetIn? (lines text.toList) pos

/-! ## 4. Both ends at once -/

/-- The range of a span. -/
def rangeOf? (text : String) (span : Span) : Option Range := do
  return ⟨← positionAt? text span.start, ← positionAt? text span.stop⟩

/-- The span of a range, its ends in order. -/
def spanOf? (text : String) (range : Range) : Option Span := do
  let start ← offsetAt? text range.start
  let stop ← offsetAt? text range.stop
  return (Span.mk start stop).normalized

end ComponentLens.Lines
