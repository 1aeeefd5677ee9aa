/-
# Positions

A position names a line and a character within it, both counted from zero, as editors do. Documents are
shorter than 4 GiB, so that both fit into 32 bits; here they are plain numbers.
-/
import ComponentLens.Text.Span

namespace ComponentLens

/-- A line, and the number of characters in front on that line. -/
structure Position where
  line : Nat
  character : Nat
  deriving DecidableEq, Repr, Inhabited

/-- Positions are ordered by line, then by character. -/
instance : Ord Position where
  compare a b := (compare a.line b.line).then (compare a.character b.character)

/-- The text between two positions. -/
structure Range where
  start : Position
  stop : Position
  deriving DecidableEq, Repr, Inhabited

/-- Ranges are ordered by their start, then by their end. -/
instance : Ord Range where
  compare a b := (compare a.start b.start).then (compare a.stop b.stop)

end ComponentLens
