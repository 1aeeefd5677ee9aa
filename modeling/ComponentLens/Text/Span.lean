/-
Half-open ranges of byte offsets.

A span may be inverted. `normalized` puts its ends in order, `length` of an inverted span is zero,
and `slice` reads the empty text through a span that is inverted, reaches past the end or cuts a
character.

Documents are shorter than 4 GiB, so that offsets fit into 32 bits. Here they are plain numbers. Only what a
look-up moves is cut off at that bound (`clampOffset`).
-/
import ComponentLens.Text.Bytes

namespace ComponentLens

/-- The bytes from `start` up to and without `stop`. -/
structure Span where
  start : Nat
  stop : Nat
  deriving DecidableEq, Repr, Inhabited

namespace Span

/-- The empty span at an offset. -/
def empty (offset : Nat) : Span := ⟨offset, offset⟩

/-- The number of bytes, zero when inverted. -/
def length (s : Span) : Nat := s.stop - s.start

/-- Whether the span holds no byte. -/
def isEmpty (s : Span) : Bool := s.stop ≤ s.start

/-- Whether a cursor at `offset` touches the span; the end counts. -/
def touches (s : Span) (offset : Nat) : Bool := s.start ≤ offset && offset ≤ s.stop

/-- Whether `inner` starts no earlier and stops no later. -/
def contains (s inner : Span) : Bool := s.start ≤ inner.start && inner.stop ≤ s.stop

/-- The span moved forward by `base`. -/
def shift (s : Span) (base : Nat) : Span := ⟨s.start + base, s.stop + base⟩

/-- The span with its ends in order. -/
def normalized (s : Span) : Span := ⟨min s.start s.stop, max s.start s.stop⟩

/-- Spans are ordered by their start, then by their end. -/
instance : Ord Span where
  compare a b := (compare a.start b.start).then (compare a.stop b.stop)

/-- The characters between the two ends, if both are character boundaries in order. -/
def cut? (s : Span) (text : List Char) : Option (List Char) :=
  if s.start ≤ s.stop then do
    let (_, after) ← splitAtByte? text s.start
    let (inside, _) ← splitAtByte? after (s.stop - s.start)
    return inside
  else none

/-- The text under the span, empty where `cut?` finds none. -/
def slice (s : Span) (text : String) : String :=
  String.ofList ((s.cut? text.toList).getD [])

/-- A span read at the place where its text stands gives that text. -/
theorem cut?_append (before inside after : List Char) :
    cut? ⟨byteLength before, byteLength before + byteLength inside⟩ (before ++ (inside ++ after)) =
      some inside := by
  simp [cut?, splitAtByte?_append]

/-- The text with other characters under the span, where `cut?` finds some. -/
def replace? (s : Span) (text new : List Char) : Option (List Char) :=
  if s.start ≤ s.stop then do
    let (before, rest) ← splitAtByte? text s.start
    let (_, after) ← splitAtByte? rest (s.stop - s.start)
    return before ++ new ++ after
  else none

/-- A replacement leaves what stands before and after the span. -/
theorem replace?_append (before inside after new : List Char) :
    replace? ⟨byteLength before, byteLength before + byteLength inside⟩ (before ++ (inside ++ after))
      new = some (before ++ new ++ after) := by
  simp [replace?, splitAtByte?_append]

end Span

end ComponentLens
