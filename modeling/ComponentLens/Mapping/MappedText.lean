/-
# Text that carries its own map

A generated document is put together from pieces. Each piece is text with mappings whose target spans are
relative to the start of the piece; when pieces are joined, the mappings of the later ones move along. So
what a piece maps where can be read off the piece alone, wherever it ends up.
-/
import ComponentLens.Mapping.SpanMap

namespace ComponentLens

/-- Text, and mappings from places of a source to places of the text. -/
structure MappedText (α : Type) where
  text : String := ""
  mappings : List (Mapping α) := []
  deriving DecidableEq, Repr

namespace MappedText

variable {α : Type}

/-- The number of bytes. -/
def size (t : MappedText α) : Nat := t.text.utf8ByteSize

/-! ## 1. Pieces -/

/-- Text that is mapped nowhere. -/
def plain (text : String) : MappedText α := ⟨text, []⟩

instance : Coe String (MappedText α) := ⟨plain⟩

/-- Text that stands for a place of the source. -/
def mapped (code : String) (source : Span) (mode : MatchMode) (data : α) : MappedText α :=
  ⟨code, [⟨data, mode, source, ⟨0, code.utf8ByteSize⟩, []⟩]⟩

/-- No text, but a mapping over the text of the given length that comes next. A coarse mapping is laid in
this way over text that is then written piece by piece. -/
def ahead (code : String) (source : Span) (mode : MatchMode) (data : α) : MappedText α :=
  ⟨"", [⟨data, mode, source, ⟨0, code.utf8ByteSize⟩, []⟩]⟩

/-- The text with one more mapping. -/
def push (t : MappedText α) (mapping : Mapping α) : MappedText α :=
  { t with mappings := t.mappings ++ [mapping] }

/-- The text with one more mapping over all of it. -/
def covering (t : MappedText α) (source : Span) (mode : MatchMode) (data : α) : MappedText α :=
  t.push ⟨data, mode, source, ⟨0, t.size⟩, []⟩

/-! ## 2. Joining -/

/-- One piece behind another. -/
def append (t u : MappedText α) : MappedText α :=
  ⟨t.text ++ u.text, t.mappings ++ u.mappings.map (·.shiftTarget t.size)⟩

instance : Append (MappedText α) := ⟨append⟩

/-- The mappings of pieces that stand one behind the other from offset `pos` on. -/
def mappingsFrom (pos : Nat) : List (MappedText α) → List (Mapping α)
  | [] => []
  | t :: ts => t.mappings.map (·.shiftTarget pos) ++ mappingsFrom (pos + t.size) ts

/-- All pieces, one behind the other. -/
def concat (ts : List (MappedText α)) : MappedText α :=
  ⟨String.join (ts.map (·.text)), mappingsFrom 0 ts⟩

/-- The text with its sources moved forward, as when a block is placed in its file. -/
def shiftSource (t : MappedText α) (base : Nat) : MappedText α :=
  { t with mappings := t.mappings.map (·.shiftSource base) }

/-! ## 3. Laws -/

@[simp] theorem text_append (t u : MappedText α) : (t ++ u).text = t.text ++ u.text := rfl

@[simp] theorem mappings_append (t u : MappedText α) :
    (t ++ u).mappings = t.mappings ++ u.mappings.map (·.shiftTarget t.size) := rfl

@[simp] theorem size_append (t u : MappedText α) : (t ++ u).size = t.size + u.size := by
  simp [size, String.utf8ByteSize_append]

end MappedText

end ComponentLens
