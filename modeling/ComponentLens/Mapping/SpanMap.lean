/-
# Maps between the spans of two documents

A `SpanMap` is an ordered list of mappings. Each relates a span of the source document to a span of
the target document under one `MatchMode`, and may carry further pairs that are tried after the first.

Look-ups scan the mappings in the order in which they were added. The look-ups for one result take the
first match, so where mappings overlap the order decides.
-/
import ComponentLens.Text.Span

namespace ComponentLens

/-! ## 1. One pair of spans -/

/-- How a span that is looked up is held against a mapped span. -/
inductive MatchMode where
  /-- It must lie inside. The result keeps the distances to both ends. -/
  | offset
  /-- It must be the mapped span. The result is the whole other side. -/
  | gate
  /-- It must lie inside. The result is the whole other side. -/
  | inside
  deriving DecidableEq, Repr, Inhabited

/-- The largest offset that a document can have. -/
def maxOffset : Nat := UInt32.size - 1

/-- An offset kept within a document. -/
def clampOffset (n : Int) : Nat := min n.toNat maxOffset

/-- Carries `range` from one span to the other, if it matches. -/
def MatchMode.carry (mode : MatchMode) (range source target : Span) : Option Span :=
  match mode with
  | .gate => if range = source then some target.normalized else none
  | .inside => if source.contains range then some target.normalized else none
  | .offset =>
    if source.contains range then
      let start : Int := target.start + range.start - source.start
      let stop : Int := target.stop + range.stop - source.stop
      some (Span.mk (clampOffset start) (clampOffset stop)).normalized
    else none

/-- A way to carry spans between two places. -/
structure SpanPair where
  mode : MatchMode
  source : Span
  target : Span
  deriving DecidableEq, Repr

/-- Which side a look-up starts from. -/
inductive Direction where
  | toTarget
  | toSource
  deriving DecidableEq, Repr

/-- Carries a span through a pair. -/
def SpanPair.carry (pair : SpanPair) (direction : Direction) (range : Span) : Option Span :=
  match direction with
  | .toTarget => pair.mode.carry range pair.source pair.target
  | .toSource => pair.mode.carry range pair.target pair.source

/-! ## 2. One mapping -/

/-- A pair of spans with what is known about it, and the pairs tried after it. -/
structure Mapping (α : Type) where
  data : α
  mode : MatchMode
  source : Span
  target : Span
  alternates : List SpanPair := []
  deriving DecidableEq, Repr

namespace Mapping

variable {α β : Type}

/-- The mapping with one more pair to try. -/
def addAlternate (m : Mapping α) (pair : SpanPair) : Mapping α :=
  { m with alternates := m.alternates ++ [pair] }

/-- Moves every source span forward. -/
def shiftSource (m : Mapping α) (base : Nat) : Mapping α :=
  { m with
    source := m.source.shift base
    alternates := m.alternates.map fun pair => { pair with source := pair.source.shift base } }

/-- Moves every target span forward. -/
def shiftTarget (m : Mapping α) (base : Nat) : Mapping α :=
  { m with
    target := m.target.shift base
    alternates := m.alternates.map fun pair => { pair with target := pair.target.shift base } }

/-- The pairs of a mapping in the order in which they are tried. -/
def pairs (m : Mapping α) : List SpanPair := ⟨m.mode, m.source, m.target⟩ :: m.alternates

/-- Carries a span through a mapping: the first pair that matches decides. -/
def carry (m : Mapping α) (direction : Direction) (range : Span) : Option Span :=
  m.pairs.findSome? (·.carry direction range)

end Mapping

/-! ## 3. Maps -/

/-- The result of a look-up: a span, and the data of the mapping that gave it. -/
structure Hit (α : Type) where
  range : Span
  data : α
  deriving DecidableEq, Repr

/-- The mappings between two documents, in order. -/
structure SpanMap (α : Type) where
  mappings : List (Mapping α) := []
  deriving DecidableEq, Repr

namespace SpanMap

variable {α : Type}

/-- The map with one more mapping at its end. -/
def push (m : SpanMap α) (mapping : Mapping α) : SpanMap α := ⟨m.mappings ++ [mapping]⟩

/-- The number of mappings. -/
def size (m : SpanMap α) : Nat := m.mappings.length

/-- What a mapping answers. -/
def hit? (direction : Direction) (range : Span) (mapping : Mapping α) : Option (Hit α) :=
  (mapping.carry direction range).map (⟨·, mapping.data⟩)

/-- Every match, in order. -/
def hits (m : SpanMap α) (direction : Direction) (range : Span) : List (Hit α) :=
  m.mappings.filterMap (hit? direction range)

/-- The first match. -/
def first? (m : SpanMap α) (direction : Direction) (range : Span) : Option (Hit α) :=
  m.mappings.findSome? (hit? direction range)

/-- The first match from the source side. -/
def toTarget? (m : SpanMap α) (range : Span) : Option (Hit α) := m.first? .toTarget range

/-- The first match from the target side. -/
def toSource? (m : SpanMap α) (range : Span) : Option (Hit α) := m.first? .toSource range

/-- Every match from the source side. -/
def toTargets (m : SpanMap α) (range : Span) : List (Hit α) := m.hits .toTarget range

/-- Every match from the target side. -/
def toSources (m : SpanMap α) (range : Span) : List (Hit α) := m.hits .toSource range

/-- The first match heads the list of all matches. -/
theorem head?_hits (m : SpanMap α) (direction : Direction) (range : Span) :
    (m.hits direction range).head? = m.first? direction range := by
  simp [hits, first?, List.head?_filterMap]

end SpanMap

end ComponentLens
