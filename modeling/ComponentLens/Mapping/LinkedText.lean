/-
# Mapped text with links

The code documents also link places of their own text to each other. A piece carries its links, and marks:
places that a larger piece ties together once both are in it.
-/
import ComponentLens.Mapping.Link
import ComponentLens.Mapping.MappedText

namespace ComponentLens

/-- Mapped text, links between its places, and places for later links. -/
structure LinkedText where
  body : MappedText CodeData := {}
  links : List (Mapping LinkData) := []
  marks : List Span := []

namespace LinkedText

/-- Mapped text without links. -/
def ofMapped (body : MappedText CodeData) : LinkedText := { body }

/-- Text that is mapped nowhere. -/
def plain (text : String) : LinkedText := ofMapped (.plain text)

/-- Text that stands for a place of the source. -/
def mapped (code : String) (source : Span) (mode : MatchMode) (data : CodeData) : LinkedText :=
  ofMapped (.mapped code source mode data)

instance : Coe (MappedText CodeData) LinkedText := ⟨ofMapped⟩

instance : Coe String LinkedText := ⟨plain⟩

/-- The piece with a mark over all of it. -/
def mark (t : LinkedText) : LinkedText := { t with marks := t.marks ++ [⟨0, t.body.size⟩] }

/-- The links of pieces that stand one behind the other from offset `pos` on. Both ends of a link are places
of the text, so both move along. -/
def linksFrom (pos : Nat) : List LinkedText → List (Mapping LinkData)
  | [] => []
  | t :: ts =>
    t.links.map (fun link => (link.shiftSource pos).shiftTarget pos) ++ linksFrom (pos + t.body.size) ts

/-- The marks of pieces that stand one behind the other from offset `pos` on. -/
def marksFrom (pos : Nat) : List LinkedText → List Span
  | [] => []
  | t :: ts => t.marks.map (·.shift pos) ++ marksFrom (pos + t.body.size) ts

/-- All pieces, one behind the other. -/
def concat (ts : List LinkedText) : LinkedText :=
  ⟨.concat (ts.map (·.body)), linksFrom 0 ts, marksFrom 0 ts⟩

/-- The piece with its marks turned into links. -/
def tie (t : LinkedText) (links : List Span → List (Mapping LinkData)) : LinkedText :=
  { t with links := t.links ++ links t.marks, marks := [] }

end LinkedText

end ComponentLens
