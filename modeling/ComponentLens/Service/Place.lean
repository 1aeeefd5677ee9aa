/-
# Places and edits

Analysis tools speak of spans of documents, generated or not; users see ranges of files. A `Place` is the
one, a `Location` the other, and edits come in both forms.
-/
import ComponentLens.Text.Position
import ComponentLens.Uri
import ComponentLens.Workspace.Table

namespace ComponentLens.Service

/-- A span of a document, generated or not. -/
structure Place where
  uri : Uri
  span : Span
  deriving DecidableEq, Repr

/-- A range of a file. -/
structure Location where
  uri : Uri
  range : Range
  deriving DecidableEq, Repr

/-- New text for a span. -/
structure SpanEdit where
  span : Span
  newText : String
  deriving DecidableEq, Repr

/-- New text for a range. -/
structure RangeEdit where
  range : Range
  newText : String
  deriving DecidableEq, Repr

/-- The edits of each document, in an order of their own. -/
abbrev Changes := Table Uri (List SpanEdit)

/-- New text for a place. -/
structure PlacedEdit where
  place : Place
  newText : String
  deriving DecidableEq, Repr

/-- The edits of one document. -/
def Changes.of (c : Changes) (uri : Uri) : List SpanEdit := (Table.get? c uri).getD []

/-- All edits, document by document in the order of the addresses. -/
def Changes.placed (c : Changes) : List PlacedEdit :=
  (c.entries.mergeSort fun a b => (compare a.1 b.1).isLE).flatMap fun (uri, edits) =>
    edits.map fun e => ⟨⟨uri, e.span⟩, e.newText⟩

/-- The edits without those whose place an earlier one edits already. -/
def distinctEdits (edits : List PlacedEdit) : List PlacedEdit :=
  edits.eraseDupsBy fun a b => a.place == b.place

end ComponentLens.Service
