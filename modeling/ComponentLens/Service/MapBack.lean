/-
# From generated documents back to files

A place in a generated document means something to the user only through the map of that document. Places
anywhere else are kept as they are.
-/
import ComponentLens.Service.Backend
import ComponentLens.Text.PlainLines
import ComponentLens.Workspace.Basic

namespace ComponentLens.Service

variable {σ : Type}

/-- A place outside the generated documents, with the data of the mapping that led to it, if one did. -/
structure MappedPlace where
  place : Place
  data : Option CodeData
  deriving DecidableEq, Repr

/-- The places in files that a place stands for. A place in a document of code is carried through those
mappings that allow what is wanted, and one in any other generated document is dropped. -/
def mapBack (builds : BuildCache) (wanted : Capabilities) (p : Place) : List MappedPlace :=
  match builds.generator? p.uri with
  | none => [⟨p, none⟩]
  | some h =>
    match h.build.codeDocument? p.uri with
    | none => []
    | some d =>
      ((d.map.toSources p.span).filter (·.data.capabilities.has wanted)).map fun hit =>
        ⟨⟨h.build.uri, hit.range⟩, some hit.data⟩

/-- A place that is in no generated document is left alone. -/
theorem mapBack_of_generator?_eq_none {builds : BuildCache} {p : Place} (wanted : Capabilities)
    (h : builds.generator? p.uri = none) : mapBack builds wanted p = [⟨p, none⟩] := by
  simp [mapBack, h]

/-- The location of a place. The backend is asked for the text of a file that is not open. -/
def locate? (backend : Backend σ) (w : Workspace) (p : Place) : StateM σ (Option Location) :=
  match w.files.rangeOf? p.uri p.span with
  | some range => pure (some ⟨p.uri, range⟩)
  | none => do
    let text ← backend.text? p.uri
    return (text.bind (PlainLines.rangeOf? · p.span)).map (⟨p.uri, ·⟩)

/-- The locations of the places, each once. Places that have none are left out. -/
def locations (backend : Backend σ) (w : Workspace) (places : List MappedPlace) :
    StateM σ (List Location) :=
  gather (fun p => return (← locate? backend w p).toList) (places.map (·.place)).eraseDups

/-- The byte offset of a position. The backend is asked for the text of a file that is not open. -/
def offsetAt? (backend : Backend σ) (w : Workspace) (uri : Uri) (pos : Position) :
    StateM σ (Option Nat) :=
  match w.files.offsetAt? uri pos with
  | some offset => pure (some offset)
  | none => return (← backend.text? uri).bind (PlainLines.offsetAt? · pos)

end ComponentLens.Service
