/-
# Renaming

The backend renames in the generated code, and its edits are mapped back to the files. Where that gives no
edit, the markup service is asked to rename in the template, and where that gives none either, the style
service in the stylesheets.
-/
import ComponentLens.Service.Symbols

namespace ComponentLens.Service

variable {σ : Type}

/-! ## 1. By way of the code -/

/-- What the backend is asked by a rename. -/
def askEdits (backend : Backend σ) (q : Question) : StateM σ (Reply (List (Place × String))) := do
  return (← backend.rename q.uri q.offset q.name).map fun changes =>
    changes.placed.map fun e => (e.place, e.newText)

/-- The text of an edit that lands on a mapped place. A place whose mapping asks for a spelling like the old
one has to lie in a component with a held build, where the old spelling is found. -/
def landedText? (builds : BuildCache) (p : MappedPlace) (newText : String) : Option String :=
  match p.data.bind (·.onEdit) with
  | none => some newText
  | some t => (builds.build? p.place.uri).map fun b => t.apply (p.place.span.slice b.text) newText

/-- The edits of files that an edit of the backend stands for. -/
def landedEdits (builds : BuildCache) (place : Place) (newText : String) : List PlacedEdit :=
  (mapBack builds .renameOut place).filterMap fun p =>
    (landedText? builds p newText).map fun text => ⟨p.place, text⟩

/-- The edits that the backend makes for a rename at an offset; none when cancelled. -/
def codeEdits (backend : Backend σ) (builds : BuildCache) (b : Virtual.Build) (offset : Nat)
    (newName : String) : StateM σ (List PlacedEdit) := do
  let found ← follow backend.isCancelled (askEdits backend) builds .rename []
    (starts b offset .renameIn newName)
  return distinctEdits ((found.getD []).flatMap fun (place, text) => landedEdits builds place text)

/-! ## 2. By way of markup and stylesheets -/

/-- The edits of the component that a service makes in one of its documents. -/
def embeddedEdits (b : Virtual.Build) (document : Virtual.Document) (map : SpanMap Unit)
    (reply : Reply Changes) : List PlacedEdit :=
  (orNothing (reply.map (·.of document.uri))).filterMap fun e =>
    (map.toSource? e.span).map fun hit => ⟨⟨b.uri, hit.range⟩, e.newText⟩

/-- The edits that the markup service makes. -/
def markupEdits (markup : Option MarkupService) (b : Virtual.Build) (offset : Nat) (newName : String) :
    List PlacedEdit :=
  match markup, b.markup with
  | some markup, some d =>
    distinctEdits <| (d.map.toTargets (Span.empty offset)).flatMap fun hit =>
      embeddedEdits b d.document d.map (markup.rename d.document hit.range.start newName)
  | _, _ => []

/-- The edits that the style service makes. -/
def styleEdits (style : Option StyleService) (b : Virtual.Build) (offset : Nat) (newName : String) :
    List PlacedEdit :=
  match style with
  | some style =>
    distinctEdits <| (styleOffsets style b offset).flatMap fun (d, offset) =>
      embeddedEdits b d.document d.map (style.rename d.document offset newName)
  | none => []

/-- The first list that is not empty. -/
def firstNonempty {α : Type} : List (List α) → List α
  | [] => []
  | xs :: rest => if xs.isEmpty then firstNonempty rest else xs

/-! ## 3. The request -/

/-- The edits of one file as the editor takes them. An edit whose span is not in the file is left out. -/
def rangeEdits (backend : Backend σ) (w : Workspace) (uri : Uri) (edits : List PlacedEdit) :
    StateM σ (List RangeEdit) := do
  let text ← if (w.files.get? uri).isSome then pure none else backend.text? uri
  let rangeOf? (span : Span) : Option Range :=
    match text with
    | some text => PlainLines.rangeOf? text span
    | none => w.files.rangeOf? uri span
  return edits.filterMap fun e => (rangeOf? e.place.span).map (⟨·, e.newText⟩)

/-- The edits file by file, the files in the order in which they first come up. -/
def editsByFile (backend : Backend σ) (w : Workspace) (edits : List PlacedEdit) :
    StateM σ (List (Uri × List RangeEdit)) :=
  gather (fun uri => return [(uri, ← rangeEdits backend w uri (edits.filter (·.place.uri == uri)))])
    (edits.map (·.place.uri)).eraseDups

/-- The edits that give the symbol at an offset a new name; none at all when cancelled. -/
def renameEdits (tools : Tools σ) (w : Workspace) (b : Virtual.Build) (offset : Nat) (newName : String) :
    StateM σ (List PlacedEdit) := do
  let edits ← codeEdits tools.backend w.builds b offset newName
  if ← tools.backend.isCancelled then return []
  return firstNonempty
    [edits, markupEdits tools.markup b offset newName, styleEdits tools.style b offset newName]

/-- The edits that give the symbol at a position a new name, by file. -/
def rename (tools : Tools σ) (w : Workspace) (uri : Uri) (pos : Position) (newName : String) :
    StateM σ (Option (List (Uri × List RangeEdit)) × Workspace) := do
  let w := w.refresh uri
  match w.build? uri, w.files.offsetAt? uri pos with
  | some b, some offset =>
    let edits ← renameEdits tools w b offset newName
    if edits.isEmpty then return (none, w)
    return (some (← editsByFile tools.backend w edits), w)
  | _, _ => return (none, w)

end ComponentLens.Service
