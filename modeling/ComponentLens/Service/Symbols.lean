/-
# Where a symbol is used, declared and typed

The three requests ask the backend from every place that the cursor stands for, follow links, and map what
comes back to the files. A style service is asked as well, about classes that no code declares; a type has
no counterpart there.

A request that is cancelled while the backend works gives nothing.
-/
import ComponentLens.Service.Walk

namespace ComponentLens.Service

variable {σ : Type}

/-! ## 1. By way of the code -/

/-- What the backend is asked by a look-up. -/
def askPlaces (backend : Backend σ) (lookup : Lookup) (q : Question) :
    StateM σ (Reply (List (Place × Unit))) := do
  return (← backend.find lookup q.uri q.offset).map fun places => places.map (·, ())

/-- The places that the walks from some starts find, mapped back; nothing when cancelled. -/
def mappedPlaces (backend : Backend σ) (builds : BuildCache) (lookup : Lookup) (starts : List Start) :
    StateM σ (List MappedPlace) := do
  let found ← follow backend.isCancelled (askPlaces backend lookup) builds lookup.linkCapability [] starts
  return (found.getD []).flatMap fun (place, _) => mapBack builds lookup.capability place

/-- The places of the symbol at a position. In a file that is no component the request starts right there, and
keeps what lies in components. -/
def codePlaces (backend : Backend σ) (w : Workspace) (lookup : Lookup) (uri : Uri) (pos : Position) :
    StateM σ (List MappedPlace) :=
  match w.build? uri with
  | some b =>
    match w.files.offsetAt? uri pos with
    | some offset => mappedPlaces backend w.builds lookup (starts b offset lookup.capability "")
    | none => pure []
  | none => do
    match ← offsetAt? backend w uri pos with
    | some offset =>
      let places ← mappedPlaces backend w.builds lookup [⟨⟨uri, offset, ""⟩, .script⟩]
      return places.filter (·.data.isSome)
    | none => return []

/-! ## 2. By way of the stylesheets -/

/-- The stylesheets of a build that the service reads, each with the offsets that a position maps to. -/
def styleOffsets (style : StyleService) (b : Virtual.Build) (offset : Nat) :
    List (Virtual.StyleDocument × Nat) :=
  (b.styleDocuments.filter (style.supports ·.document.languageId)).flatMap fun d =>
    (d.map.toTargets (Span.empty offset)).map fun hit => (d, hit.range.start)

/-- What the style service finds for a position, where there is a service and a build. -/
def withStyles {α : Type} (style : Option StyleService) (w : Workspace) (uri : Uri) (pos : Position)
    (find : StyleService → Virtual.Build → Virtual.StyleDocument → Nat → List α) : List α :=
  match style, w.build? uri, w.files.offsetAt? uri pos with
  | some style, some b, some offset =>
    (styleOffsets style b offset).flatMap fun (d, offset) => find style b d offset
  | _, _, _ => []

/-- A span of a stylesheet in the component. -/
def inComponent? (b : Virtual.Build) (map : SpanMap Unit) (span : Span) : Option MappedPlace :=
  (map.toSource? span).map fun hit => ⟨⟨b.uri, hit.range⟩, none⟩

/-- The uses of a class. Only those in the stylesheet itself count. -/
def styleReferences (style : StyleService) (b : Virtual.Build) (d : Virtual.StyleDocument) (offset : Nat) :
    List MappedPlace :=
  ((orNothing (style.references d.document offset)).filter (·.uri == d.document.uri)).filterMap
    fun place => inComponent? b d.map place.span

/-- The declaration of a class. It may lie in any stylesheet of the component, or in a file that is not
generated. -/
def styleDefinition (builds : BuildCache) (style : StyleService) (b : Virtual.Build)
    (d : Virtual.StyleDocument) (offset : Nat) : List MappedPlace :=
  match style.definition d.document offset with
  | .ok (some place) =>
    match b.styleDocument? place.uri with
    | some d => (inComponent? b d.map place.span).toList
    | none => if (builds.owner? place.uri).isSome then [] else [⟨place, none⟩]
  | _ => []

/-! ## 3. The requests -/

/-- The locations of the symbol at a position, in a workspace whose build is fresh. `extra` adds places that
the backend does not know. -/
def symbolLocations (tools : Tools σ) (w : Workspace) (lookup : Lookup) (uri : Uri) (pos : Position)
    (extra : List MappedPlace) : StateM σ (List Location) := do
  let places ← codePlaces tools.backend w lookup uri pos
  if ← tools.backend.isCancelled then return []
  locations tools.backend w (places ++ extra)

/-- Where the symbol at a position is used. -/
def references (tools : Tools σ) (w : Workspace) (uri : Uri) (pos : Position) :
    StateM σ (List Location × Workspace) := do
  let w := w.refresh uri
  let extra := withStyles tools.style w uri pos styleReferences
  return (← symbolLocations tools w .references uri pos extra, w)

/-- Where the symbol at a position is declared. -/
def definitions (tools : Tools σ) (w : Workspace) (uri : Uri) (pos : Position) :
    StateM σ (List Location × Workspace) := do
  let w := w.refresh uri
  let extra := withStyles tools.style w uri pos (styleDefinition w.builds)
  return (← symbolLocations tools w .definition uri pos extra, w)

/-- Where the type of the symbol at a position is declared. -/
def typeDefinitions (tools : Tools σ) (w : Workspace) (uri : Uri) (pos : Position) :
    StateM σ (List Location × Workspace) := do
  let w := w.refresh uri
  return (← symbolLocations tools w .typeDefinition uri pos [], w)

end ComponentLens.Service
