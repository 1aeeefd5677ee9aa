/-
# Diagnostics

What the backend has to say about the generated code is mapped back to the component, and the faults of the
component itself follow. A cancelled request still gives what it has so far.
-/
import ComponentLens.Service.MapBack

namespace ComponentLens.Service

variable {σ : Type}

/-- A diagnostic of a file. -/
structure Diagnostic where
  range : Range
  severity : Severity
  code : Option DiagnosticCode
  source : String
  message : String
  tags : List Int := []
  /-- Locations that explain it, each with a message. -/
  related : List (Location × String) := []
  deriving DecidableEq, Repr

/-- What stands as the source of faults of a component. -/
def faultSource : String := "tessera"

/-- What stands as the source of a diagnostic that names none. -/
def backendSource : String := "ts"

/-! ## 1. From the backend -/

/-- The location of a place that explains a diagnostic. -/
def relatedLocation? (backend : Backend σ) (w : Workspace) (place : Place) : StateM σ (Option Location) :=
  match mapBack w.builds .diagnostic place with
  | p :: _ => locate? backend w p.place
  | [] => pure none

/-- A diagnostic of the component, unless no mapping for diagnostics leads there. -/
def mapDiagnostic? (backend : Backend σ) (w : Workspace) (b : Virtual.Build) (d : Virtual.CodeDocument)
    (diagnostic : BackendDiagnostic) : StateM σ (Option Diagnostic) :=
  let hit := (d.map.toSources diagnostic.span).find? (·.data.capabilities.has .diagnostic)
  match hit.bind fun hit => w.files.rangeOf? b.uri hit.range with
  | none => pure none
  | some range => do
    let related ← gather
      (fun (place, message) => return ((← relatedLocation? backend w place).map (·, message)).toList)
      diagnostic.related
    return some
      { range, related
        severity := diagnostic.severity
        code := diagnostic.code
        source := diagnostic.source.getD backendSource
        message := diagnostic.message
        tags := diagnostic.tags }

/-- The diagnostics of the code documents, in order, as far as the request is not cancelled. -/
def codeDiagnostics (backend : Backend σ) (w : Workspace) (b : Virtual.Build) :
    List Virtual.CodeDocument → StateM σ (List Diagnostic)
  | [] => pure []
  | d :: rest => do
    if ← backend.isCancelled then return []
    match ← backend.diagnostics d.document.uri w.settings.diagnostics with
    | .error .cancelled => return []
    | .error _ => codeDiagnostics backend w b rest
    | .ok diagnostics =>
      let mapped ← gather (fun x => return (← mapDiagnostic? backend w b d x).toList) diagnostics
      return mapped ++ (← codeDiagnostics backend w b rest)

/-! ## 2. From the component -/

/-- The faults of a component as diagnostics. -/
def faultDiagnostics (w : Workspace) (b : Virtual.Build) : List Diagnostic :=
  b.faults.filterMap fun f =>
    (w.files.rangeOf? b.uri f.fault.span).map fun range =>
      { range
        severity := .error
        code := some (.text f.fault.cause.code.display)
        source := faultSource
        message := f.fault.cause.message }

/-! ## 3. The request -/

/-- The diagnostics of a component. -/
def diagnostics (tools : Tools σ) (w : Workspace) (uri : Uri) : StateM σ (List Diagnostic × Workspace) := do
  let w := w.refresh uri
  match w.build? uri with
  | none => return ([], w)
  | some b =>
    let found ← codeDiagnostics tools.backend w b b.codeDocuments
    return (found ++ if w.settings.reportsFaults then faultDiagnostics w b else [], w)

end ComponentLens.Service
