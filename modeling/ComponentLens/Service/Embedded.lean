/-
# Requests about the template and the stylesheets alone

Colors, the names that are edited together, and the tag that closes an element: questions for the style and
the markup service, with no part for the backend.
-/
import ComponentLens.Service.MapBack

namespace ComponentLens.Service

variable {σ : Type}

/-! ## 1. Colors -/

/-- The colors in one stylesheet. -/
def documentColors (style : StyleService) (w : Workspace) (b : Virtual.Build) (d : Virtual.StyleDocument) :
    List (Range × Color) :=
  (orNothing (style.colors d.document)).filterMap fun (span, color) =>
    ((d.map.toSource? span).bind fun hit => w.files.rangeOf? b.uri hit.range).map (·, color)

/-- The colors in the stylesheets of a component. -/
def colors (tools : Tools σ) (w : Workspace) (uri : Uri) : List (Range × Color) × Workspace :=
  let w := w.refresh uri
  match tools.style, w.build? uri with
  | some style, some b =>
    ((b.styleDocuments.filter (style.supports ·.document.languageId)).flatMap (documentColors style w b), w)
  | _, _ => ([], w)

/-! ## 2. Markup -/

/-- The copy of the template and the offset in it that a position maps to. -/
def markupOffset? (w : Workspace) (uri : Uri) (pos : Position) : Option (Virtual.MarkupDocument × Nat) := do
  let b ← w.build? uri
  let d ← b.markup
  let offset ← w.files.offsetAt? uri pos
  let hit ← d.map.toTarget? (Span.empty offset)
  return (d, hit.range.start)

/-- The answer of the markup service about a position. Without a service there is no need for a build. -/
def askMarkup {α : Type} (tools : Tools σ) (w : Workspace) (uri : Uri) (pos : Position)
    (ask : MarkupService → Virtual.MarkupDocument → Nat → Option α) : Option α × Workspace :=
  match tools.markup with
  | none => (none, w)
  | some markup =>
    let w := w.refresh uri
    ((markupOffset? w uri pos).bind fun (d, offset) => ask markup d offset, w)

/-- An answer that may be lacking, and is when there is a failure. -/
def answered {α : Type} : Reply (Option α) → Option α
  | .ok answer => answer
  | .error _ => none

/-- The ranges that are edited together with the tag name at a position. There is at least one. -/
def linkedRanges (tools : Tools σ) (w : Workspace) (uri : Uri) (pos : Position) :
    Option (List Range) × Workspace :=
  askMarkup tools w uri pos fun markup d offset =>
    (answered (markup.linked d.document offset)).bind fun spans =>
      let ranges := spans.filterMap fun span =>
        (d.map.toSource? span).bind fun hit => w.files.rangeOf? uri hit.range
      if ranges.isEmpty then none else some ranges

/-- What closes the tag that ends at a position. -/
def closingTag (tools : Tools σ) (w : Workspace) (uri : Uri) (pos : Position) : Option String × Workspace :=
  askMarkup tools w uri pos fun markup d offset => answered (markup.closing d.document offset)

end ComponentLens.Service
