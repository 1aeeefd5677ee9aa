/-
# From pieces to a tree

`build` nests the pieces of a text. An element without a closing tag ends where its parent ends, a closing
tag without an element is passed over, and both are faults.
-/
import ComponentLens.Markup.Piece

namespace ComponentLens.Markup

/-! ## 1. Open elements -/

/-- An element that still waits for its closing tag, and the nodes before it, the last one first. -/
structure OpenElement where
  tag : Tag
  siblings : List Node

/-- What has been read so far. -/
structure Builder where
  /-- The children of the innermost open element, the last one first. -/
  here : List Node := []
  /-- The open elements, innermost first. -/
  opened : List OpenElement := []
  /-- The faults, in the order in which they are found. -/
  faults : List Fault := []

namespace Builder

/-- Adds a node. -/
def add (b : Builder) (node : Node) : Builder := { b with here := node :: b.here }

/-- Adds a fault. -/
def report (b : Builder) (fault : Fault) : Builder := { b with faults := b.faults ++ [fault] }

/-- Ends the given open element at offset `stop`, with all that was read inside it. -/
def closeElement (b : Builder) (element : OpenElement) (endName : Option Span) (stop : Nat) : List Node :=
  let tag := { element.tag with endNameSpan := endName, span := ⟨element.tag.span.start, stop⟩ }
  .element tag b.here.reverse :: element.siblings

/-- Ends `count` open elements at offset `stop` although they have no closing tag. -/
def abandon (b : Builder) (stop : Nat) : Nat → Builder
  | 0 => b
  | count + 1 =>
    match b.opened with
    | [] => b
    | element :: outer =>
      let b := b.report ⟨.unclosedElement element.tag.name, element.tag.nameSpan⟩
      abandon { b with here := b.closeElement element none stop, opened := outer } stop count

/-- Ends the innermost open element. -/
def closeInnermost (b : Builder) (endName : Span) (stop : Nat) : Builder :=
  match b.opened with
  | [] => b
  | element :: outer => { b with here := b.closeElement element (some endName) stop, opened := outer }

end Builder

/-! ## 2. One piece after the other -/

/-- The elements that never hold anything. -/
def voidElements : List String :=
  ["area", "base", "br", "col", "embed", "hr", "img", "input", "link", "meta", "param", "source",
    "track", "wbr"]

/-- Whether an element ends with its opening tag. -/
def Tag.endsAtOnce (tag : Tag) : Bool := tag.isSelfClosing || voidElements.contains tag.name.toLower

/-- Adds a piece. A closing tag ends the innermost element of its name, letter case aside, and all inside
it. -/
def Builder.addPiece (b : Builder) (piece : Piece) : Builder :=
  let b := (piece.fault?.map b.report).getD b
  match piece with
  | .comment content span _ => b.add (.comment content span)
  | .text content span => b.add (.text content span)
  | .interpolation content span => b.add (.interpolation content span)
  | .unclosedInterpolation content span => b.add (.text content span)
  | .openTag tag =>
    if tag.endsAtOnce then b.add (.element tag [])
    else { b with here := [], opened := ⟨tag, b.here⟩ :: b.opened }
  | .closeTag name nameSpan span =>
    match b.opened.findIdx? (·.tag.name.toLower == name.toLower) with
    | none => b.report ⟨.unexpectedClosingTag name, span⟩
    | some depth => (b.abandon span.start depth).closeInnermost nameSpan span.stop

/-- The tree of a text, with directives still in place, and the faults. -/
def build (source : List Char) : List Node × List Fault :=
  let b := (pieces 0 source).foldl Builder.addPiece {}
  let b := b.abandon (byteLength source) b.opened.length
  (b.here.reverse, b.faults)

end ComponentLens.Markup
