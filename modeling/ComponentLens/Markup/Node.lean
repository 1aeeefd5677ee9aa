/-
# Markup trees

The tree of a template. Chains of conditions and loops are nodes of their own; before they are lifted out
of their elements they are directives like any other. Every part keeps the place where it is written.
-/
import ComponentLens.Text.Span

namespace ComponentLens.Markup

/-! ## 1. Tags -/

/-- A piece of code in markup. -/
structure Expression where
  content : String
  span : Span
  deriving DecidableEq, Repr

/-- The value of an attribute, with its place without and with its quotes. -/
structure AttrValue where
  content : String
  span : Span
  quotedSpan : Span
  deriving DecidableEq, Repr

/-- An attribute whose value is plain text. -/
structure Attribute where
  name : String
  nameSpan : Span
  value : Option AttrValue
  span : Span
  deriving DecidableEq, Repr

/-- The argument of a directive: a fixed name, or an expression in brackets. -/
structure DirectiveArg where
  content : String
  span : Span
  isStatic : Bool
  deriving DecidableEq, Repr

/-- An attribute whose value is code. -/
structure Directive where
  /-- The name without its mark; a shorthand has the name of what it stands for. -/
  name : String
  /-- The attribute name as written. -/
  rawName : String
  arg : Option DirectiveArg
  exp : Option Expression
  modifiers : List String
  span : Span
  deriving DecidableEq, Repr

/-- What a tag holds beside its name. -/
inductive TagProp where
  | plain (a : Attribute)
  | directive (d : Directive)
  deriving DecidableEq, Repr

/-- The place of an attribute or a directive. -/
def TagProp.span : TagProp → Span
  | .plain a => a.span
  | .directive d => d.span

/-- The tag of an element. -/
structure Tag where
  name : String
  /-- The place of the name in the opening tag. -/
  nameSpan : Span
  /-- The place of the name in the closing tag. -/
  endNameSpan : Option Span
  props : List TagProp
  isSelfClosing : Bool
  /-- The place of the whole element. -/
  span : Span
  deriving DecidableEq, Repr

namespace Tag

/-- The directives of a tag, in order. -/
def directives (tag : Tag) : List Directive :=
  tag.props.filterMap fun
    | .directive d => some d
    | .plain _ => none

/-- The attributes of a tag, in order. -/
def attributes (tag : Tag) : List Attribute :=
  tag.props.filterMap fun
    | .plain a => some a
    | .directive _ => none

/-- The first directive of a name. -/
def directive? (tag : Tag) (name : String) : Option Directive :=
  tag.directives.find? (·.name == name)

/-- The first attribute of a name. -/
def attribute? (tag : Tag) (name : String) : Option Attribute :=
  tag.attributes.find? (·.name == name)

end Tag

/-! ## 2. Nodes -/

/-- The parts of a loop: what it runs over, and the names for each turn. -/
structure Loop where
  source : Expression
  value : Option Expression
  key : Option Expression
  index : Option Expression
  deriving DecidableEq, Repr

mutual

/-- A node of a tree. -/
inductive Node where
  | element (tag : Tag) (children : List Node)
  | text (content : String) (span : Span)
  | comment (content : String) (span : Span)
  | interpolation (content : Expression) (span : Span)
  /-- A chain of conditions. -/
  | chain (branches : List Branch) (span : Span)
  /-- What is repeated, and how. -/
  | loop (parts : Loop) (children : List Node) (span : Span)

/-- One case of a chain. The last case may come without a condition. -/
inductive Branch where
  | mk (condition : Option Expression) (children : List Node) (span : Span)

end

/-- The place of a node. -/
def Node.span : Node → Span
  | .element tag _ => tag.span
  | .text _ span => span
  | .comment _ span => span
  | .interpolation _ span => span
  | .chain _ span => span
  | .loop _ _ span => span

end ComponentLens.Markup
