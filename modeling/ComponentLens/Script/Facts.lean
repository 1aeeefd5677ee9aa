/-
# Facts about logic blocks

What the generated documents need to know about a logic block, as spans inside it. The readers of a block
fill these in; they do not build a syntax tree.
-/
import ComponentLens.Text.Span

namespace ComponentLens.Script

/-! ## 1. Ordinary blocks -/

/-- The default export of an ordinary block. -/
structure ExportDefault where
  /-- The whole statement. -/
  span : Span
  /-- The object literal with the component's options, if one was found. -/
  options : Option Span
  /-- The keys of the option `props`. -/
  props : List String
  /-- The keys of the option `components`. -/
  components : List String
  deriving DecidableEq, Repr

/-- What an ordinary block tells. -/
structure ScriptFacts where
  exportDefault : Option ExportDefault := none
  deriving DecidableEq, Repr, Inhabited

/-! ## 2. Setup blocks -/

/-- A call that declares the inputs or the events of a component. -/
structure DefineCall where
  /-- The call from its name to its closing parenthesis. -/
  span : Span
  /-- The first argument. -/
  args : Option Span
  /-- What stands between the angle brackets. -/
  typeArgs : Option Span
  deriving DecidableEq, Repr

/-- A variable that a labelled binding introduces. -/
structure LabelVar where
  name : String
  span : Span
  /-- Whether the name stands for itself in an object pattern, as key and as variable. -/
  isShorthand : Bool
  /-- Whether the label stands outside all brackets. -/
  inRoot : Bool
  deriving DecidableEq, Repr

/-- One binding behind a label. -/
structure LabelBinding where
  /-- The binding, with the parentheses around it. -/
  parent : Span
  left : Span
  right : Option Span
  vars : List LabelVar
  deriving DecidableEq, Repr

/-- A statement with the label `ref`, which declares reactive variables. -/
structure RefLabel where
  /-- The statement with its label. -/
  span : Span
  /-- The word of the label. -/
  label : Span
  bindings : List LabelBinding
  deriving DecidableEq, Repr

/-- What a setup block tells. -/
structure SetupFacts where
  /-- The import statements. -/
  imports : List Span := []
  /-- The names that the template can see: values imported and values declared. -/
  exposes : List Span := []
  labels : List RefLabel := []
  defineProps : Option DefineCall := none
  defineEmit : Option DefineCall := none
  /-- The names of the inputs that `defineProps` declares. -/
  props : List String := []
  deriving DecidableEq, Repr, Inhabited

end ComponentLens.Script
