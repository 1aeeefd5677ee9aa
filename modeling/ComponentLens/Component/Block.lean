/-
# Blocks of a component file

A component file is a sequence of blocks. A block has a tag, attributes and content, and keeps the place
of each in the file.
-/
import ComponentLens.Fault

namespace ComponentLens

/-- An attribute of a block. -/
structure BlockAttr where
  name : String
  value : Option String
  nameSpan : Span
  /-- The value without its quotes. -/
  valueSpan : Option Span
  /-- The value with its quotes. -/
  quotedSpan : Option Span
  deriving DecidableEq, Repr

/-- A block. -/
structure Block where
  /-- The name of the tag, in lower case. -/
  tag : String
  content : String
  /-- The place of the content. -/
  span : Span
  attrs : List BlockAttr
  deriving DecidableEq, Repr

namespace Block

/-- The first attribute of a name. -/
def attr? (b : Block) (name : String) : Option BlockAttr := b.attrs.find? (·.name == name)

/-- The value of the first attribute of a name. -/
def attrValue? (b : Block) (name : String) : Option String := (b.attr? name).bind (·.value)

/-- The language of the content. -/
def lang? (b : Block) : Option String := b.attrValue? "lang"

/-- The file that holds the content. -/
def src? (b : Block) : Option String := (b.attrValue? "src").filter (!·.isEmpty)

/-- Whether the block is a setup block. -/
def isSetup (b : Block) : Bool := (b.attr? "setup").isSome

/-- Whether the classes of a stylesheet apply to this component only. -/
def isScoped (b : Block) : Bool := (b.attr? "scoped").isSome

/-- The name under which the template sees the classes of a stylesheet module. -/
def moduleName? (b : Block) : Option String :=
  (b.attr? "module").map fun attr => (attr.value.filter (!·.isEmpty)).getD "$style"

end Block

/-- The blocks of a component file, by kind. -/
structure Component where
  template : Option Block := none
  /-- The logic block that is not a setup block. -/
  script : Option Block := none
  scriptSetup : Option Block := none
  styles : List Block := []
  /-- The blocks of any other tag. -/
  customBlocks : List Block := []
  faults : List Fault := []
  deriving DecidableEq, Repr, Inhabited

/-- All blocks: the template, the logic blocks, the stylesheets, the others. -/
def Component.blocks (c : Component) : List Block :=
  c.template.toList ++ c.script.toList ++ c.scriptSetup.toList ++ c.styles ++ c.customBlocks

end ComponentLens
