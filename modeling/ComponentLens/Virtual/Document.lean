/-
# Generated documents

A document generated from a component, with its map back to the component file.
-/
import ComponentLens.Mapping.LinkedText
import ComponentLens.Style.Selector
import ComponentLens.Uri

namespace ComponentLens.Virtual

/-- A document for an analysis tool. -/
structure Document where
  uri : Uri
  languageId : String
  text : String
  deriving DecidableEq, Repr

/-- The number of bytes. -/
def Document.size (d : Document) : Nat := d.text.utf8ByteSize

/-- A document of code, with links between the spellings of one symbol. -/
structure CodeDocument where
  document : Document
  map : SpanMap CodeData
  links : LinkMap
  deriving DecidableEq, Repr

/-- The document that a linked text makes up. -/
def CodeDocument.ofText (uri : Uri) (languageId : String) (t : LinkedText) : CodeDocument :=
  ⟨⟨uri, languageId, t.body.text⟩, ⟨t.body.mappings⟩, ⟨⟨t.links⟩⟩⟩

/-- A stylesheet. -/
structure StyleDocument where
  document : Document
  map : SpanMap Unit
  /-- Whether the classes apply to the component only. -/
  isScoped : Bool
  /-- The name under which the template sees the classes. -/
  moduleName : Option String
  /-- The class selectors, with their places in the component file. -/
  classNames : List Style.ClassName
  deriving DecidableEq, Repr

/-- A copy of the template. -/
structure MarkupDocument where
  document : Document
  map : SpanMap Unit
  deriving DecidableEq, Repr

/-- A block of data. -/
structure DataDocument where
  document : Document
  map : SpanMap Unit
  /-- The position of the block among the blocks of other tags. -/
  index : Nat
  deriving DecidableEq, Repr

/-- The mapping of a text to the same text that starts at offset `base` of the source. -/
def copyMapping (text : String) (base : Nat) : Mapping Unit :=
  let whole : Span := ⟨0, text.utf8ByteSize⟩
  ⟨(), .offset, whole.shift base, whole, []⟩

/-- The map of a copy. An empty copy maps nothing. -/
def copyMap (text : String) (base : Nat) : SpanMap Unit :=
  ⟨if text.isEmpty then [] else [copyMapping text base]⟩

/-- The language of code with the given `lang` attribute. -/
def codeLanguage (lang : String) : String :=
  match lang with
  | "ts" => "typescript"
  | "tsx" => "typescriptreact"
  | "jsx" => "javascriptreact"
  | _ => "javascript"

end ComponentLens.Virtual
