/-
# Builds

A build is everything that is generated from one version of a component file. It exists for every text: a
block that cannot be read is reported and adds nothing else.
-/
import ComponentLens.Component.Split
import ComponentLens.Markup.Parse
import ComponentLens.Script.Analysis
import ComponentLens.Virtual.BlockDocument
import ComponentLens.Virtual.ScriptDocument
import ComponentLens.Virtual.TemplateDocument

namespace ComponentLens.Virtual

/-! ## 1. What a build is -/

/-- What changes the generated code beside the text. -/
structure BuildOptions where
  /-- Components that every template can use. -/
  globalComponents : List String := []
  /-- Whether a class name declared by the component is shown as a link. -/
  linksScopedClasses : Bool := true
  deriving DecidableEq, Repr

/-- A fault of a component file, and the block that it is in. -/
structure BlockFault where
  /-- Absent for a fault in the structure of the file itself. -/
  region : Option Region
  fault : Fault
  deriving DecidableEq, Repr

/-- The documents generated from a component, and the faults found. -/
structure Build where
  uri : Uri
  text : String
  component : Component
  script : Option CodeDocument
  template : Option CodeDocument
  inlineStyle : Option StyleDocument
  markup : Option MarkupDocument
  styles : List StyleDocument
  data : List DataDocument
  names : TemplateNames
  faults : List BlockFault

/-! ## 2. The names that the template sees -/

/-- The names that a setup block gives its template: what it exposes, the variables of its labels, and its
inputs. An imported name with a capital is a component. -/
def setupNames (content : String) (facts : Script.SetupFacts) : TemplateNames :=
  let isImported (span : Span) : Bool := facts.imports.any (·.contains span)
  let isCapital (name : String) : Bool := name.toList.head?.any Char.isUpper
  { context := facts.exposes.map (·.slice content) ++ (rootVars facts).map (·.name)
    components := ((facts.exposes.filter isImported).map (·.slice content)).filter isCapital
    props := facts.props }

/-- The names that a template can see, each once, in the order in which they are found. -/
def templateNames (input : ScriptInput) (globalComponents : List String) : TemplateNames :=
  let own := (input.setup.map fun (block, facts) => setupNames block.content facts).getD {}
  let exported := input.script.bind (·.2.exportDefault)
  let props := own.props ++ (exported.map (·.props)).getD []
  { context := (own.context ++ props).eraseDups
    components :=
      (own.components ++ (exported.map (·.components)).getD [] ++ globalComponents).eraseDups
    props := props.eraseDups }

/-! ## 3. Building -/

/-- A block with its facts, or the fault that keeps it from being read, moved to the file. -/
def analyzed {α : Type} (region : Region) (analyze : String → Except Fault α) (block : Option Block) :
    Option (Block × α) × List BlockFault :=
  match block with
  | none => (none, [])
  | some block =>
    match analyze block.content with
    | .ok facts => (some (block, facts), [])
    | .error fault => (none, [⟨some region, fault.shift block.span.start⟩])

/-- Builds a component file. -/
def build (uri : Uri) (text : String) (options : BuildOptions) : Build :=
  let component := Component.split text
  let styles := component.styles.zipIdx.map fun (block, index) => StyleDocument.ofBlock uri index block
  let (script, scriptFaults) := analyzed .script Script.analyzeScript component.script
  let (setup, setupFaults) := analyzed .scriptSetup Script.analyzeSetup component.scriptSetup
  let input : ScriptInput := { script, setup }
  let names := templateNames input options.globalComponents
  let block := component.template.filter fun block => block.lang?.all (· == "html")
  let template := block.map fun block => (block, Markup.parse block.content)
  let templateInput := template.map fun (block, t) =>
    TemplateInput.mk block t.nodes names styles options.linksScopedClasses
  let templateFaults := template.map fun (block, t) =>
    t.faults.map fun fault => BlockFault.mk (some .template) (fault.shift block.span.start)
  { uri, text, component, styles, names
    script := scriptDocument? uri input
    template := templateInput.map (templateDocument uri)
    inlineStyle := templateInput.map (inlineStyleDocument uri)
    markup := templateInput.map (markupDocument uri ·.block)
    data := component.customBlocks.zipIdx.filterMap fun (block, index) =>
      DataDocument.ofBlock? uri index block
    faults := component.faults.map (BlockFault.mk none) ++ scriptFaults ++ setupFaults ++
      templateFaults.getD [] }

namespace Build

/-! ## 4. The documents of a build -/

/-- The code documents, the script document first. -/
def codeDocuments (b : Build) : List CodeDocument := b.script.toList ++ b.template.toList

/-- The stylesheets, the inline styles last. -/
def styleDocuments (b : Build) : List StyleDocument := b.styles ++ b.inlineStyle.toList

/-- All documents. -/
def documents (b : Build) : List Document :=
  b.codeDocuments.map (·.document) ++ b.styleDocuments.map (·.document) ++
    b.markup.toList.map (·.document) ++ b.data.map (·.document)

/-- Whether an address is that of a document of the build. -/
def owns (b : Build) (uri : Uri) : Bool := b.documents.any (·.uri == uri)

/-- The code document of an address. -/
def codeDocument? (b : Build) (uri : Uri) : Option CodeDocument :=
  b.codeDocuments.find? (·.document.uri == uri)

/-- The stylesheet of an address. -/
def styleDocument? (b : Build) (uri : Uri) : Option StyleDocument :=
  b.styleDocuments.find? (·.document.uri == uri)

/-- The block of data of an address. -/
def dataDocument? (b : Build) (uri : Uri) : Option DataDocument :=
  b.data.find? (·.document.uri == uri)

end Build

end ComponentLens.Virtual
