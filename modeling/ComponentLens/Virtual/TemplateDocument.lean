/-
# The template document

In front of the body stand the declarations that it uses: the component itself, the components that it may
hold, its classes, and one variable for every name that the template can see. Such a variable is linked to
the property of the component that it stands for.
-/
import ComponentLens.Component.Block
import ComponentLens.Virtual.Document
import ComponentLens.Virtual.TemplateBody

namespace ComponentLens.Virtual

/-- The names that a template can see. -/
structure TemplateNames where
  /-- The bindings of the logic blocks, and the inputs. -/
  context : List String := []
  /-- The registered components. -/
  components : List String := []
  /-- The inputs. -/
  props : List String := []
  deriving DecidableEq, Repr

/-- What a template document is made from. -/
structure TemplateInput where
  /-- The block of the template. -/
  block : Block
  nodes : List Markup.Node
  names : TemplateNames
  /-- The stylesheets of the same component. -/
  styles : List StyleDocument
  linksScopedClasses : Bool

/-- What the body depends on. -/
def TemplateInput.scope (input : TemplateInput) : TemplateScope :=
  { components := input.names.components
    scopedClasses := (input.styles.filter (·.isScoped)).flatMap fun s => s.classNames.map (·.name)
    linksScopedClasses := input.linksScopedClasses }

/-! ## 1. The component -/

/-- The registered components that the template uses, under either spelling. -/
def anchoredComponents (input : TemplateInput) : List String :=
  let used := usedComponents input.scope input.nodes
  input.names.components.filter fun name => used.contains name || used.contains (Naming.hyphenate name)

/-- One line per component under a title: a place where completion can ask for the component's parts. -/
def completionAnchors (title before after : String) (components : List String) : String :=
  title ++ String.join (components.map fun name => "// @ts-ignore\n" ++ before ++ name ++ after)

/-- The declarations of the component and of the components that it may hold. -/
def templateHeader (fileName : String) (components : List String) : String :=
  String.join
    ["import \x7b __VLS_options, __VLS_component \x7d from './" ++ fileName ++ "';\n",
      "declare const __VLS_ctx: InstanceType<typeof __VLS_component>;\n",
      "declare const __VLS_vmUnwrap: typeof __VLS_options & \x7b components: \x7b \x7d \x7d;\n",
      "declare const __VLS_Components: typeof __VLS_vmUnwrap.components & __VLS_GlobalComponents & __VLS_PickComponents<typeof __VLS_ctx>;\n",
      "/* Components */\n",
      "declare const __VLS_components: JSX.IntrinsicElements & typeof __VLS_Components;\n",
      "declare const __VLS_componentPropsBase: __VLS_MapPropsTypeBase<typeof __VLS_components>;\n",
      "declare const __VLS_componentProps: __VLS_MapPropsType<typeof __VLS_components>;\n",
      "declare const __VLS_componentEmits: __VLS_MapEmitType<typeof __VLS_components>;\n",
      completionAnchors "/* Completion: Emits */\n" "__VLS_componentEmits['" "']('');\n" components,
      completionAnchors "/* Completion: Props */\n" "__VLS_componentPropsBase['" "'][''];\n" components,
      completionAnchors "/* Completion: Slots */\n" "__VLS_components['" "'].__VLS_slots[''];\n" components]

/-! ## 2. Classes -/

/-- The class names with all their selectors, in the order of the first selector of each. -/
def groupClasses (classes : List Style.ClassName) : List (String × List Span) :=
  (classes.map (·.name)).eraseDups.map fun name =>
    (name, (classes.filter (·.name == name)).map (·.span))

/-- The declaration of a class, mapped to each of its selectors, with and without its quotes. -/
def classDeclaration (name : String) (selectors : List Span) : Code :=
  let size := name.utf8ByteSize
  let data (capabilities : Capabilities) : CodeData := { region := .style, capabilities }
  { text := "'" ++ name ++ "': string,\n"
    mappings := selectors.flatMap fun selector =>
      [⟨data .styleClass, .offset, selector, ⟨1, 1 + size⟩, []⟩,
        ⟨data (.styleClass ||| .referencesCodeLens), .gate, selector, ⟨0, size + 2⟩, []⟩] }

/-- An object with one property for each class of the given stylesheets. -/
def classObject (title name : String) (styles : List StyleDocument) : Code :=
  let classes := groupClasses (styles.flatMap (·.classNames))
  .concat ([raw (title ++ "declare const " ++ name ++ ": \x7b\n")] ++
    classes.map (fun (name, selectors) => classDeclaration name selectors) ++ [raw "\x7d;\n"])

/-! ## 3. Names -/

/-- The link from a use of a name to its declaration. -/
def nameLink (isAdditionalReference : Bool) (use declaration : Span) : Mapping LinkData :=
  ⟨{ direction := .scriptToTemplate, capabilities := .all, isAdditionalReference }, .offset, use,
    declaration, []⟩

/-- The declaration of a name that the template can see. An input is also tied to its option. -/
def nameDeclaration (isProp : Bool) (name : String) : LinkedText :=
  let here : LinkedText := (LinkedText.plain name).mark
  let option : List LinkedText := if isProp then [" __VLS_options.props.", here, ";"] else []
  (LinkedText.concat ([LinkedText.plain "declare var ", here, ": typeof __VLS_ctx.", here, ";"] ++ option ++ [LinkedText.plain "\n"])).tie
    fun
    | declaration :: use :: uses =>
      nameLink false use declaration :: uses.map (nameLink true · declaration)
    | _ => []

/-! ## 4. The document -/

/-- The text of the template document. -/
def templateProgram (base : Uri) (input : TemplateInput) : LinkedText :=
  let names := input.names
  let body := (templateBody input.scope input.nodes).shiftSource input.block.span.start
  .concat
    ([LinkedText.plain (templateHeader base.fileName (anchoredComponents input)),
      .ofMapped (classObject "/* CSS Module */\n" "$style" (input.styles.filter (·.moduleName.isSome))),
      .ofMapped (classObject "/* Style Scoped */\n" "__VLS_styleScopedClasses"
        (input.styles.filter (·.isScoped))),
      "/* Props */\n"] ++
    names.context.map (fun name => nameDeclaration (names.props.contains name) name) ++
    [LinkedText.plain "/* Interpolations */\n", body])

/-- The template document of a component. -/
def templateDocument (base : Uri) (input : TemplateInput) : CodeDocument :=
  .ofText (base.append ".__VLS_template.ts") "typescript" (templateProgram base input)

/-- The inline styles of a template as a stylesheet. -/
def inlineStyleDocument (base : Uri) (input : TemplateInput) : StyleDocument :=
  let rules := (inlineStyles input.nodes).shiftSource input.block.span.start
  { document := ⟨base.append ".template.css", "css", rules.text⟩
    map := ⟨rules.mappings⟩
    isScoped := false
    moduleName := none
    classNames := [] }

/-- The copy of a template. -/
def markupDocument (base : Uri) (block : Block) : MarkupDocument :=
  ⟨⟨base.append ".template.html", "html", block.content⟩, copyMap block.content block.span.start⟩

end ComponentLens.Virtual
