/-
# The body of a template document

The template is written as code that a type checker can check: a block of statements for every element, in
the order of the tree. All places are relative to the content of the template.
-/
import ComponentLens.Text.Whitespace
import ComponentLens.Virtual.Handler
import ComponentLens.Virtual.Name

namespace ComponentLens.Virtual

open Markup

/-! ## 1. What the body depends on -/

/-- What is known of the component beside its template. -/
structure TemplateScope where
  /-- The names under which components are registered. -/
  components : List String
  /-- The class names that the component's own stylesheets declare for it alone. -/
  scopedClasses : List String
  /-- Whether a class name declared by the component is shown as a link. -/
  linksScopedClasses : Bool

/-- The component that a tag stands for: the last one registered under a name that hyphenates to the tag. -/
def TemplateScope.componentName (scope : TemplateScope) (tag : String) : String :=
  ((scope.components.filter (Naming.hyphenate · == tag)).getLast?).getD tag

/-- A slot that the template declares. -/
structure SlotExport where
  name : String
  /-- The variable with the type of the slot. -/
  variable_ : String
  tagSpan : Span

/-! ## 2. Parts of directives and attributes -/

/-- The argument of a directive, unless it is an expression. -/
def staticArg? (d : Directive) : Option DirectiveArg := d.arg.filter (·.isStatic)

/-- The value of an attribute as a template literal. An attribute without a value is true. -/
def attributeLiteral (a : Attribute) : String :=
  match a.value with
  | none => "true"
  | some value =>
    let escaped := value.content.toList.flatMap fun c => if c == '`' then ['\\', '`'] else [c]
    String.ofList ('`' :: (escaped ++ ['`']))

/-- The words between white space, each with its offset. -/
def wordsFrom (pos : Nat) (word : Option (Nat × List Char)) : List Char → List (Nat × List Char)
  | [] => word.toList
  | c :: cs =>
    let next := pos + c.utf8Size
    if isBlank c then word.toList ++ wordsFrom next none cs
    else
      match word with
      | none => wordsFrom next (some (pos, [c])) cs
      | some (start, taken) => wordsFrom next (some (start, taken ++ [c])) cs

/-- A name of a tag, of an attribute or of an argument. -/
def tagName (name : String) (source : Span) : NameUse := ⟨name, source, .tagOrAttribute, true⟩

/-- The line that keeps the checker from reporting the next one. -/
def ignoreNext : Code := "// @ts-ignore\n"

/-! ## 3. Statements of an element -/

/-- The type of a slot is read off the component that the content is for: the innermost element around it
that is not a `template`. `ancestors` are the tags from the element outward. -/
def slotContent (scope : TemplateScope) (ancestors : List String) (d : Directive) : List Code :=
  match ancestors.find? (· != "template") with
  | none => []
  | some parent =>
    let binding : List Code :=
      match d.exp with
      | some e => ["let ", expression e, " = "]
      | none => []
    let name := ((staticArg? d).filter (!·.content.isEmpty)).map (·.content)
    let source := (d.arg.map (·.span)).getD d.span
    let slot : Code := .concat
      ["__VLS_components['" ++ scope.componentName parent ++ "'].__VLS_slots",
        (NameUse.mk (name.getD "default") source .slotName false).access]
    binding ++ [slot.covering source .gate (templateData .diagnosticOnly), ";\n"]

/-- A directive without an argument is checked as an expression. -/
def bareDirective (d : Directive) : List Code :=
  match d.arg, d.exp with
  | none, some e => if d.name == "slot" then [] else ["(", expression e, ");\n"]
  | _, _ => []

/-- A reference to the element uses the variable of that name. -/
def elementRef (a : Attribute) : List Code :=
  match a.value with
  | some value =>
    if a.name == "ref" then
      [ignoreNext, "(", expression ⟨value.content, value.span⟩ .referencesOnly, ");\n"]
    else []
  | none => []

/-- A property under its key and, if markup spells it differently, under that spelling too. A coarse mapping
lies over the first. `value` is written behind the first key, and `literal` behind the second. -/
def property (name : String) (nameSpan span : Span) (value : List Code) (shown literal : String) :
    List Code :=
  let key := propKey name
  let first : List Code :=
    [.ahead ("'" ++ key ++ "': " ++ shown) span .gate (templateData .diagnosticOnly),
      (tagName key nameSpan).key, ": "] ++ value ++ [raw ",\n"]
  let second : List Code :=
    if name == key then [] else [(tagName name nameSpan).key, ": " ++ literal ++ ",\n"]
  first ++ second

/-- A property whose value is an expression. -/
def boundProperty (d : Directive) : List Code :=
  match staticArg? d with
  | none => []
  | some arg =>
    let value : List Code :=
      match d.exp with
      | some e => ["(", expression e, ")"]
      | none => ["(undefined)"]
    let shown := "(" ++ (d.exp.map (·.content)).getD "undefined" ++ ")"
    property arg.content arg.span d.span value shown shown

/-- A property whose value is text. -/
def plainProperty (a : Attribute) : List Code :=
  let literal := attributeLiteral a
  property a.name a.nameSpan a.span [literal] literal literal

/-- Whether every component accepts the attribute, whatever properties it declares. -/
def isFallthrough (a : Attribute) : Bool := propKey a.name == "class" || propKey a.name == "style"

/-- The properties that are checked against the component. -/
def checkedProperties (tag : Tag) : List Code :=
  tag.props.flatMap fun
    | .directive d => if d.name == "bind" || d.name == "model" then boundProperty d else []
    | .plain a => if isFallthrough a then [] else plainProperty a

/-- The properties that are not checked. -/
def uncheckedProperties (tag : Tag) : List Code :=
  (tag.attributes.filter isFallthrough).flatMap plainProperty

/-- The element's tag as a component, and its properties as an object of the component's type. -/
def checkedObject (tag : Tag) (component variable_ : String) : List Code :=
  let spans := tag.nameSpan :: (if tag.isSelfClosing then [] else tag.endNameSpan.toList)
  let tags : List Code := spans.flatMap fun span =>
    ["__VLS_components", (tagName component span).access, ";\n"]
  tags ++
    [raw "const ", .mapped variable_ tag.nameSpan .gate (templateData .diagnosticOnly),
      ": typeof __VLS_componentProps['" ++ component ++ "'] = \x7b\n"] ++
    checkedProperties tag ++ [raw ("\x7d; " ++ variable_ ++ ";\n")]

/-- The unchecked properties as an object, if there are any. -/
def uncheckedObject (tag : Tag) (component : String) : List Code :=
  if tag.attributes.any isFallthrough then
    [ignoreNext, "__VLS_componentProps['" ++ component ++ "'] = \x7b\n"] ++ uncheckedProperties tag ++
      [raw "\x7d;\n"]
  else []

/-- A class name uses the declaration of that class. -/
def className (scope : TemplateScope) (base : Nat) (offset : Nat) (word : List Char) : List Code :=
  let name := String.ofList word
  let start := base + offset
  let capabilities :=
    if scope.linksScopedClasses && scope.scopedClasses.contains name then
      .className ||| .displayWithLink
    else Capabilities.className
  [ignoreNext, "__VLS_styleScopedClasses",
    (NameUse.mk name ⟨start, start + byteLength word⟩ capabilities false).access, ";\n"]

/-- The class names of an attribute. -/
def classNames (scope : TemplateScope) (a : Attribute) : List Code :=
  match a.value with
  | some value =>
    if a.name == "class" then
      (wordsFrom 0 none value.content.toList).flatMap fun (offset, word) =>
        className scope value.span.start offset word
    else []
  | none => []

/-- The events of an element with their handlers. -/
def Tag.events (tag : Tag) : List (DirectiveArg × Expression) :=
  (tag.directives.filter (·.name == "on")).filterMap fun d => do return (← staticArg? d, ← d.exp)

/-- The key of the property that takes the handler of an event. -/
def handlerKey (event : String) : String := Naming.camelize ("on-" ++ event)

/-- A handler is checked against the property of its event and against the declared event. -/
def eventHandler (component variable_ : String) (arg : DirectiveArg) (exp : Expression) : List Code :=
  let event := arg.content
  let (opening, closing) := handlerWrapper exp.content
  ["let " ++ variable_ ++ "!: \x7b '" ++ event ++ "': __VLS_FirstFunction<typeof __VLS_componentProps['" ++
      component ++ "'][",
    (NameUse.mk (handlerKey event) arg.span .tagOrAttribute false).quoted,
    "], __VLS_PickEmitFunction<typeof __VLS_componentEmits['" ++ component ++ "'], '" ++ event ++
      "'>> \x7d;\n",
    variable_ ++ " = \x7b\n",
    (NameUse.mk event arg.span .tagOrAttribute false).key, ": ", opening, expression exp, closing,
    "\n\x7d;\n"]

/-- The options that a property of a tag may belong to: names of inputs, names of events, and the place. -/
def optionNames : TagProp → Option (List String × List String × Span)
  | .plain a =>
    if a.name == "style" then none else some ([a.name, Naming.camelize a.name], [], a.nameSpan)
  | .directive d =>
    match staticArg? d with
    | none => none
    | some arg =>
      let name := arg.content
      if d.name == "bind" || d.name == "model" then some ([name, Naming.camelize name], [], arg.span)
      else if d.name == "on" then some ([handlerKey name], [name], arg.span)
      else none

/-- Uses of an option of a component under several names. -/
def optionUses (component option : String) (keepsHyphens : Bool) (source : Span) (names : List String) :
    List Code :=
  names.flatMap fun name =>
    [ignoreNext, "__VLS_components['" ++ component ++ "'].__VLS_options." ++ option,
      (NameUse.mk name source (Capabilities.tagOrAttribute.without .basic) keepsHyphens).access, ";\n"]

/-- A property uses the option that declares it, so that the declaration finds the use. -/
def optionReferences (component : String) (prop : TagProp) : List Code :=
  match optionNames prop with
  | none => []
  | some (inputs, events, source) =>
    optionUses component "props" true source inputs.eraseDups ++
      optionUses component "emits" false source events

/-! ## 4. Slots -/

/-- The bindings of a slot: every property that it passes on. -/
def slotBinding : TagProp → List Code
  | .directive d =>
    match staticArg? d, d.exp with
    | some arg, some e => [(tagName arg.content arg.span).key, ": (", expression e, "),\n"]
    | _, _ => []
  | .plain a =>
    if a.name == "name" then []
    else [(tagName a.name a.nameSpan).key, ": (" ++ attributeLiteral a ++ "),\n"]

/-- The name of the slot that an element declares. -/
def slotName (tag : Tag) : String :=
  let value := (tag.attribute? "name").bind (·.value)
  ((value.map (·.content)).filter (!·.isEmpty)).getD "default"

/-- A slot element declares a slot whose type is the type of its bindings. Three helper variables are used
from the `n`th on. -/
def slotDeclaration (n : Nat) (tag : Tag) : List Code × SlotExport :=
  let whole := (tag.directives.find? fun d => d.arg.isNone && d.exp.isSome).bind (·.exp)
  let wholeVar := helperVar n
  let bindingsVar := helperVar (n + 1)
  let slotVar := helperVar (n + 2)
  let wholeCode : List Code :=
    match whole with
    | some e => ["const " ++ wholeVar ++ " = (", expression e, ");\n"]
    | none => []
  let type :=
    if whole.isSome then "typeof " ++ wholeVar ++ " & typeof " ++ bindingsVar
    else "typeof " ++ bindingsVar
  (wholeCode ++ [raw ("const " ++ bindingsVar ++ " = \x7b\n")] ++ tag.props.flatMap slotBinding ++
      [raw "\x7d;\n", "var " ++ slotVar ++ "!: " ++ type ++ ";\n"],
    ⟨slotName tag, slotVar, tag.nameSpan⟩)

/-- The slots by name. Of several slots of one name the last counts, at the place of the first. -/
def mergeSlots (slots : List SlotExport) : List SlotExport :=
  slots.foldl (fun merged slot =>
    if merged.any (·.name == slot.name) then
      merged.map fun other => if other.name == slot.name then slot else other
    else merged ++ [slot]) []

/-- The slots as the export of the document. -/
def slotExports (slots : List SlotExport) : List Code :=
  raw "export default \x7b\n" ::
    ((mergeSlots slots).flatMap fun slot =>
      [(NameUse.mk slot.name slot.tagSpan .slotNameExport false).key, ": " ++ slot.variable_ ++ ",\n"]) ++
    [raw "\x7d;\n"]

/-! ## 5. The walk -/

/-- Code of a part of the tree, the number of the next helper variable, and the slots declared. -/
structure Walk where
  pieces : List Code
  next : Nat
  slots : List SlotExport := []

/-- The statements of an element, apart from its children. `ancestors` starts with the element. -/
def elementStatements (scope : TemplateScope) (ancestors : List String) (next : Nat) (tag : Tag) : Walk :=
  let component := scope.componentName tag.name
  let events := Tag.events tag
  let handlers := (events.zipIdx (next + 2)).flatMap fun ((arg, exp), n) =>
    eventHandler component (helperVar n) arg exp
  let afterEvents := next + 2 + events.length
  let pieces :=
    ((tag.directives.filter (·.name == "slot")).flatMap (slotContent scope ancestors)) ++
      tag.directives.flatMap bareDirective ++ tag.attributes.flatMap elementRef ++
      checkedObject tag component (helperVar next) ++ uncheckedObject tag component ++
      tag.attributes.flatMap (classNames scope) ++ handlers ++
      tag.props.flatMap (optionReferences component)
  if tag.name == "slot" then
    let (declaration, slot) := slotDeclaration afterEvents tag
    ⟨pieces ++ declaration, afterEvents + 3, [slot]⟩
  else ⟨pieces, afterEvents, []⟩

/-- The head of a loop over the variable `variable_`. -/
def loopHead (parts : Loop) (value : Expression) (variable_ : String) : List Code :=
  let alias_ (helper : String) : Option Expression → List Code
    | some e =>
      ["const ", expression e .scriptSetup, " = " ++ helper ++ "(" ++ variable_ ++ ");\n"]
    | none => []
  [raw ("const " ++ variable_ ++ " = __VLS_getVforSourceType("), expression parts.source .scriptSetup, ");\n",
    "for (__VLS_for_key in ",
    .mapped variable_ parts.source.span .gate (templateData .diagnosticOnly), ") \x7b\n",
    "const ", expression value .scriptSetup, " = " ++ variable_ ++ "[__VLS_for_key];\n"] ++
    alias_ "__VLS_getVforKeyType" parts.key ++ alias_ "__VLS_getVforIndexType" parts.index

mutual

/-- The code of a node. Text has none, and a loop without a name for its turns has none. -/
def walkNode (scope : TemplateScope) (ancestors : List String) (next : Nat) : Node → Walk
  | .element tag children =>
    let own := elementStatements scope (tag.name :: ancestors) next tag
    let inside := walkNodes scope (tag.name :: ancestors) own.next children
    ⟨raw "\x7b\n" :: (own.pieces ++ inside.pieces ++ [raw "\x7d\n"]), inside.next, own.slots ++ inside.slots⟩
  | .interpolation e _ => ⟨["\x7b", expression e, "\x7d;\n"], next, []⟩
  | .chain branches _ => walkBranches scope ancestors next true branches
  | .loop parts children _ =>
    match parts.value with
    | none => ⟨[], next, []⟩
    | some value =>
      let inside := walkNodes scope ancestors (next + 1) children
      ⟨loopHead parts value (helperVar next) ++ inside.pieces ++ [raw "\x7d\n"], inside.next, inside.slots⟩
  | .text _ _ => ⟨[], next, []⟩
  | .comment _ _ => ⟨[], next, []⟩

/-- The code of siblings. -/
def walkNodes (scope : TemplateScope) (ancestors : List String) (next : Nat) : List Node → Walk
  | [] => ⟨[], next, []⟩
  | node :: rest =>
    let head := walkNode scope ancestors next node
    let tail := walkNodes scope ancestors head.next rest
    ⟨head.pieces ++ tail.pieces, tail.next, head.slots ++ tail.slots⟩

/-- The code of the branches of a chain. `first` tells that no condition has been written yet. -/
def walkBranches (scope : TemplateScope) (ancestors : List String) (next : Nat) (first : Bool) :
    List Branch → Walk
  | [] => ⟨[], next, []⟩
  | .mk condition children _ :: rest =>
    let head : List Code :=
      match condition with
      | some e => [if first then "if (\n(" else "else if (\n(", expression e, ")\n) \x7b\n"]
      | none => ["else \x7b\n"]
    let inside := walkNodes scope ancestors next children
    let tail := walkBranches scope ancestors inside.next (first && condition.isNone) rest
    ⟨head ++ inside.pieces ++ [raw "\x7d\n"] ++ tail.pieces, tail.next, inside.slots ++ tail.slots⟩

end

/-- The code of the top-level nodes, each in a block of its own. -/
def walkRoots (scope : TemplateScope) (next : Nat) : List Node → Walk
  | [] => ⟨[], next, []⟩
  | node :: rest =>
    let head := walkNode scope [] next node
    let tail := walkRoots scope head.next rest
    ⟨raw "\x7b\n" :: (head.pieces ++ [raw "\x7d\n"] ++ tail.pieces), tail.next, head.slots ++ tail.slots⟩

/-- The code of a template. -/
def templateBody (scope : TemplateScope) (nodes : List Node) : Code :=
  let walk := walkRoots scope 0 nodes
  .concat (walk.pieces ++ slotExports walk.slots)

/-! ## 6. Elements -/

mutual

/-- The tags of a node that code is written for, in order. -/
def Node.tags : Node → List Tag
  | .element tag children => tag :: nodeTags children
  | .chain branches _ => branchTags branches
  | .loop parts children _ => if parts.value.isSome then nodeTags children else []
  | _ => []

/-- The tags of siblings. -/
def nodeTags : List Node → List Tag
  | [] => []
  | node :: rest => Node.tags node ++ nodeTags rest

/-- The tags of the branches of a chain. -/
def branchTags : List Branch → List Tag
  | [] => []
  | .mk _ children _ :: rest => nodeTags children ++ branchTags rest

end

/-- The names of the components that a template uses. -/
def usedComponents (scope : TemplateScope) (nodes : List Node) : List String :=
  (nodeTags nodes).map (scope.componentName ·.name)

/-- The inline styles of an element as rules. -/
def inlineStyle (tag : Tag) : List (MappedText Unit) :=
  tag.attributes.flatMap fun a =>
    match a.value with
    | some value =>
      if a.name == "style" && !value.content.isEmpty then
        [tag.name ++ " \x7b ", .mapped value.content value.span .offset (), " \x7d\n"]
      else []
    | none => []

/-- The inline styles of a template as a stylesheet. -/
def inlineStyles (nodes : List Node) : MappedText Unit := .concat ((nodeTags nodes).flatMap inlineStyle)

end ComponentLens.Virtual
