/-
# The script document

The two logic blocks of a component become one program: the script block as it is, the setup block as the
`setup` function of a component, and an object with the component's options.

The setup block is written twice. Its imports come first, with everything else blanked, and its body comes
inside the function, with the imports blanked and every labelled statement expanded. A blanked text keeps
its length, so each copy keeps every offset.
-/
import ComponentLens.Component.Block
import ComponentLens.Script.Facts
import ComponentLens.Virtual.Document

namespace ComponentLens.Virtual

open Script

/-! ## 1. The blocks -/

/-- The logic blocks of a component. A block that could not be analyzed is left out. -/
structure ScriptInput where
  script : Option (Block × ScriptFacts)
  setup : Option (Block × SetupFacts)

/-- The `lang` attribute of the program: that of the setup block, else that of the script block, as far as it
is known. -/
def ScriptInput.lang (input : ScriptInput) : String :=
  let setupLang := (input.setup.bind (·.1.lang?)).filter (· != "js")
  let scriptLang := (input.script.bind (·.1.lang?)).filter (· != "js")
  let lang := (setupLang.or scriptLang).getD "js"
  if ["js", "jsx", "ts", "tsx"].contains lang then lang else "js"

/-! ## 2. Blanking -/

/-- The text with everything but line feeds replaced by spaces, byte by byte. -/
def lineFeedsOnly (text : String) : String :=
  String.ofList (text.toList.flatMap fun c => if c == '\n' then ['\n'] else List.replicate c.utf8Size ' ')

/-- A comment of the given length, or spaces where a comment does not fit. -/
def filler (size : Nat) : List Char :=
  if 4 ≤ size then '/' :: '*' :: (List.replicate (size - 4) ' ' ++ ['*', '/'])
  else List.replicate size ' '

/-- The text with a span of it replaced by a filler. -/
def blankSpan (text : String) (span : Span) : String :=
  match splitAtByte? text.toList span.start with
  | none => text
  | some (before, rest) =>
    match splitAtByte? rest span.length with
    | none => text
    | some (inside, after) => String.ofList (before ++ filler (byteLength inside) ++ after)

/-! ## 3. Pieces -/

/-- Code of the setup block, with the places relative to that block. -/
def setupCode (code : String) (source : Span) (capabilities : Capabilities) : LinkedText :=
  .mapped code source .offset { region := .scriptSetup, capabilities }

/-- A part of a text, copied. -/
def copyOf (text : String) (span : Span) (capabilities : Capabilities) : LinkedText :=
  setupCode (span.slice text) span capabilities

/-- A link that a request of any kind follows, from code to markup. -/
def bindingLink (source target : Span) : Mapping LinkData :=
  ⟨{ direction := .scriptToTemplate, capabilities := .all }, .offset, source, target, []⟩

/-! ## 4. The script block -/

/-- The file that the script block takes its content from, exported as if it were the block. -/
def sourceExport (block : Block) : LinkedText :=
  match block.src?, (block.attr? "src").bind (·.quotedSpan) with
  | some src, some quoted =>
    .concat ["export * from ",
      .mapped ("'" ++ src ++ "'") quoted .offset
        { region := .scriptSource, capabilities := .script },
      ";\n", .plain ("import __VLS_ScriptSrc from '" ++ src ++ "';\n"),
      "export default __VLS_ScriptSrc;\n"]
  | _, _ => {}

/-- The content of the script block. Its default export is blanked when the setup block exports the
component. -/
def scriptCopy (block : Block) (facts : ScriptFacts) (hasSetup : Bool) : LinkedText :=
  let content :=
    match hasSetup, facts.exportDefault with
    | true, some e => blankSpan block.content e.span
    | _, _ => block.content
  .mapped content ⟨0, content.utf8ByteSize⟩ .offset
    { region := .script, capabilities := .script }

/-! ## 5. The imports of the setup block -/

/-- The text from offset `pos` on, with the imports as they are and the rest blanked. An import that starts
inside another is passed over. -/
def headerFrom (content : String) (pos : Nat) : List Span → List LinkedText
  | [] =>
    let span : Span := ⟨pos, content.utf8ByteSize⟩
    [setupCode (lineFeedsOnly (span.slice content)) span .none]
  | span :: rest =>
    if span.start < pos then headerFrom content pos rest
    else
      let gap : Span := ⟨pos, span.start⟩
      setupCode (lineFeedsOnly (gap.slice content)) gap .none ::
        copyOf content span .scriptSetup :: headerFrom content span.stop rest

/-- The imports in the order of the text that `headerFrom` keeps. -/
def keptImports (pos : Nat) : List Span → List Span
  | [] => []
  | span :: rest =>
    if span.start < pos then keptImports pos rest else span :: keptImports span.stop rest

/-- The spans of the imports, in order. -/
def sortedImports (facts : SetupFacts) : List Span :=
  facts.imports.mergeSort fun a b => a.start ≤ b.start

/-- The setup block with its imports blanked. -/
def withoutImports (content : String) (facts : SetupFacts) : String :=
  (keptImports 0 (sortedImports facts)).foldl blankSpan content

/-! ## 6. Labels -/

/-- A scope in which the variables of a labelled statement are plain declarations. Each variable is
marked. -/
def labelScope (content : String) (bindings : List LabelBinding) : LinkedText :=
  let declare_ (b : LabelBinding) (index : Nat) : List LinkedText :=
    let left := copyOf content b.left
      (.completion ||| .definitions ||| .semanticTokens ||| .rename)
    let marks := b.vars.map fun v =>
      Span.mk (v.span.start - b.left.start) (v.span.stop - b.left.start)
    let right := match b.right with
      | some right => " = " ++ right.slice content
      | none => ""
    [.plain (if index == 0 then "let " else ", "), { left with marks }, .plain right]
  .concat (.plain "\x7b " :: bindings.zipIdx.flatMap (fun (b, index) => declare_ b index) ++ [.plain "; \x7d\n"])

/-- The variable that holds the reactive value. -/
def handleName (v : LabelVar) : String := "__VLS_refs_" ++ v.name

/-- The left side of a binding from offset `pos` on, with the handles in place of the variables. -/
def handlePattern (content : String) (stop pos : Nat) : List LabelVar → List LinkedText
  | [] => [.plain ((Span.mk pos stop).slice content)]
  | v :: vars =>
    let key : List LinkedText :=
      if v.isShorthand then [setupCode v.name v.span .diagnostic, ": "] else []
    let handle : LinkedText := .mapped (handleName v) v.span .gate
      { region := .scriptSetup, capabilities := .diagnostic }
    .plain ((Span.mk pos v.span.start).slice content) :: (key ++ [handle]) ++
      handlePattern content stop v.span.stop vars

/-- The bindings of a labelled statement as declarations of the handles. -/
def labelHandles (content body : String) (bindings : List LabelBinding) : LinkedText :=
  let declare_ (b : LabelBinding) (index : Nat) : List LinkedText :=
    let vars := b.vars.mergeSort fun u v => u.span.start ≤ v.span.start
    let right : List LinkedText := match b.right with
      | some right => [" = ", copyOf body right .scriptSetup]
      | none => []
    .plain (if index == 0 then "const " else ", ") ::
      (handlePattern content b.left.stop b.left.start vars ++ right)
  .concat (bindings.zipIdx.flatMap (fun (b, index) => declare_ b index) ++ [.plain ";\n"])

/-- The variable itself and its `$` handle. Both are marked. -/
def labelVariable (right : Option Span) (v : LabelVar) : LinkedText :=
  let handle : LinkedText := match right with
    | some right => setupCode (handleName v) right .none
    | none => .plain (handleName v)
  let dollar : LinkedText := .mapped ("$" ++ v.name) v.span .offset
    { region := .scriptSetup
      capabilities := .basic ||| .diagnostic
      beforeRename := some .stripDollar }
  .concat ["let ", (setupCode v.name v.span (.basic ||| .references ||| .diagnostic)).mark,
    " = (await import('__VLS_vue')).unref(", handle, .plain ("); " ++ v.name ++ ";\n"),
    "const ", dollar.mark,
    " = (await import('__VLS_vue')).ref(", handle, .plain ("); $" ++ v.name ++ ";\n")]

/-- The links of one variable: from its declaration to the variable, and from the variable to its handle,
whose name has a dollar sign in front. -/
def variableLinks (declaration variable_ dollar : Span) : List (Mapping LinkData) :=
  let capabilities : LinkCapabilities := .references ||| .rename
  [⟨{ direction := .sibling, capabilities }, .offset, declaration, variable_, []⟩,
    ⟨{ direction := .sibling, capabilities
       nameToTarget := some .addDollar, nameToSource := some .stripDollar },
      .gate, variable_, dollar, [⟨.offset, variable_, ⟨dollar.start + 1, dollar.stop⟩⟩]⟩]

/-- The links of all variables. First come the marks of the declarations, then, for each variable, those of
the variable and of its handle. -/
def linkVariables : List Span → List Span → List (Mapping LinkData)
  | declaration :: declarations, variable_ :: dollar :: rest =>
    variableLinks declaration variable_ dollar ++ linkVariables declarations rest
  | _, _ => []

/-- A labelled statement, expanded. -/
def expandLabel (content body : String) (label : RefLabel) : LinkedText :=
  let scope := labelScope content label.bindings
  let linked := label.bindings.flatMap fun b => b.vars.map (labelVariable b.right)
  let whole := LinkedText.concat ([scope, labelHandles content body label.bindings] ++ linked)
  whole.tie fun marks => linkVariables (marks.take scope.marks.length) (marks.drop scope.marks.length)

/-! ## 7. The body of the setup block -/

/-- The body from offset `pos` on: the text between the labelled statements, and those expanded. -/
def bodyFrom (content body : String) (pos : Nat) : List RefLabel → List LinkedText
  | [] => [copyOf body ⟨pos, body.utf8ByteSize⟩ .scriptSetup]
  | label :: labels =>
    copyOf body ⟨pos, label.span.start⟩ .scriptSetup :: expandLabel content body label ::
      bodyFrom content body label.span.stop labels

/-- An entry of the object that the setup function returns. The value is linked to the key, which the
template sees. -/
def returnEntry (name : String) (span : Span) (separator : String) : LinkedText :=
  let side := (setupCode name span .none).mark
  (LinkedText.concat [side, ": ", side, .plain separator]).tie fun
    | [key, value] => [bindingLink value key]
    | _ => []

/-- The variables that the labels of a block declare for the whole block. -/
def rootVars (facts : SetupFacts) : List LabelVar :=
  facts.labels.flatMap fun label => label.bindings.flatMap fun b => b.vars.filter (·.inRoot)

/-- The type arguments and values of the declaring calls, as options of the component. -/
def declaredOptions (content : String) (facts : SetupFacts) : List LinkedText :=
  let typed (opening : String) (call : Option DefineCall) : List LinkedText :=
    match call.bind (·.typeArgs) with
    | some span => [.plain opening, copyOf content span .none, ">),\n"]
    | none => []
  let valued (key : String) (call : Option DefineCall) : List LinkedText :=
    match call.bind (·.args) with
    | some span => [.plain (key ++ ": "), copyOf content span .scriptSetup, ",\n"]
    | none => []
  typed "props: (\x7b\x7d as __VLS_DefinePropsToOptions<" facts.defineProps ++
    typed "emits: (\x7b\x7d as __VLS_ConstructorOverloads<" facts.defineEmit ++
    valued "props" facts.defineProps ++ valued "emits" facts.defineEmit

/-- The setup block as a component. -/
def setupProgram (block : Block) (facts : SetupFacts) : LinkedText :=
  let content := block.content
  let body := withoutImports content facts
  let labels := facts.labels.mergeSort fun a b => a.span.start ≤ b.span.start
  let setupWord : LinkedText := .mapped "setup" (.empty 0) .gate
    { region := .scriptSetup, capabilities := .none }
  .concat <|
    .plain "\n/* <script setup> */\n" :: headerFrom content 0 (sortedImports facts) ++
    [LinkedText.plain "\nexport default (await import('__VLS_vue')).defineComponent(\x7b\n"] ++
    declaredOptions content facts ++ [LinkedText.plain "async ", setupWord, "() \x7b\n"] ++
    bodyFrom content body 0 labels ++ [LinkedText.plain "return \x7b\n"] ++
    facts.exposes.map (fun span => returnEntry (span.slice content) span ",\n") ++
    (rootVars facts).map (fun v => returnEntry v.name v.span ", \n") ++
    [LinkedText.plain "\x7d;\n\x7d\x7d);\n"]

/-! ## 8. The options -/

/-- The options object of the script block, copied into the exported options. -/
def scriptOptions (block : Block) (facts : ScriptFacts) : LinkedText :=
  match facts.exportDefault.bind (·.options) with
  | some span => .mapped (span.slice block.content) span .offset
      { region := .script, capabilities := .options }
  | none => "\x7b\x7d"

/-- The options that the declaring calls of the setup block add. -/
def setupOptions (content : String) (facts : SetupFacts) : LinkedText :=
  let entry (opening : String) (span : Option Span) : List LinkedText :=
    match span with
    | some span => [.plain opening, copyOf content span .options, "),\n"]
    | none => []
  .concat (entry "props: (" (facts.defineProps.bind (·.args)) ++
    entry "props: (\x7b\x7d as " (facts.defineProps.bind (·.typeArgs)) ++
    entry "emits: (" (facts.defineEmit.bind (·.args)))

/-! ## 9. The document -/

/-- A part of the program, with its places moved from its block to the file. -/
def LinkedText.inBlock (t : LinkedText) (block : Block) : LinkedText :=
  { t with body := t.body.shiftSource block.span.start }

/-- The program. -/
def scriptProgram (input : ScriptInput) : LinkedText :=
  let ofScript (f : Block → ScriptFacts → LinkedText) : LinkedText :=
    (input.script.map fun (block, facts) => LinkedText.inBlock (f block facts) block).getD {}
  let ofSetup (f : Block → SetupFacts → LinkedText) : LinkedText :=
    (input.setup.map fun (block, facts) => LinkedText.inBlock (f block facts) block).getD {}
  .concat [((input.script.map (sourceExport ·.1)).getD {}),
    ofScript fun block facts => scriptCopy block facts input.setup.isSome,
    ofSetup setupProgram,
    "\nexport const __VLS_options = \x7b\n...(",
    if input.script.isSome then ofScript scriptOptions else "\x7b\x7d",
    "),\n",
    ofSetup fun block facts => setupOptions block.content facts,
    "\x7d;\n"]

/-- The script document of a component, if it has a logic block. -/
def scriptDocument? (base : Uri) (input : ScriptInput) : Option CodeDocument :=
  if input.script.isNone && input.setup.isNone then none
  else
    some (.ofText (base.append (".__VLS_script." ++ input.lang)) (codeLanguage input.lang)
      (scriptProgram input))

end ComponentLens.Virtual
