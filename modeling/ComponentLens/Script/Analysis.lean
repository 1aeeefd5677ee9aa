/-
# Reading logic blocks

`analyzeScript` finds the default export of an ordinary block. `analyzeSetup` finds the imports of a setup
block, the names that its template sees, its labels and its declaring calls. Both fail on a block whose
tokens or brackets are faulty, and on no other.
-/
import ComponentLens.Script.DefineCall
import ComponentLens.Script.Import
import ComponentLens.Script.RefLabel
import ComponentLens.Script.Tokens

namespace ComponentLens.Script

/-- The tokens of a block whose brackets match. -/
def balancedTokens (source : String) : Except Fault (List Token) := do
  let ts ← tokenize source
  let _ ← pairs ts
  return ts

/-! ## 1. Ordinary blocks -/

/-- What stands behind the callee of a call, with a brace as its first argument: the tokens from that
brace on. -/
def leadingCallArgument? (expr after : List Token) : Option (List Token) :=
  let isCallee (t : Token) : Bool := t.kind == .ident || t.isPunct "."
  if (expr.takeWhile isCallee).isEmpty then none
  else
    let rest := expr.dropWhile isCallee ++ after
    if headIsPunct rest "(" && headIsPunct rest.tail "\x7b" then some rest.tail else none

/-- The options of a default export: the exported object literal, or the first argument of the exported
call. Given are the exported expression and what follows it. -/
def exportedOptions? (expr after : List Token) : Option (List Token) :=
  if (group? "\x7b" expr).isSome then some expr
  else do
    match ← leadingCallArgument? expr after with
    | [] => none
    | t :: ts =>
      let (inside, closer, _) ← splitGroup? 0 ts
      return t :: (inside ++ [closer])

/-- The names that the last member with the given key lists. -/
def listedUnder (key : String) (entries : List Member) : List String :=
  match (entries.filter (·.key == key)).getLast? with
  | some entry => (entry.value.map listedNames).getD []
  | none => []

/-- The default export that a statement makes. -/
def ExportDefault.ofStatement (s : Statement) : ExportDefault :=
  let expr := withoutSemicolon (s.tokens.drop 2)
  let after := s.tokens.drop (expr.length + 2) ++ s.after
  let options := exportedOptions? expr after
  let entries := ((options.bind leadingMembers?).getD [])
  ⟨spanOf s.tokens 0, options.map (spanOf · 0), listedUnder "props" entries,
    listedUnder "components" entries⟩

/-- Whether the statement is a default export. -/
def Statement.isExportDefault (s : Statement) : Bool :=
  headIsIdent s.tokens "export" && headIsIdent s.tokens.tail "default"

/-- Reads an ordinary block. Of several default exports the last one counts. -/
def analyzeScript (source : String) : Except Fault ScriptFacts := do
  let ts ← balancedTokens source
  return ⟨((statements ts).filter (·.isExportDefault)).getLast?.map .ofStatement⟩

/-! ## 2. Setup blocks -/

/-- The words that start the declaration of a function or a class. -/
def definitionWords : List String := ["function", "async", "class", "abstract"]

/-- The tokens from the name of a declared function or class on. -/
def fromDefinedName (ts : List Token) : List Token :=
  ts.dropWhile fun t => definitionWords.contains t.text || t.text == "*"

/-- The tokens before the initial value or the type of a declared pattern. -/
def declaredPattern (declarator : List Token) : List Token :=
  match breakAt "=" declarator with
  | (pattern, some _) => pattern
  | _ => before ":" declarator

/-- What a statement of a setup block adds to the facts. -/
structure Contribution where
  imports : List Span := []
  exposes : List Span := []

/-- What a statement adds. The word `export` in front changes nothing, and a `declare`d name has no value
that a template could see. -/
def Contribution.ofStatement (statement : List Token) : Contribution :=
  let ts := if headIsIdent statement "export" then statement.tail else statement
  let word := headText ts
  if headIsIdent ts "declare" then {}
  else if word == "import" then
    if headIsPunct ts.tail "(" || headIsPunct ts.tail "." then {}
    else ⟨[spanOf statement 0], importNames ts.tail⟩
  else if word == "const" || word == "let" || word == "var" then
    if headIsIdent ts.tail "enum" then {}
    else ⟨[], (splitAt "," ts.tail).flatMap fun part => boundNames (declaredPattern part)⟩
  else if definitionWords.contains word then
    let name := (fromDefinedName ts).head?
    ⟨[], ((name.filter (·.kind == .ident)).map (·.span)).toList⟩
  else {}

/-- Reads a setup block. -/
def analyzeSetup (source : String) : Except Fault SetupFacts := do
  let ts ← balancedTokens source
  let parts := (statements ts).map (Contribution.ofStatement ·.tokens)
  let props := findDefine? ["defineProps"] none ts
  let emit := findDefine? ["defineEmit", "defineEmits"] none ts
  return {
    imports := parts.flatMap (·.imports)
    exposes := parts.flatMap (·.exposes)
    labels := refLabels ts
    defineProps := props.map (·.call)
    defineEmit := emit.map (·.call)
    props := (props.map (·.names)).getD [] }

end ComponentLens.Script
