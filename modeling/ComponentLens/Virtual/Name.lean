/-
# Names in generated code

A name from markup is written as an identifier where it is one, and quoted elsewhere. A quoted name has two
mappings: one from the whole place to the name with its quotes, and one from place to name inside them.
-/
import ComponentLens.Mapping.MappedText
import ComponentLens.Mapping.Payload
import ComponentLens.Markup.Node

namespace ComponentLens.Virtual

/-- Mapped code. -/
abbrev Code := MappedText CodeData

/-- What is known of a mapping to a template. -/
def templateData (capabilities : Capabilities) : CodeData := { region := .template, capabilities }

/-- Code that stands for nothing in the template. -/
def raw (text : String) : Code := .plain text

/-- An expression of the template, copied. -/
def expression (e : Markup.Expression) (capabilities : Capabilities := .expression) : Code :=
  .mapped e.content e.span .offset (templateData capabilities)

/-- A name, and the place in the template that it stands for. -/
structure NameUse where
  name : String
  source : Span
  capabilities : Capabilities
  /-- Whether an edit keeps the hyphens of the name that it replaces. -/
  keepsHyphens : Bool := false

namespace NameUse

/-- What is known of a mapping of the name. -/
def data (use : NameUse) (capabilities : Capabilities) : CodeData :=
  { templateData capabilities with
    onEdit := if use.keepsHyphens then some .keepHyphenation else none }

/-- The name as it is. -/
def bare (use : NameUse) : Code := .mapped use.name use.source .offset (use.data use.capabilities)

/-- What a name together with its quotes does not serve: these requests need the name alone. -/
def innerOnly : Capabilities :=
  .rename ||| .formatting ||| .completion ||| .semanticTokens ||| .referencesCodeLens

/-- The name in quotes. -/
def quoted (use : NameUse) : Code :=
  .concat [.ahead ("'" ++ use.name ++ "'") use.source .gate (use.data (use.capabilities.without innerOnly)),
    "'", use.bare, "'"]

/-- The name as a key. -/
def key (use : NameUse) : Code :=
  if Naming.isSimpleIdentifier use.name then use.bare else use.quoted

/-- The name as a property that is read. -/
def access (use : NameUse) : Code :=
  if Naming.isSimpleIdentifier use.name then .concat [".", use.bare]
  else .concat ["[", use.quoted, "]"]

end NameUse

/-- The key of a property that markup spells in the given way: a hyphenated name is an identifier in camel
case. -/
def propKey (name : String) : String :=
  if Naming.hyphenate name == name then Naming.camelize name else name

/-- The name of the `n`th helper variable. -/
def helperVar (n : Nat) : String := "__VLS_" ++ toString n

end ComponentLens.Virtual
