/-
# Settings

What a user can choose, read from a settings file. Every choice has a default. A choice that is unknown does
not count, and one whose value has the wrong type makes the whole file unreadable.
-/
import ComponentLens.Toml.Reading
import ComponentLens.Virtual.Build
import ComponentLens.Workspace.Refusal

namespace ComponentLens

/-! ## 1. The choices -/

/-- Which kinds of diagnostics are asked for. -/
structure DiagnosticKinds where
  semantic : Bool := true
  syntactic : Bool := true
  suggestion : Bool := true
  deriving DecidableEq, Repr

/-- The choices of a user. -/
structure Settings where
  diagnostics : DiagnosticKinds := {}
  /-- Components that every template can use. -/
  globalComponents : List String := []
  /-- Whether faults of a component file are reported with its diagnostics. -/
  reportsFaults : Bool := true
  /-- Whether a class name declared by a scoped style block is shown as a link. -/
  linksScopedClasses : Bool := true
  deriving DecidableEq, Repr

/-- The choices that generated code depends on. -/
def Settings.buildOptions (s : Settings) : Virtual.BuildOptions :=
  ⟨s.globalComponents, s.linksScopedClasses⟩

/-! ## 2. Reading -/

open Toml (Value Entries)

/-- A truth value, or the default where there is no value. -/
def boolean? (default : Bool) : Option Value → Option Bool
  | none => some default
  | some (.boolean b) => some b
  | some _ => none

/-- A list of texts, empty where there is no value. -/
def texts? : Option Value → Option (List String)
  | none => some []
  | some (.array items) => items.mapM fun
    | .text text => some text
    | _ => none
  | some _ => none

/-- The kinds of diagnostics: a table by name, or an array that gives them in order and may stop early. A point
in time has none of the names. -/
def DiagnosticKinds.ofValue? : Option Value → Option DiagnosticKinds
  | none | some (.time _) => some {}
  | some (.table _ entries) => do
    return { semantic := ← boolean? true (Entries.get? entries "semantic")
             syntactic := ← boolean? true (Entries.get? entries "syntactic")
             suggestion := ← boolean? true (Entries.get? entries "suggestion") }
  | some (.array items) => do
    return { semantic := ← boolean? true items[0]?
             syntactic := ← boolean? true items[1]?
             suggestion := ← boolean? true items[2]? }
  | some _ => none

/-- The settings in the table of a settings file. -/
def Settings.ofEntries? (entries : Entries) : Option Settings := do
  return { diagnostics := ← DiagnosticKinds.ofValue? (Entries.get? entries "diagnostics")
           globalComponents := ← texts? (Entries.get? entries "global_components")
           reportsFaults := ← boolean? true (Entries.get? entries "report_parse_errors")
           linksScopedClasses := ← boolean? true (Entries.get? entries "scoped_class_links") }

/-- The settings in the text of a settings file. -/
def Settings.ofText (text : String) : Except Refusal Settings :=
  match (Toml.read? text).bind Settings.ofEntries? with
  | some settings => .ok settings
  | none => .error .badSettings

/-- The settings in a file that may be missing. -/
def Settings.ofFile (text : Option String) : Except Refusal Settings :=
  match text with
  | some text => Settings.ofText text
  | none => .error .noFile

/-- An empty file leaves every choice at its default. -/
theorem Settings.ofEntries?_nil : Settings.ofEntries? [] = some {} := rfl

end ComponentLens
