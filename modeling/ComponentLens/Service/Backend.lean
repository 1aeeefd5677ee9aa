/-
# Collaborators

A request is answered with the help of others: an analysis backend that reads the generated code, a service
for stylesheets and one for markup. They know nothing of components. They are asked about offsets of
generated documents and answer with places in such documents, or in files of their own.

The backend may change between any two questions, so each of its answers is an action on a state. The
request may be cancelled at any time, and whoever wants to know has to ask.
-/
import ComponentLens.Service.Place
import ComponentLens.Virtual.Document
import ComponentLens.Workspace.Settings

namespace ComponentLens.Service

open Virtual (Document)

/-! ## 1. Failures -/

/-- Why a collaborator does not answer. -/
inductive BackendError where
  | cancelled
  | unknownDocument (uri : Uri)
  | failed (message : String)
  deriving DecidableEq, Repr

/-- The failure in words. -/
def BackendError.message : BackendError → String
  | .cancelled => "request cancelled"
  | .unknownDocument uri => "unknown document: " ++ uri.text
  | .failed message => message

/-- An answer, or the reason for its lack. -/
abbrev Reply := Except BackendError

/-! ## 2. Questions for places -/

/-- What is asked about the symbol at an offset. -/
inductive Lookup where
  | references
  | definition
  | typeDefinition
  deriving DecidableEq, Repr

/-- What a mapping has to allow for the question to pass it. -/
def Lookup.capability : Lookup → Capabilities
  | .references => .references
  | .definition | .typeDefinition => .definitions

/-- What a link has to allow for the question to follow it. -/
def Lookup.linkCapability : Lookup → LinkCapabilities
  | .references => .references
  | .definition | .typeDefinition => .definitions

/-! ## 3. Diagnostics -/

/-- How grave a diagnostic is, numbered as editors number it. -/
structure Severity where
  level : Int
  deriving DecidableEq, Repr

def Severity.error : Severity := ⟨1⟩

/-- What a diagnostic is known by. -/
inductive DiagnosticCode where
  | number (n : Int)
  | text (text : String)
  deriving DecidableEq, Repr

/-- A diagnostic of a generated document. -/
structure BackendDiagnostic where
  span : Span
  severity : Severity
  code : Option DiagnosticCode
  source : Option String
  message : String
  /-- Marks for the display, numbered as editors number them. -/
  tags : List Int
  /-- Places that explain it, each with a message. -/
  related : List (Place × String)
  deriving DecidableEq, Repr

/-! ## 4. Completion -/

/-- What identifies a completion. -/
structure CompletionEntry where
  name : String
  /-- The module that it would be imported from. -/
  source : Option String
  deriving DecidableEq, Repr

/-- Something to do beside inserting a completion. -/
structure CompletionAction where
  description : String
  changes : Changes
  deriving Repr

/-- What there is to know about a completion. -/
structure CompletionDetails where
  display : String
  documentation : Option String
  actions : List CompletionAction
  deriving Repr

/-! ## 5. The collaborators -/

/-- What reads the generated code. -/
structure Backend (σ : Type) where
  /-- Whether the request has been cancelled. -/
  isCancelled : StateM σ Bool
  find : Lookup → Uri → Nat → StateM σ (Reply (List Place))
  rename : Uri → Nat → String → StateM σ (Reply Changes)
  diagnostics : Uri → DiagnosticKinds → StateM σ (Reply (List BackendDiagnostic))
  completionDetails : Uri → Nat → CompletionEntry → StateM σ (Reply (Option CompletionDetails))
  /-- The text of a document that the backend knows. -/
  text? : Uri → StateM σ (Option String)

/-- A color, its parts between zero and one. -/
structure Color where
  red : Rat
  green : Rat
  blue : Rat
  alpha : Rat
  deriving DecidableEq, Repr

/-- The style languages that there is a service for. -/
def isStyleLanguage (languageId : String) : Bool := ["css", "scss", "less", "postcss"].contains languageId

/-- What reads the stylesheets. -/
structure StyleService where
  supports : String → Bool := isStyleLanguage
  definition : Document → Nat → Reply (Option Place)
  references : Document → Nat → Reply (List Place)
  rename : Document → Nat → String → Reply Changes
  colors : Document → Reply (List (Span × Color))

/-- What reads the copy of the template. -/
structure MarkupService where
  rename : Document → Nat → String → Reply Changes
  /-- The spans that are edited together with the one at an offset. -/
  linked : Document → Nat → Reply (Option (List Span))
  /-- What to insert at an offset to close the tag in front. -/
  closing : Document → Nat → Reply (Option String)

/-- Everyone who may be asked. -/
structure Tools (σ : Type) where
  backend : Backend σ
  style : Option StyleService := none
  markup : Option MarkupService := none

/-- What an action gives for each element, in order. -/
def gather {σ α β : Type} (f : α → StateM σ (List β)) : List α → StateM σ (List β)
  | [] => pure []
  | a :: rest => do return (← f a) ++ (← gather f rest)

/-- A collaborator that does not answer is passed over. -/
def orNothing {α : Type} : Reply (List α) → List α
  | .ok answers => answers
  | .error _ => []

end ComponentLens.Service
