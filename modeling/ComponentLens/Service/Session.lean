/-
# Sessions

An editor opens, changes and closes files, sets the settings, and asks about files in between. `Session.after`
is the workspace that this leads to. A request changes the workspace in one way only: it sees to it that the
file it is about has a build (`leaves_eq`). Two requests make an exception. The names that are edited together
and the tag that closes an element need no build where there is no markup service, and an item is completed
with the builds there are.

A backend may have changed between any two requests, so every request comes with the state that it finds.
-/
import ComponentLens.Service.Completion
import ComponentLens.Service.Diagnostics
import ComponentLens.Service.Embedded
import ComponentLens.Service.Rename

namespace ComponentLens.Service

variable {σ : Type}

/-! ## 1. Requests -/

/-- What an editor asks. -/
inductive Request where
  /-- For everything that is generated from a file. -/
  | build (uri : Uri)
  | references (uri : Uri) (pos : Position)
  | definitions (uri : Uri) (pos : Position)
  | typeDefinitions (uri : Uri) (pos : Position)
  | rename (uri : Uri) (pos : Position) (newName : String)
  | diagnostics (uri : Uri)
  | colors (uri : Uri)
  | linkedRanges (uri : Uri) (pos : Position)
  | closingTag (uri : Uri) (pos : Position)
  | resolveCompletion (item : CompletionItem)

/-- The workspace that a request leaves. -/
def Request.leaves (tools : Tools σ) (w : Workspace) (state : σ) : Request → Workspace
  | .build uri => w.refresh uri
  | .references uri pos => (Service.references tools w uri pos state).1.2
  | .definitions uri pos => (Service.definitions tools w uri pos state).1.2
  | .typeDefinitions uri pos => (Service.typeDefinitions tools w uri pos state).1.2
  | .rename uri pos newName => (Service.rename tools w uri pos newName state).1.2
  | .diagnostics uri => (Service.diagnostics tools w uri state).1.2
  | .colors uri => (Service.colors tools w uri).2
  | .linkedRanges uri pos => (Service.linkedRanges tools w uri pos).2
  | .closingTag uri pos => (Service.closingTag tools w uri pos).2
  | .resolveCompletion _ => w

/-- The file that a request has built. -/
def Request.subject? (tools : Tools σ) : Request → Option Uri
  | .build uri | .references uri _ | .definitions uri _ | .typeDefinitions uri _ | .rename uri _ _
  | .diagnostics uri | .colors uri => some uri
  | .linkedRanges uri _ | .closingTag uri _ => tools.markup.map fun _ => uri
  | .resolveCompletion _ => none

theorem askMarkup_snd {α : Type} (tools : Tools σ) (w : Workspace) (uri : Uri) (pos : Position)
    (ask : MarkupService → Virtual.MarkupDocument → Nat → Option α) :
    (askMarkup tools w uri pos ask).2 = if tools.markup.isSome then w.refresh uri else w := by
  unfold askMarkup
  cases tools.markup <;> rfl

/-- A request has its file built and does nothing else to the workspace. -/
theorem Request.leaves_eq (tools : Tools σ) (w : Workspace) (state : σ) (request : Request) :
    request.leaves tools w state = ((request.subject? tools).map w.refresh).getD w := by
  cases request with
  | build uri => rfl
  | references uri pos => rfl
  | definitions uri pos => rfl
  | typeDefinitions uri pos => rfl
  | rename uri pos newName =>
    simp only [leaves, Service.rename]
    cases (w.refresh uri).build? uri with
    | none => rfl
    | some b =>
      cases (w.refresh uri).files.offsetAt? uri pos with
      | none => rfl
      | some offset =>
        simp only [bind, StateT.bind]
        split
        split <;> rfl
  | diagnostics uri =>
    simp only [leaves, Service.diagnostics]
    cases (w.refresh uri).build? uri <;> rfl
  | colors uri =>
    simp only [leaves, Service.colors]
    split <;> rfl
  | linkedRanges uri pos =>
    simp only [leaves, subject?, Service.linkedRanges, askMarkup_snd]
    cases tools.markup <;> rfl
  | closingTag uri pos =>
    simp only [leaves, subject?, Service.closingTag, askMarkup_snd]
    cases tools.markup <;> rfl
  | resolveCompletion item => rfl

/-! ## 2. Histories -/

namespace Session

/-- What happens to a workspace. -/
inductive Event (σ : Type) where
  | opened (file : OpenFile)
  | changed (uri : Uri) (version : Int) (changes : List TextChange)
  | closed (uri : Uri)
  | configured (settings : Settings)
  | asked (request : Request) (state : σ)

/-- The workspace after one event. What is refused changes nothing. -/
def step (tools : Tools σ) (w : Workspace) : Event σ → Workspace
  | .opened file => w.openFile file
  | .changed uri version changes =>
    match w.change uri version changes with
    | .ok w => w
    | .error _ => w
  | .closed uri => w.close uri
  | .configured settings => w.configure settings
  | .asked request state => request.leaves tools w state

/-- The workspace after a history, the latest event first. -/
def after (tools : Tools σ) (settings : Settings) : List (Event σ) → Workspace
  | [] => { settings }
  | event :: past => step tools (after tools settings past) event

/-- The version that was last given for a file since it has been open. -/
def latestVersion? (uri : Uri) : List (Event σ) → Option Int
  | [] => none
  | .opened file :: past => if file.uri = uri then some file.version else latestVersion? uri past
  | .changed u version _ :: past =>
    if u = uri then (latestVersion? uri past).map fun _ => version else latestVersion? uri past
  | .closed u :: past => if u = uri then none else latestVersion? uri past
  | .configured _ :: past | .asked _ _ :: past => latestVersion? uri past

/-- While a file is open, each version given for it is higher than the one before. -/
def Rising : List (Event σ) → Prop
  | [] => True
  | .opened file :: past => (∀ v ∈ latestVersion? file.uri past, v < file.version) ∧ Rising past
  | .changed uri version _ :: past => (∀ v ∈ latestVersion? uri past, v < version) ∧ Rising past
  | .closed _ :: past | .configured _ :: past | .asked _ _ :: past => Rising past

/-- Every text that an open file has had. -/
def texts (tools : Tools σ) (settings : Settings) : List (Event σ) → List String
  | [] => []
  | event :: past =>
    (after tools settings (event :: past)).files.table.values.map (·.text) ++ texts tools settings past

end Session

end ComponentLens.Service
