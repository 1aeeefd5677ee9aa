/-
# Held builds

The build of a component is held until its text changes. It is found by the address of the component, and
by the address of any document that it generated: the owner of a generated document is the component that it
was generated for.

Two versions with one digest count as one text, so a new version of an old text keeps its build.
-/
import ComponentLens.Text.Digest
import ComponentLens.Virtual.Build
import ComponentLens.Workspace.Table

namespace ComponentLens

open Virtual (Build BuildOptions)

/-- A held build, and the version of the file that it stands for. -/
structure HeldBuild where
  version : Int
  digest : UInt64
  build : Build
  /-- The number of builds made before it. -/
  serial : Nat

/-- The held builds, and the owners of their documents. -/
structure BuildCache where
  held : Table Uri HeldBuild := ∅
  owners : Table Uri Uri := ∅
  /-- The number of builds made so far. -/
  made : Nat := 0

namespace BuildCache

/-! ## 1. Reading -/

/-- The held build of a component, with its version. -/
def get? (c : BuildCache) (uri : Uri) : Option HeldBuild := c.held.get? uri

/-- The held build of a component. -/
def build? (c : BuildCache) (uri : Uri) : Option Build := (c.get? uri).map (·.build)

/-- The version of the file that the held build stands for. -/
def version? (c : BuildCache) (uri : Uri) : Option Int := (c.get? uri).map (·.version)

/-- The component that a held build generated a document for. -/
def owner? (c : BuildCache) (uri : Uri) : Option Uri := c.owners.get? uri

/-- The held build, with its version, that generated a document. -/
def generator? (c : BuildCache) (uri : Uri) : Option HeldBuild :=
  ((c.owner? uri).bind c.get?).filter (·.build.owns uri)

/-- The code document of an address, and the build that it belongs to. -/
def codeDocument? (c : BuildCache) (uri : Uri) : Option (Build × Virtual.CodeDocument) :=
  (c.generator? uri).bind fun h => (h.build.codeDocument? uri).map (h.build, ·)

/-! ## 2. The owners -/

/-- The owners with every document of a build given to a component. -/
def assign (owners : Table Uri Uri) (uri : Uri) (build : Build) : Table Uri Uri :=
  build.documents.foldl (fun owners d => owners.insert d.uri uri) owners

/-- The owners without the documents of a build, except for those that `kept` generates as well. -/
def release (owners : Table Uri Uri) (build : Build) (kept : Option Build) : Table Uri Uri :=
  build.documents.foldl
    (fun owners d => if kept.any (·.owns d.uri) then owners else owners.erase d.uri) owners

/-! ## 3. Changing -/

/-- Builds a component, in place of the build held so far. -/
def rebuild (c : BuildCache) (uri : Uri) (version : Int) (text : String) (options : BuildOptions) :
    BuildCache :=
  let build := Virtual.build uri text options
  let owners := assign c.owners uri build
  { held := c.held.insert uri ⟨version, Digest.ofString text, build, c.made⟩
    owners :=
      match c.build? uri with
      | some old => release owners old (some build)
      | none => owners
    made := c.made + 1 }

/-- Sees to it that the held build of a component stands for a version of its text. -/
def refresh (c : BuildCache) (uri : Uri) (version : Int) (text : String) (options : BuildOptions) :
    BuildCache :=
  match c.get? uri with
  | none => c.rebuild uri version text options
  | some h =>
    if h.version = version then c
    else if h.digest = Digest.ofString text then
      { c with held := c.held.insert uri { h with version } }
    else c.rebuild uri version text options

/-- Lets go of the build of a component. -/
def erase (c : BuildCache) (uri : Uri) : BuildCache :=
  match c.build? uri with
  | some old => { c with held := c.held.erase uri, owners := release c.owners old none }
  | none => c

/-- Lets go of every build. -/
def clear (c : BuildCache) : BuildCache := { made := c.made }

/-- After a refresh there is a build. -/
theorem get?_refresh_isSome (c : BuildCache) (uri : Uri) (version : Int) (text : String)
    (options : BuildOptions) : ((c.refresh uri version text options).get? uri).isSome := by
  simp only [refresh]
  split
  · simp [rebuild, get?]
  · next h heq =>
    split
    · simp [heq]
    · split <;> simp [rebuild, get?]

/-- After a refresh the build stands for the version asked for. -/
theorem version?_refresh (c : BuildCache) (uri : Uri) (version : Int) (text : String)
    (options : BuildOptions) : (c.refresh uri version text options).version? uri = some version := by
  simp only [refresh]
  split
  · simp [rebuild, version?, get?]
  · next h heq =>
    split
    · next hv => simp [version?, heq, hv]
    · split <;> simp [rebuild, version?, get?]

end BuildCache

end ComponentLens
