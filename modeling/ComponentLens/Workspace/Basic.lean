/-
# The workspace

A workspace is what is remembered between requests: the open files, the held builds and the settings. The
build of a component is made when a request first needs it. `refresh` makes it; `build?` reads it.
-/
import ComponentLens.Workspace.BuildCache
import ComponentLens.Workspace.OpenFiles
import ComponentLens.Workspace.Settings

namespace ComponentLens

open Virtual (Build)

/-- The open files, the held builds and the settings. -/
structure Workspace where
  files : OpenFiles := {}
  builds : BuildCache := {}
  settings : Settings := {}

namespace Workspace

/-! ## 1. Files and settings -/

/-- Opens a file. A held build stays, and counts for the version that it was made for. -/
def openFile (w : Workspace) (file : OpenFile) : Workspace := { w with files := w.files.insert file }

/-- Changes an open file. -/
def change (w : Workspace) (uri : Uri) (version : Int) (changes : List TextChange) :
    Except Refusal Workspace :=
  match w.files.change? uri version changes with
  | some files => .ok { w with files }
  | none => .error (.notOpen uri)

/-- Closes a file and lets go of its build. -/
def close (w : Workspace) (uri : Uri) : Workspace :=
  { w with files := w.files.erase uri, builds := w.builds.erase uri }

/-- Changes the settings. Generated code depends on them, so every build is let go. -/
def configure (w : Workspace) (settings : Settings) : Workspace :=
  { w with settings, builds := w.builds.clear }

/-! ## 2. Builds -/

/-- An open component. -/
def component? (w : Workspace) (uri : Uri) : Option OpenFile := (w.files.get? uri).filter (·.isComponent)

/-- Sees to it that an open component has a held build for its version. -/
def refresh (w : Workspace) (uri : Uri) : Workspace :=
  match w.component? uri with
  | some file =>
    { w with builds := w.builds.refresh uri file.version file.text w.settings.buildOptions }
  | none => w

/-- The held build of an open component. -/
def build? (w : Workspace) (uri : Uri) : Option Build := (w.component? uri).bind fun _ => w.builds.build? uri

/-- A refresh changes no file and no setting. -/
theorem files_refresh (w : Workspace) (uri : Uri) : (w.refresh uri).files = w.files := by
  simp only [refresh]; split <;> rfl

theorem settings_refresh (w : Workspace) (uri : Uri) : (w.refresh uri).settings = w.settings := by
  simp only [refresh]; split <;> rfl

/-- After a refresh exactly the open components have a build. -/
theorem build?_refresh_isSome (w : Workspace) (uri : Uri) :
    ((w.refresh uri).build? uri).isSome = (w.component? uri).isSome := by
  have same : (w.refresh uri).component? uri = w.component? uri := by simp [component?, files_refresh]
  simp only [build?, same]
  cases h : w.component? uri with
  | none => rfl
  | some file => simp [refresh, h, BuildCache.build?, BuildCache.get?_refresh_isSome]

/-! ## 3. Opening by path -/

/-- The name of the file at the end of a path. -/
def fileName? (path : String) : Option (List Char) :=
  (((Uri.segments path.toList).filter fun s => !(s.isEmpty || s == ['.'])).getLast?).filter
    (· != ['.', '.'])

/-- What follows the last point of a file name, if the point is not in front. -/
def extension? (path : String) : Option String :=
  (fileName? path).bind fun name =>
    match name.reverse.dropWhile (· != '.') with
    | _ :: _ :: _ => some (String.ofList (name.reverse.takeWhile (· != '.')).reverse)
    | _ => none

/-- The language of a file by its extension. -/
def languageOf (path : String) : String :=
  match extension? path with
  | some "vue" => "vue"
  | some "ts" | some "mts" | some "cts" => "typescript"
  | some "tsx" => "typescriptreact"
  | some "jsx" => "javascriptreact"
  | _ => "javascript"

/-- Opens the file of an absolute path. `read` gives the text of a file that exists. -/
def openPath (w : Workspace) (read : String → Option String) (path : String) (version : Int) :
    Except Refusal (Uri × Workspace) :=
  match Uri.ofFilePath? path with
  | none => .error (.noAddress path)
  | some uri =>
    match read path with
    | none => .error .noFile
    | some text => .ok (uri, w.openFile ⟨uri, version, languageOf path, text⟩)

end Workspace

end ComponentLens
