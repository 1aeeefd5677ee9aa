/-
# Putting tables together

A settings file is a list of statements. A header opens a table, and the pairs behind it go there. A path
leads through tables that may not exist yet; what it may pass, and what it may end at, depends on how the
tables on it came about.

Every step is `none` where the file contradicts itself: a key with two values, a table opened twice, a path
through a value.
-/
import ComponentLens.Toml.Value

namespace ComponentLens.Toml

/-! ## 1. Statements -/

/-- One line of a settings file. -/
inductive Statement where
  /-- Opens a table. -/
  | open_ (path : List String) (key : String)
  /-- Opens a new last table of an array. -/
  | extend (path : List String) (key : String)
  /-- Gives a key its value, below the open table. -/
  | pair (path : List String) (key : String) (value : Value)
  deriving Repr

/-! ## 2. Paths -/

/-- Changes the table at the end of a header's path. The path creates tables as it goes, passes any table
that is not written in braces, and enters an array of tables at its last one. -/
def atHeader? : List String → (Entries → Option Entries) → Entries → Option Entries
  | [], f, entries => f entries
  | key :: path, f, entries =>
    Entries.update? entries key fun
      | none => (atHeader? path f []).map (.table .passed)
      | some (.table .braced _) => none
      | some (.table kind inner) => (atHeader? path f inner).map (.table kind)
      | some (.tables earlier last) => (atHeader? path f last).map (.tables earlier)
      | some _ => none

/-- Changes the table at the end of a dotted key's path. The path creates tables as it goes, and may not pass
a table with a header of its own. It ends at a table made by dotted keys, unless it is empty. -/
def atDotted? : List String → (Entries → Option Entries) → Entries → Option Entries
  | [], f, entries => f entries
  | key :: path, f, entries =>
    Entries.update? entries key fun
      | none => (atDotted? path f []).map (.table .dotted)
      | some (.table .dotted inner) => (atDotted? path f inner).map (.table .dotted)
      | some (.table .passed inner) =>
        if path.isEmpty then none else (atDotted? path f inner).map (.table .passed)
      | some (.tables earlier last) =>
        if path.isEmpty then none else (atDotted? path f last).map (.tables earlier)
      | some _ => none

/-! ## 3. Steps -/

/-- Gives a key below a table its first value. -/
def addPair? (entries : Entries) (path : List String) (key : String) (value : Value) : Option Entries :=
  atDotted? path (fun entries => Entries.update? entries key fun
    | none => some value
    | some _ => none) entries

/-- Opens the table of a header. A table that headers have only passed so far is opened as it is. -/
def openTable? (root : Entries) (path : List String) (key : String) : Option Entries :=
  atHeader? path (fun entries => Entries.update? entries key fun
    | none => some (.table .header [])
    | some (.table .passed inner) => some (.table .header inner)
    | some _ => none) root

/-- Opens a new last table of an array of tables. -/
def extendTables? (root : Entries) (path : List String) (key : String) : Option Entries :=
  atHeader? path (fun entries => Entries.update? entries key fun
    | none => some (.tables [] [])
    | some (.tables earlier last) => some (.tables (earlier ++ [last]) [])
    | some _ => none) root

/-- What the statements so far describe. -/
structure Assembly where
  root : Entries := []
  /-- The path of the open table. -/
  current : List String := []

/-- Carries out one more statement. -/
def Assembly.step? (a : Assembly) (s : Statement) : Option Assembly :=
  match s with
  | .open_ path key => (openTable? a.root path key).map (⟨·, path ++ [key]⟩)
  | .extend path key => (extendTables? a.root path key).map (⟨·, path ++ [key]⟩)
  | .pair path key value =>
    (atHeader? a.current (addPair? · path key value) a.root).map (⟨·, a.current⟩)

/-- The table that the statements describe. -/
def assemble? (statements : List Statement) : Option Entries :=
  (statements.foldlM Assembly.step? {}).map (·.root)

/-- The table that pairs in braces describe. -/
def braced? (pairs : List (List String × String × Value)) : Option Value :=
  (pairs.foldlM (fun entries (path, key, value) => addPair? entries path key value) ([] : Entries)).map
    (.table .braced)

/-- A value given to a fresh key is found under it. -/
theorem get?_addPair {entries new : Entries} {key : String} {value : Value}
    (h : addPair? entries [] key value = some new) : new.get? key = some value := by
  simp only [addPair?, atDotted?] at h
  induction entries generalizing new with
  | nil => simp [Entries.update?] at h; subst h; simp [Entries.get?]
  | cons entry rest ih =>
    obtain ⟨k, v⟩ := entry
    simp only [Entries.update?] at h
    split at h
    · simp at h
    · next hne =>
      obtain ⟨w, hw, rfl⟩ := Option.map_eq_some_iff.1 h
      have hne : (key == k) = false := by simpa using fun e => hne e.symm
      rw [Entries.get?, List.lookup_cons, hne]
      exact ih hw

end ComponentLens.Toml
