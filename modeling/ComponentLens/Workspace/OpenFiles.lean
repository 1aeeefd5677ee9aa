/-
# Open files

The files that the editor has open, each with the text that the editor shows. A change notification
carries a new version and a list of changes, applied in order. A change without a range replaces the whole
text. A change whose range does not lie in the text is passed over, and the version counts all the same.
-/
import ComponentLens.Text.Lines
import ComponentLens.Uri
import ComponentLens.Workspace.Table

namespace ComponentLens

/-! ## 1. One file -/

/-- An open file. -/
structure OpenFile where
  uri : Uri
  /-- Set anew by every change. -/
  version : Int
  languageId : String
  text : String
  deriving DecidableEq, Repr

/-- A change of a text: of the given range, or of the whole. -/
structure TextChange where
  range : Option Range
  text : String
  deriving DecidableEq, Repr

namespace OpenFile

/-- Whether the file is a component, by its language or by its name. -/
def isComponent (f : OpenFile) : Bool := f.languageId == "vue" || f.uri.pathEndsWith ".vue"

/-- The text after a change. A range whose end comes before its start is empty, at its start. -/
def changedText (text : String) (change : TextChange) : String :=
  match change.range with
  | none => change.text
  | some range =>
    match Lines.offsetAt? text range.start, Lines.offsetAt? text range.stop with
    | some start, some stop =>
      match (Span.mk start (max start stop)).replace? text.toList change.text.toList with
      | some new => String.ofList new
      | none => text
    | _, _ => text

/-- The file after a list of changes. No change at all also leaves the version. -/
def change (f : OpenFile) (version : Int) (changes : List TextChange) : OpenFile :=
  changes.foldl (fun f c => { f with version, text := changedText f.text c }) f

end OpenFile

/-! ## 2. All of them -/

/-- The open files by address. -/
structure OpenFiles where
  table : Table Uri OpenFile := ∅

namespace OpenFiles

/-- The open file of an address. -/
def get? (o : OpenFiles) (uri : Uri) : Option OpenFile := o.table.get? uri

/-- Opens a file, in place of an open file of the same address. -/
def insert (o : OpenFiles) (file : OpenFile) : OpenFiles := ⟨o.table.insert file.uri file⟩

/-- Closes a file. -/
def erase (o : OpenFiles) (uri : Uri) : OpenFiles := ⟨o.table.erase uri⟩

/-- Changes an open file; `none` when it is not open. -/
def change? (o : OpenFiles) (uri : Uri) (version : Int) (changes : List TextChange) :
    Option OpenFiles :=
  (o.get? uri).map fun file => ⟨o.table.insert uri (file.change version changes)⟩

/-- The byte offset of a position in an open file. -/
def offsetAt? (o : OpenFiles) (uri : Uri) (pos : Position) : Option Nat :=
  (o.get? uri).bind (Lines.offsetAt? ·.text pos)

/-- The range of a span in an open file. -/
def rangeOf? (o : OpenFiles) (uri : Uri) (span : Span) : Option Range :=
  (o.get? uri).bind (Lines.rangeOf? ·.text span)

/-! ## 3. Laws -/

/-- Opening a file changes what is open at its address and nowhere else. -/
theorem get?_insert (o : OpenFiles) (file : OpenFile) (uri : Uri) :
    (o.insert file).get? uri = if uri = file.uri then some file else o.get? uri :=
  o.table.get?_insert file.uri uri file

/-- Closing a file changes what is open at its address and nowhere else. -/
theorem get?_erase (o : OpenFiles) (closed uri : Uri) :
    (o.erase closed).get? uri = if uri = closed then none else o.get? uri :=
  o.table.get?_erase closed uri

end OpenFiles

end ComponentLens
