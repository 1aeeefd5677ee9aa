/-
# Completing an item

A completion item that was proposed in a generated document carries data that say where it came from. Once
the user looks at it, the backend is asked for more, and what an action would change in the component is
added to the item. The data travel through the editor and may come back as anything, so they are read with
care: an item with other data is left as it is.
-/
import ComponentLens.Service.MapBack

namespace ComponentLens.Service

variable {σ : Type}

/-! ## 1. The data of an item -/

/-- Data as editors store them. -/
inductive ItemData where
  | null
  | boolean (b : Bool)
  | number (n : Int)
  | text (text : String)
  | list (items : List ItemData)
  | record (fields : List (String × ItemData))
  deriving Repr, Inhabited

/-- Where an item came from. -/
structure ItemOrigin where
  /-- The document that the item was proposed in. -/
  uri : Uri
  offset : Nat
  entry : CompletionEntry
  deriving DecidableEq, Repr

/-- A text. -/
def ItemData.text? : ItemData → Option String
  | .text t => some t
  | _ => none

/-- A text or nothing. A field that is missing counts as nothing. -/
def optionalText? : Option ItemData → Option (Option String)
  | none | some .null => some none
  | some (.text t) => some (some t)
  | some _ => none

/-- An offset of 32 bits. -/
def ItemData.offset? : ItemData → Option Nat
  | .number n => if 0 ≤ n ∧ n ≤ maxOffset then some n.toNat else none
  | _ => none

/-- What identifies the completion: by name or in order, its source last and optional. -/
def CompletionEntry.ofData? : ItemData → Option CompletionEntry
  | .record fields => do
    return ⟨← (← fields.lookup "name").text?, ← optionalText? (fields.lookup "source")⟩
  | .list [name] => do return ⟨← name.text?, none⟩
  | .list [name, source] => do return ⟨← name.text?, ← optionalText? (some source)⟩
  | _ => none

/-- Where an item came from: by name or in order. -/
def ItemOrigin.ofData? : ItemData → Option ItemOrigin
  | .record fields => do
    ofParts? (← fields.lookup "uri") (← fields.lookup "offset") (← fields.lookup "entry")
  | .list [uri, offset, entry] => ofParts? uri offset entry
  | _ => none
where
  /-- All three parts have to be sound. -/
  ofParts? (uri offset entry : ItemData) : Option ItemOrigin := do
    return ⟨← Uri.ofString? (← uri.text?), ← offset.offset?, ← CompletionEntry.ofData? entry⟩

/-! ## 2. Items -/

/-- A completion item. -/
structure CompletionItem where
  label : String
  detail : Option String := none
  documentation : Option String := none
  /-- Edits of the file beside the insertion. -/
  edits : List RangeEdit := []
  data : Option ItemData := none
  deriving Repr

/-- The edit of an open component that an edit of the backend stands for. Edits of other files are dropped. -/
def actionEdit? (w : Workspace) (owner : Option Uri) (e : PlacedEdit) : Option RangeEdit := do
  let p ← (mapBack w.builds .completion e.place).find? (some ·.place.uri == owner)
  let range ← w.files.rangeOf? p.place.uri p.place.span
  return ⟨range, e.newText⟩

/-- The item with what the backend knows about it. What is empty or lacking leaves the item as it is. -/
def CompletionItem.complete (item : CompletionItem) (w : Workspace) (owner : Option Uri)
    (details : CompletionDetails) : CompletionItem :=
  let lines := details.actions.map (·.description) ++
    if details.display.isEmpty then [] else [details.display]
  { item with
    detail := if lines.isEmpty then item.detail else some ("\n".intercalate lines)
    documentation := details.documentation <|> item.documentation
    edits := item.edits ++ details.actions.flatMap fun action =>
      action.changes.placed.filterMap (actionEdit? w owner) }

/-! ## 3. The request -/

/-- Completes an item. A failure of the backend is shown in its place. -/
def resolveCompletion (tools : Tools σ) (w : Workspace) (item : CompletionItem) : StateM σ CompletionItem :=
  match item.data.bind ItemOrigin.ofData? with
  | none => pure item
  | some origin => do
    match ← tools.backend.completionDetails origin.uri origin.offset origin.entry with
    | .ok (some details) => return item.complete w (w.builds.owner? origin.uri) details
    | .ok none => return item
    | .error e => return { item with detail := some ("[TS Error] " ++ e.message) }

end ComponentLens.Service
