/-
# Edits that come back from the template document

The backend renames in generated code, and its edits are mapped back.  An edit at a place of the template document
lands on the places of the file that a look-up gives and that a rename may reach (`landedEdits_template`).

Its text changes in one way only: a name that replaces a hyphenated one is hyphenated (`newText_of_landed`).
-/
import ComponentLens.Proofs.Virtual.Provenance
import ComponentLens.Proofs.Workspace.Owners
import ComponentLens.Service.Rename

namespace ComponentLens.Service

open Virtual

variable {builds : BuildCache} {held : HeldBuild} {d : CodeDocument}

/-- The held build has the template document, and the document is found by its address. -/
structure HasTemplate (builds : BuildCache) (held : HeldBuild) (d : CodeDocument) : Prop where
  template : held.build.template = some d
  generator : builds.generator? d.document.uri = some held
  found : held.build.codeDocument? d.document.uri = some d

/-- A component that has just been built has its template document, if the script document does not take the
address of it. -/
theorem hasTemplate_rebuild (c : BuildCache) {uri : Uri} (version : Int) {text : String} {options : BuildOptions}
    (htemplate : (build uri text options).template = some d)
    (hscript : ∀ s ∈ (build uri text options).script, s.document.uri ≠ uri.append ".__VLS_template.ts") :
    HasTemplate (c.rebuild uri version text options)
      ⟨version, Digest.ofString text, build uri text options, c.made⟩ d := by
  have huri : d.document.uri = uri.append ".__VLS_template.ts" := by
    obtain ⟨input, rfl, -⟩ := build_template uri text options htemplate
    rfl
  have hfound : (build uri text options).codeDocument? d.document.uri = some d := by
    rw [Build.codeDocument?, Build.codeDocuments, htemplate]
    cases hlogic : (build uri text options).script with
    | none => simp
    | some s => simp [huri, hscript s hlogic]
  have howns : (build uri text options).owns d.document.uri = true := by
    refine List.any_eq_true.2 ⟨d.document, ?_, by simp⟩
    simp [Build.documents, Build.codeDocuments, htemplate]
  refine ⟨htemplate, ?_, hfound⟩
  refine BuildCache.generator?_eq_some_iff.2 ⟨uri, ?_, ?_, howns⟩
  · rw [BuildCache.owner?_rebuild, if_pos howns]
  · rw [BuildCache.get?_rebuild, if_pos rfl]

/-- The places in the file that a place of the template document stands for. -/
theorem mapBack_template (h : HasTemplate builds held d) (wanted : Capabilities) (place : Span) :
    mapBack builds wanted ⟨d.document.uri, place⟩ =
      ((d.map.toSources place).filter (·.data.capabilities.has wanted)).map fun hit =>
        ⟨⟨held.build.uri, hit.range⟩, some hit.data⟩ := by
  simp [mapBack, h.generator, h.found]

/-- A hit that asks for no spelling takes the edit as it is. -/
theorem mem_landedEdits_template (h : HasTemplate builds held d) {place : Span} {hit : Hit CodeData}
    (hhit : hit ∈ d.map.toSources place) (hserves : hit.data.capabilities.has .renameOut = true)
    (hedit : hit.data.onEdit = none) (newText : String) :
    ⟨⟨held.build.uri, hit.range⟩, newText⟩ ∈ landedEdits builds ⟨d.document.uri, place⟩ newText := by
  refine List.mem_filterMap.2 ⟨⟨⟨held.build.uri, hit.range⟩, some hit.data⟩, ?_, ?_⟩
  · rw [mapBack_template h]
    exact List.mem_map.2 ⟨hit, List.mem_filter.2 ⟨hhit, hserves⟩, rfl⟩
  · simp [landedText?, hedit]

/-- If all hits serve renames and ask for no spelling, each of them takes the edit as it is. -/
theorem landedEdits_template (h : HasTemplate builds held d) {place : Span} {data : CodeData}
    {spans : List Span} (hhits : d.map.toSources place = spans.map (⟨·, data⟩))
    (hserves : data.capabilities.has .renameOut = true) (hedit : data.onEdit = none) (newText : String) :
    landedEdits builds ⟨d.document.uri, place⟩ newText =
      spans.map fun s => ⟨⟨held.build.uri, s⟩, newText⟩ := by
  rw [landedEdits, mapBack_template h, hhits]
  clear hhits
  induction spans with
  | nil => rfl
  | cons s spans ih => simpa [hserves, landedText?, hedit] using ih

/-- **The text of an edit** is the new name, or the new name hyphenated. -/
theorem newText_of_landed {place : Place} {newText : String} {e : PlacedEdit}
    (h : e ∈ landedEdits builds place newText) :
    e.newText = newText ∨ e.newText = Naming.hyphenate newText := by
  obtain ⟨p, -, hp⟩ := List.mem_filterMap.1 h
  obtain ⟨text, htext, rfl⟩ := Option.map_eq_some_iff.1 hp
  unfold landedText? at htext
  split at htext
  next =>
    cases htext
    exact .inl rfl
  next t _ =>
    obtain ⟨b, -, rfl⟩ := Option.map_eq_some_iff.1 htext
    cases t
    simp only [EditTransform.apply]
    split
    · exact .inr rfl
    · exact .inl rfl

end ComponentLens.Service
