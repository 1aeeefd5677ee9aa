/-
# The template document leads into the template and the stylesheets

The body of the template document leads to places of the template: all its pieces do (`inTemplate_closed`),
and the places of its pieces are those of parts of the tree.  In front of the body stand the classes, and
each of them leads to its selectors, which stand in a stylesheet.  Nothing else in the document is mapped.
-/
import ComponentLens.Proofs.Mapping.Leads
import ComponentLens.Proofs.Style.Places
import ComponentLens.Proofs.Virtual.TemplatePieces
import ComponentLens.Virtual.BlockDocument

namespace ComponentLens.Virtual

open Markup

/-! ## 1. The body -/

theorem inRegion_of_bounds {content : List Char} {data : CodeData} {s : Span}
    (hdata : data.region = .template) (hs : Bounds content s) :
    InRegion .template (byteLength content) data [s] :=
  inRegion_singleton.2 ⟨hdata, hs.mono fun _ hn => hn.le_byteLength⟩

/-- The code of a template leads to places of the template. -/
theorem inTemplate_closed (content : List Char) :
    BodyClosed content (MappedText.Leads (InRegion .template (byteLength content))) where
  toClosed := MappedText.leads_closed
  expression := fun _ _ h =>
    MappedText.leads_mapped.2 (inRegion_of_bounds rfl ⟨h.isBoundary_start, h.isBoundary_stop⟩)
  bare := fun _ _ hs => MappedText.leads_mapped.2 (inRegion_of_bounds rfl hs)
  gate := fun _ _ _ hdata hs => MappedText.leads_mapped.2 (inRegion_of_bounds hdata hs)
  ahead := fun _ _ _ hdata hs => MappedText.leads_ahead.2 (inRegion_of_bounds hdata hs)
  covering := fun _ _ _ hcode hdata hs =>
    MappedText.leads_covering.2 ⟨hcode, inRegion_of_bounds hdata hs⟩

/-! ## 2. Classes -/

/-- The selectors of the stylesheets stand in style regions. -/
def SelectorsIn (regions : List (Region × Span)) (styles : List StyleDocument) : Prop :=
  ∀ style ∈ styles, ∀ c ∈ style.classNames, ∃ place, (Region.style, place) ∈ regions ∧
    c.span.EndsAt (place.touches · = true)

/-- The stylesheets of a component are its style blocks, and a selector stands in its block. -/
theorem selectorsIn_ofBlock {regions : List (Region × Span)} {file : List Char} {blocks : List Block}
    (hblocks : ∀ block ∈ blocks, block.span.Reads file block.content.toList)
    (hregions : ∀ block ∈ blocks, (Region.style, block.span) ∈ regions) (base : Uri) :
    SelectorsIn regions (blocks.zipIdx.map fun (block, index) => StyleDocument.ofBlock base index block) := by
  intro style hstyle c hc
  obtain ⟨⟨block, index⟩, hmem, rfl⟩ := List.mem_map.1 hstyle
  have hblock := List.fst_mem_of_mem_zipIdx hmem
  obtain ⟨c', hc', rfl⟩ := List.mem_map.1 hc
  have hwithin := Style.classNames_within block.content c' hc'
  rw [← byteLength_toList] at hwithin
  exact ⟨block.span, hregions block hblock, (hblocks block hblock).endsAt_shift hwithin⟩

/-- A class leads to its selectors, each by mappings of its own. -/
theorem classDeclaration_leads {allows : CodeData → List Span → Prop} {name : String}
    {selectors : List Span} (h : ∀ s ∈ selectors, ∀ data : CodeData, data.region = .style → allows data [s]) :
    (classDeclaration name selectors).Leads allows := by
  intro m hm
  obtain ⟨selector, hselector, hm⟩ := List.mem_flatMap.1 hm
  simp only [List.mem_cons, List.not_mem_nil, or_false] at hm
  rcases hm with rfl | rfl
  · exact h selector hselector _ rfl
  · exact h selector hselector _ rfl

theorem mem_groupClasses {classes : List Style.ClassName} {name : String} {selectors : List Span}
    (h : (name, selectors) ∈ groupClasses classes) {s : Span} (hs : s ∈ selectors) :
    ∃ c ∈ classes, c.span = s := by
  obtain ⟨name', -, heq⟩ := List.mem_map.1 h
  cases heq
  obtain ⟨c, hc, rfl⟩ := List.mem_map.1 hs
  exact ⟨c, (List.mem_filter.1 hc).1, rfl⟩

theorem classObject_leads {regions : List (Region × Span)} {styles : List StyleDocument}
    (h : SelectorsIn regions styles) (title name : String) :
    (classObject title name styles).Leads (InRegions regions) := by
  refine MappedText.leads_concat.2 ?_
  intro code hcode
  simp only [List.mem_append, List.mem_cons, List.mem_map, List.not_mem_nil, or_false] at hcode
  rcases hcode with (rfl | ⟨⟨class_, selectors⟩, hclass, rfl⟩) | rfl
  · exact MappedText.leads_plain _
  · refine classDeclaration_leads ?_
    intro s hs data hdata
    obtain ⟨c, hc, rfl⟩ := mem_groupClasses hclass hs
    obtain ⟨style, hstyle, hc⟩ := List.mem_flatMap.1 hc
    obtain ⟨place, hplace, hends⟩ := h style hstyle c hc
    exact ⟨_, hplace, hdata.symm, by simpa using hends⟩
  · exact MappedText.leads_plain _

/-! ## 3. The document -/

/-- **The template document leads into the template and the stylesheets.** -/
theorem templateProgram_leads (base : Uri) {input : TemplateInput} {file : List Char}
    {regions : List (Region × Span)} (hblock : input.block.span.Reads file input.block.content.toList)
    (hregion : (.template, input.block.span) ∈ regions)
    (hnodes : AllParts (Placed input.block.content.toList) (nodeParts input.nodes))
    (hstyles : SelectorsIn regions input.styles) :
    (templateProgram base input).Leads (InRegions regions) := by
  refine templateProgram_closed LinkedText.leads_closed base ?_ ?_
  · intro title name p
    refine classObject_leads ?_ title name
    intro style hstyle
    exact hstyles style (List.mem_filter.1 hstyle).1
  · have hbody := (inTemplate_closed _).templateBody input.scope hnodes
    exact MappedText.Leads.shiftSource hbody fun _ _ h => h.shift hblock hregion

end ComponentLens.Virtual
