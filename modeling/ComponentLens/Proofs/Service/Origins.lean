/-
# Where requests come from

A request at an offset of a component file starts at every place of the generated code that a mapping leads to
from there.  Links are followed as far as the region of the start allows, and the walks from all starts share
what they have seen; so the starts of one request had better agree on that region.

They do, whatever the file holds (`build_regions`).  A mapping names the region that all its sources lie in
(`build_leads`), and the regions of a file lie apart, even if their ends count.  So an offset that a mapping
carries over lies in the region that the mapping names, and in no other.
-/
import ComponentLens.Proofs.Virtual.Provenance
import ComponentLens.Proofs.Virtual.ScriptRegions
import ComponentLens.Proofs.Virtual.TemplateRegions
import ComponentLens.Service.Walk

namespace ComponentLens

/-! ## 1. The regions of a build -/

namespace Virtual

theorem logicBlocks_hasRegions (text : String) :
    (logicBlocks text).HasRegions (Component.split text).regions where
  script block facts h := Component.mem_regions.2 ⟨block, (analyzed_eq_some h).1, rfl⟩
  source block facts h s hs := by
    have hblock := (analyzed_eq_some h).1
    have hbehind := (Component.split_apart text).2 block (Component.mem_blocks.2 (.inr (.inl hblock)))
    exact ⟨Component.mem_regions.2 ⟨block, hblock, hs⟩, (hbehind.values s (Block.sourceSpan?_mem hs)).2.1⟩
  setup block facts h := Component.mem_regions.2 ⟨block, (analyzed_eq_some h).1, rfl⟩

/-- The sources of a mapping lie in a region of the kind that the mapping names. -/
theorem build_leads (uri : Uri) (text : String) (options : BuildOptions) :
    ∀ d ∈ (build uri text options).codeDocuments, ∀ m ∈ d.map.mappings,
      InRegions (Component.split text).regions m.data m.sources := by
  intro d hd m hm
  rcases List.mem_append.1 hd with hd | hd
  · obtain ⟨-, hmappings⟩ := build_script uri text options (Option.mem_toList.1 hd)
    rw [hmappings] at hm
    exact scriptProgram_leads (logicBlocks_fromFile text) (logicBlocks_hasRegions text) m hm
  · obtain ⟨input, rfl, htemplate, hnodes, hstyles⟩ := build_template uri text options (Option.mem_toList.1 hd)
    have hreads := Component.split_reads text
    have hblock := hreads input.block (Component.mem_blocks.2 (.inl htemplate))
    have hregion : (Region.template, input.block.span) ∈ (Component.split text).regions :=
      Component.mem_regions.2 ⟨input.block, htemplate, rfl⟩
    have hplaced := Markup.parse_placed input.block.content
    rw [← hnodes] at hplaced
    have hselectors : SelectorsIn (Component.split text).regions input.styles := by
      rw [hstyles]
      refine selectorsIn_ofBlock (fun block hmem => hreads block ?_) (fun block hmem => ?_) uri
      · exact Component.mem_blocks.2 (.inr (.inr (.inr (.inl hmem))))
      · exact Component.mem_regions.2 ⟨block, hmem, rfl⟩
    exact templateProgram_leads uri hblock hregion hplaced hselectors m hm

end Virtual

/-! ## 2. Offsets that are carried over -/

/-- A pair carries an offset over only from between the ends of its source. -/
theorem SpanPair.touches_of_carry {pair : SpanPair} {offset : Nat} {range : Span}
    (h : pair.carry .toTarget (Span.empty offset) = some range) : pair.source.touches offset = true := by
  have hcontains : pair.source.contains (Span.empty offset) = pair.source.touches offset := rfl
  unfold SpanPair.carry MatchMode.carry at h
  dsimp only at h
  split at h
  · split at h
    next heq =>
      rw [← heq]
      simp [Span.touches, Span.empty]
    next => cases h
  · split at h
    next hinside => exact hcontains ▸ hinside
    next => cases h
  · split at h
    next hinside => exact hcontains ▸ hinside
    next => cases h

theorem Mapping.touches_of_carry {α : Type} {m : Mapping α} {offset : Nat} {range : Span}
    (h : m.carry .toTarget (Span.empty offset) = some range) : ∃ s ∈ m.sources, s.touches offset = true := by
  obtain ⟨pair, hpair, hcarry⟩ := List.exists_of_findSome?_eq_some h
  exact ⟨pair.source, List.mem_map_of_mem hpair, SpanPair.touches_of_carry hcarry⟩

/-- A place between two places of a region lies in the region. -/
theorem Span.EndsAt.touches {r s : Span} (h : s.EndsAt (r.touches · = true)) {offset : Nat}
    (hs : s.touches offset = true) : r.touches offset = true := by
  obtain ⟨hstart, hstop⟩ := h
  simp only [Span.touches, Bool.and_eq_true, decide_eq_true_eq] at hstart hstop hs ⊢
  omega

namespace Service

open Virtual

/-- A start comes from the region that its offset lies in. -/
theorem start_region {uri : Uri} {text : String} {options : BuildOptions} {offset : Nat}
    {wanted : Capabilities} {name : String} {start : Start}
    (h : start ∈ starts (build uri text options) offset wanted name) :
    ∃ r ∈ (Component.split text).regions, r.1 = start.origin ∧ r.2.touches offset = true := by
  obtain ⟨d, hd, h⟩ := List.mem_flatMap.1 h
  obtain ⟨hit, hhit, rfl⟩ := List.mem_map.1 h
  obtain ⟨m, hm, hhit⟩ := List.mem_filterMap.1 (List.mem_filter.1 hhit).1
  obtain ⟨range, hcarry, rfl⟩ := Option.map_eq_some_iff.1 hhit
  obtain ⟨r, hr, hregion, hsources⟩ := build_leads uri text options d hd m hm
  obtain ⟨s, hs, htouches⟩ := Mapping.touches_of_carry hcarry
  exact ⟨r, hr, hregion, (hsources s hs).touches htouches⟩

/-- **Regions and origins.**  Every mapping of a code document leads to one of the regions of the file: the one
region, among those of the kind that its data names, that holds both ends of all its sources.  The regions lie
apart, even if their ends count.  So all starts of a request, whatever it asks for, come from one region. -/
theorem build_regions (uri : Uri) (text : String) (options : BuildOptions) :
    (∀ d ∈ (build uri text options).codeDocuments, ∀ m ∈ d.map.mappings,
      ∃ r ∈ (Component.split text).regions, r.1 = m.data.region ∧
        ∀ pair ∈ m.pairs, r.2.touches pair.source.start = true ∧ r.2.touches pair.source.stop = true) ∧
    (Component.split text).regions.Pairwise (fun r s => r.2.ApartFrom s.2) ∧
    ∀ offset wanted name, ∀ start ∈ starts (build uri text options) offset wanted name,
      ∀ other ∈ starts (build uri text options) offset wanted name, start.origin = other.origin := by
  refine ⟨?_, Component.regions_pairwise text, ?_⟩
  · intro d hd m hm
    obtain ⟨r, hr, hregion, hsources⟩ := build_leads uri text options d hd m hm
    refine ⟨r, hr, hregion, ?_⟩
    intro pair hpair
    exact hsources pair.source (List.mem_map_of_mem hpair)
  · intro offset wanted name start hstart other hother
    obtain ⟨r, hr, horigin, hoffset⟩ := start_region hstart
    obtain ⟨s, hs, horigin', hoffset'⟩ := start_region hother
    have hsame : r = s := Component.region_unique hr hs hoffset hoffset'
    rw [← horigin, ← horigin', hsame]

end Service

end ComponentLens
