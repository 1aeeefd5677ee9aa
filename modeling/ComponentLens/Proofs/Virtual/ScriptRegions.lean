/-
# The script document leads into its blocks

Every mapping of the script document names the region that it leads to: the setup block, the script block, or
the value of the `src` attribute.  A request that starts at a place relies on that name, so the place has to
lie in that region.

Code of the setup block leads to spans of the facts about the block, or to what lies between two of them
(`inRegion_closed`).  The script block is copied as a whole, and its copy is as long as the block, blanked or
not.  Nothing is said of the order of the two ends of a span: an inverted one has its ends in the block all
the same.
-/
import ComponentLens.Proofs.Mapping.Leads
import ComponentLens.Proofs.Virtual.ScriptCopies

namespace ComponentLens.Virtual

open Script

/-! ## 1. The setup block -/

/-- A span that cuts no character of the content lies in it. -/
theorem within_of_isBoundary {content : String} {s : Span} (h : s.EndsAt (IsBoundary content.toList)) :
    s.EndsAt (· ≤ content.utf8ByteSize) := by
  refine h.mono ?_
  intro n hn
  rw [← byteLength_toList]
  exact hn.le_byteLength

/-- Code of the setup block leads to places of its content. -/
theorem inRegion_closed (content body : String) :
    SetupClosed content body (LinkedText.Leads (InRegion .scriptSetup content.utf8ByteSize)) where
  toClosed := LinkedText.leads_closed
  side := fun _ _ _ _ hdata _ hs =>
    LinkedText.leads_mapped.2 (inRegion_singleton.2 ⟨hdata, within_of_isBoundary hs⟩)
  copy := fun _ _ hs => LinkedText.leads_mapped.2 (inRegion_singleton.2 ⟨rfl, within_of_isBoundary hs⟩)
  bodyCopy := fun _ _ hs => LinkedText.leads_mapped.2 (inRegion_singleton.2 ⟨rfl, within_of_isBoundary hs⟩)

/-! ## 2. The script block -/

/-- The copy of the script block is as long as the block. -/
theorem scriptCopy_inRegion (block : Block) (facts : ScriptFacts) (hasSetup : Bool) :
    (scriptCopy block facts hasSetup).Leads (InRegion .script block.content.utf8ByteSize) := by
  have hblank : ∀ s, (blankSpan block.content s).utf8ByteSize = block.content.utf8ByteSize := by
    intro s
    have hagree := (blankedTo_blankSpan block.content s).agree.1
    rwa [byteLength_toList, byteLength_toList, eq_comm] at hagree
  unfold scriptCopy
  dsimp only
  refine LinkedText.leads_mapped.2 (inRegion_singleton.2 ⟨rfl, Nat.zero_le _, ?_⟩)
  split
  next e _ => exact Nat.le_of_eq (hblank e.span)
  next => exact Nat.le_refl _

theorem scriptOptions_inRegion (block : Block) {facts : ScriptFacts}
    (h : ∀ s ∈ facts.spans, s.EndsAt (IsBoundary block.content.toList)) :
    (scriptOptions block facts).Leads (InRegion .script block.content.utf8ByteSize) := by
  unfold scriptOptions
  split
  next s hs =>
    obtain ⟨e, he, hs⟩ := Option.bind_eq_some_iff.1 hs
    have hmem : s ∈ facts.spans := by simp [ScriptFacts.spans, he, hs]
    exact LinkedText.leads_mapped.2 (inRegion_singleton.2 ⟨rfl, within_of_isBoundary (h s hmem)⟩)
  next => exact LinkedText.leads_plain _

/-- The file that the script block takes its content from is named in the opening tag.  Places of a tag count
from the start of the file already. -/
theorem sourceExport_inRegions {regions : List (Region × Span)} (block : Block)
    (h : ∀ s, block.sourceSpan? = some s → (Region.scriptSource, s) ∈ regions)
    (hordered : ∀ s, block.sourceSpan? = some s → s.start ≤ s.stop) :
    (sourceExport block).Leads (InRegions regions) := by
  unfold sourceExport
  split
  next src quoted _ hquoted =>
    have hle := hordered quoted hquoted
    have hmapped : InRegions regions { region := .scriptSource, capabilities := .script } [quoted] := by
      refine ⟨_, h quoted hquoted, rfl, ?_⟩
      simpa [Span.EndsAt, Span.touches] using hle
    refine LinkedText.leads_closed.concat _ ?_
    simpa using hmapped
  next => exact LinkedText.leads_closed.toJoined.empty

/-! ## 3. The document -/

/-- A piece with the places of its block, moved to the file. -/
theorem leads_inBlock {regions : List (Region × Span)} {region : Region} {file : List Char}
    {block : Block} {t : LinkedText} (hblock : block.span.Reads file block.content.toList)
    (hregion : (region, block.span) ∈ regions)
    (ht : t.Leads (InRegion region block.content.utf8ByteSize)) :
    (LinkedText.inBlock t block).Leads (InRegions regions) := by
  rw [← byteLength_toList] at ht
  exact MappedText.Leads.shiftSource ht fun _ _ h => h.shift hblock hregion

/-- The regions that the script document needs. -/
structure ScriptInput.HasRegions (input : ScriptInput) (regions : List (Region × Span)) : Prop where
  script : ∀ block facts, input.script = some (block, facts) → (.script, block.span) ∈ regions
  source : ∀ block facts, input.script = some (block, facts) → ∀ s, block.sourceSpan? = some s →
    (.scriptSource, s) ∈ regions ∧ s.start ≤ s.stop
  setup : ∀ block facts, input.setup = some (block, facts) → (.scriptSetup, block.span) ∈ regions

/-- **The script document leads into the regions of its blocks.** -/
theorem scriptProgram_leads {input : ScriptInput} {file : List Char} {regions : List (Region × Span)}
    (hinput : input.FromFile file) (hregions : input.HasRegions regions) :
    (scriptProgram input).Leads (InRegions regions) := by
  refine scriptProgram_joined LinkedText.leads_closed.toJoined ?_ ?_
  · intro block facts hscript
    obtain ⟨hblock, hfacts⟩ := hinput.script block facts hscript
    have hregion := hregions.script block facts hscript
    have hsource := hregions.source block facts hscript
    have hcopy := scriptCopy_inRegion block facts input.setup.isSome
    have hoptions := scriptOptions_inRegion block (analyzeScript_endsAt hfacts)
    refine ⟨?_, leads_inBlock hblock hregion hcopy, leads_inBlock hblock hregion hoptions⟩
    exact sourceExport_inRegions block (fun s hs => (hsource s hs).1) fun s hs => (hsource s hs).2
  · intro block facts hsetup
    obtain ⟨hblock, hfacts⟩ := hinput.setup block facts hsetup
    have hregion := hregions.setup block facts hsetup
    have hprogram := (inRegion_closed _ _).setupProgram (isBoundary_withoutImports _ _)
      (analyzeSetup_endsAt hfacts)
    have hoptions := SetupJoined.setupOptions (inRegion_closed _ block.content).toPiecesJoined
      (analyzeSetup_endsAt hfacts)
    exact ⟨leads_inBlock hblock hregion hprogram, leads_inBlock hblock hregion hoptions⟩

end ComponentLens.Virtual
