/-
# Where generated text comes from

Requests travel through the mappings of a build: semantic tokens through those of the template document,
renames through those of the script document.  They arrive at the right place only when both ends of a
mapping hold the same text.

`build_provenance` says this of every build of every file.  It joins what the readers say about places (blocks
stand where the split says, expressions where the tree says, and facts cut no character) with what the two
generators keep (`templateProgram_shows`, `scriptProgram_shows`).
-/
import ComponentLens.Proofs.Component.Blocks
import ComponentLens.Proofs.Virtual.ScriptCopies
import ComponentLens.Proofs.Virtual.TemplateCopies
import ComponentLens.Virtual.Build

namespace ComponentLens.Virtual

/-! ## 1. What is blanked -/

/-- The offset of the file lies in an import statement of the setup block. -/
def InSetupImport (text : String) (n : Nat) : Prop :=
  ∃ block ∈ (Component.split text).scriptSetup, ∃ facts, Script.analyzeSetup block.content = .ok facts ∧
    ∃ s ∈ facts.imports, InSpan (s.shift block.span.start) n

/-- The offset of the file lies in the default export of the script block, and there is a setup block for
which it is blanked. -/
def InBlankedExport (text : String) (n : Nat) : Prop :=
  (∃ block ∈ (Component.split text).scriptSetup, ∃ facts,
    Script.analyzeSetup block.content = .ok facts) ∧
  ∃ block ∈ (Component.split text).script, ∃ facts, Script.analyzeScript block.content = .ok facts ∧
    ∃ e ∈ facts.exportDefault, InSpan (e.span.shift block.span.start) n

/-! ## 2. What a build is made from -/

/-- A block that is read is the block given, with its facts. -/
theorem analyzed_eq_some {α : Type} {region : Region} {analyze : String → Except Fault α}
    {block : Option Block} {b : Block} {facts : α}
    (h : (analyzed region analyze block).1 = some (b, facts)) :
    block = some b ∧ analyze b.content = .ok facts := by
  unfold analyzed at h
  split at h
  · simp at h
  next b' =>
    split at h
    next hok =>
      cases h
      exact ⟨rfl, hok⟩
    · simp at h

/-- The logic blocks of a build. -/
def logicBlocks (text : String) : ScriptInput where
  script := (analyzed .script Script.analyzeScript (Component.split text).script).1
  setup := (analyzed .scriptSetup Script.analyzeSetup (Component.split text).scriptSetup).1

theorem logicBlocks_fromFile (text : String) : (logicBlocks text).FromFile text.toList where
  script block facts h := by
    obtain ⟨hblock, hfacts⟩ := analyzed_eq_some h
    exact ⟨Component.split_reads text block (Component.mem_blocks.2 (.inr (.inl hblock))), hfacts⟩
  setup block facts h := by
    obtain ⟨hblock, hfacts⟩ := analyzed_eq_some h
    exact ⟨Component.split_reads text block (Component.mem_blocks.2 (.inr (.inr (.inl hblock)))), hfacts⟩

theorem inSetupImport_of_input {text : String} {n : Nat} (h : (logicBlocks text).InImport n) :
    InSetupImport text n := by
  obtain ⟨block, facts, hsetup, s, hs, hn⟩ := h
  obtain ⟨hblock, hfacts⟩ := analyzed_eq_some hsetup
  exact ⟨block, hblock, facts, hfacts, s, hs, hn⟩

theorem inBlankedExport_of_input {text : String} {n : Nat} (h : (logicBlocks text).InDefaultExport n) :
    InBlankedExport text n := by
  obtain ⟨hsome, block, facts, hscript, e, he, hn⟩ := h
  obtain ⟨hblock, hfacts⟩ := analyzed_eq_some hscript
  obtain ⟨⟨setupBlock, setupFacts⟩, hsetup⟩ := Option.isSome_iff_exists.1 hsome
  obtain ⟨hsetupBlock, hsetupFacts⟩ := analyzed_eq_some hsetup
  exact ⟨⟨setupBlock, hsetupBlock, setupFacts, hsetupFacts⟩, block, hblock, facts, hfacts, e, he, hn⟩

/-! ## 3. Provenance -/

variable (uri : Uri) (text : String) (options : BuildOptions)

/-- The template document of a build is made from the template block and the style blocks. -/
theorem build_template {d : CodeDocument} (h : (build uri text options).template = some d) :
    ∃ input : TemplateInput, d = templateDocument uri input ∧
      (Component.split text).template = some input.block ∧
      input.nodes = (Markup.parse input.block.content).nodes ∧
      input.styles = (Component.split text).styles.zipIdx.map fun (block, index) =>
        StyleDocument.ofBlock uri index block := by
  obtain ⟨input, hinput, rfl⟩ := Option.map_eq_some_iff.1 h
  obtain ⟨⟨block, tree⟩, htree, rfl⟩ := Option.map_eq_some_iff.1 hinput
  obtain ⟨block', hblock, heq⟩ := Option.map_eq_some_iff.1 htree
  cases heq
  exact ⟨_, rfl, (Option.filter_eq_some_iff.1 hblock).1, rfl, rfl⟩

/-- Its text and its map are those of the program, whose parts stand in the template block. -/
theorem build_template_program {d : CodeDocument} (h : (build uri text options).template = some d) :
    ∃ input : TemplateInput, d.document.text = (templateProgram uri input).body.text ∧
      d.map = ⟨(templateProgram uri input).body.mappings⟩ ∧
      (Component.split text).template = some input.block ∧
      input.nodes = (Markup.parse input.block.content).nodes ∧
      input.styles = (build uri text options).styles := by
  obtain ⟨input, hd, hblock, hnodes, hstyles⟩ := build_template uri text options h
  refine ⟨input, ?_, ?_, hblock, hnodes, hstyles⟩
  · rw [hd, templateDocument, CodeDocument.ofText]
  · rw [hd, templateDocument, CodeDocument.ofText]

/-- The script document of a build is made from the logic blocks. -/
theorem build_script_eq {d : CodeDocument} (h : (build uri text options).script = some d) :
    d = .ofText (uri.append (".__VLS_script." ++ (logicBlocks text).lang)) (codeLanguage (logicBlocks text).lang)
      (scriptProgram (logicBlocks text)) := by
  have h : scriptDocument? uri (logicBlocks text) = some d := h
  unfold scriptDocument? at h
  split at h
  · simp at h
  · exact (Option.some.inj h).symm

theorem build_script {d : CodeDocument} (h : (build uri text options).script = some d) :
    d.document.text = (scriptProgram (logicBlocks text)).body.text ∧
      d.map.mappings = (scriptProgram (logicBlocks text)).body.mappings := by
  rw [build_script_eq uri text options h]
  exact ⟨rfl, rfl⟩

/-- **Provenance of generated text.**  In the template document, every offset mapping that serves the
semantic tokens of the template leads from a text of the file to the same text.  In the script document,
every mapping that serves the renames of a logic block leads from a text of the file to one of the same
length, and the two agree on every byte except where a statement is blanked: an import of the setup block, or
the default export of the script block.  A source is either cut out of the file or inverted, and an inverted
one reads nothing. -/
theorem build_provenance :
    (∀ d ∈ (build uri text options).template, ∀ m ∈ d.map.mappings, m.mode = .offset →
      m.data.region = .template → m.data.capabilities.has .semanticTokens = true →
      ∃ inside, m.source.cut? text.toList = some inside ∧
        m.target.cut? d.document.text.toList = some inside) ∧
    (∀ d ∈ (build uri text options).script, ∀ m ∈ d.map.mappings, m.data.region.isScript = true →
      m.data.capabilities.has .rename = true →
      ∃ shown, m.target.cut? d.document.text.toList = some shown ∧
        AgreeOutside (fun n => InSetupImport text n ∨ InBlankedExport text n) m.source.start
          (m.source.slice text).toList shown ∧
        ((m.source.cut? text.toList).isSome = true ∨ m.source.stop < m.source.start)) := by
  constructor
  · intro d hd m hm hmode hregion hserves
    obtain ⟨input, rfl, htemplate, hnodes, -⟩ := build_template uri text options hd
    have hblock := Component.split_reads text input.block (Component.mem_blocks.2 (.inl htemplate))
    have hplaced := Markup.parse_placed input.block.content
    rw [← hnodes] at hplaced
    simp only [templateDocument, CodeDocument.ofText] at hm ⊢
    obtain ⟨inside, htarget, hsource⟩ :=
      templateProgram_shows uri input hblock hplaced m hm ⟨hmode, hregion, hserves⟩
    exact ⟨inside, hsource.cut?, htarget.cut?⟩
  · intro d hd m hm hregion hserves
    obtain ⟨htext, hmappings⟩ := build_script uri text options hd
    rw [hmappings] at hm
    rw [htext]
    obtain ⟨shown, htarget, hsource⟩ :=
      scriptProgram_shows (logicBlocks_fromFile text) m hm ⟨hregion, hserves⟩
    refine ⟨shown, htarget.cut?, ?_⟩
    rcases hsource with ⟨hinverted, rfl⟩ | ⟨written, hreads, hagree⟩
    · refine ⟨?_, .inr hinverted⟩
      have hslice : m.source.slice text = "" := by
        simp [Span.slice, Span.cut?, Nat.not_le.2 hinverted]
      rw [hslice]
      exact .refl []
    · refine ⟨?_, .inl (by simp [hreads.cut?])⟩
      rw [hreads.slice, String.toList_ofList]
      exact hagree.mono fun n => Or.imp inSetupImport_of_input inBlankedExport_of_input

end ComponentLens.Virtual
