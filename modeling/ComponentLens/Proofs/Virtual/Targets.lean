/-
# Where mappings arrive

A look-up from the file arrives at the target of a mapping.  Every mapping of a code document has one pair of
spans only, and the ends of its target are in order (`build_upright`).  If the mapping keeps distances, its target
also lies in the document.

A coarse mapping may be laid over text that is still to come, and then its target reaches past the piece that
carries it.  Such a mapping is matched as a whole, so nothing is said of it.
-/
import ComponentLens.Proofs.Mapping.Pieces
import ComponentLens.Proofs.Virtual.Provenance

namespace ComponentLens

namespace MappedText

variable {α : Type}

/-- Each mapping has one pair with its target in order.  A target that is reached by distances lies in the
text. -/
def Upright (t : MappedText α) : Prop :=
  ∀ m ∈ t.mappings, m.alternates = [] ∧ m.target.start ≤ m.target.stop ∧
    (m.mode = .offset → m.target.stop ≤ t.size)

/-! ## 1. Pieces -/

@[simp] theorem upright_mapped {code : String} {source : Span} {mode : MatchMode} {data : α} :
    (mapped code source mode data).Upright := by
  simp [Upright, mapped, size]

@[simp] theorem upright_ahead {code : String} {source : Span} {data : α} :
    (ahead code source .gate data).Upright := by
  simp [Upright, ahead]

theorem Upright.covering {t : MappedText α} (h : t.Upright) {source : Span} {mode : MatchMode} {data : α} :
    (t.covering source mode data).Upright := by
  intro m hm
  rcases List.mem_append.1 hm with hm | hm
  · exact h m hm
  · obtain rfl := List.mem_singleton.1 hm
    exact ⟨rfl, Nat.zero_le _, fun _ => Nat.le_refl _⟩

/-- Joined pieces keep their mappings in their places. -/
theorem upright_closed : Closed (Upright : MappedText α → Prop) := by
  refine closed_of_moves (P := fun n m => m.alternates = [] ∧ m.target.start ≤ m.target.stop ∧
    (m.mode = .offset → m.target.stop ≤ n)) ?_
  intro n stop base m h hle
  obtain ⟨halternates, hordered, hstop⟩ := h
  refine ⟨by simp [Mapping.shiftTarget, halternates], by simpa [Mapping.shiftTarget, Span.shift], ?_⟩
  intro hmode
  have hin := hstop hmode
  simp only [Mapping.shiftTarget, Span.shift]
  omega

theorem Upright.shiftSource {t : MappedText α} (h : t.Upright) (base : Nat) : (t.shiftSource base).Upright := by
  intro m hm
  obtain ⟨m', hm', rfl⟩ := List.mem_map.1 hm
  obtain ⟨halternates, hordered, hstop⟩ := h m' hm'
  exact ⟨by simp [Mapping.shiftSource, halternates], hordered, hstop⟩

end MappedText

namespace Virtual

/-! ## 2. The template document -/

/-- The pieces of a template body, whatever places they stand for. -/
theorem upright_body (source : List Char) : BodyClosed source MappedText.Upright where
  toClosed := MappedText.upright_closed
  expression := fun _ _ _ => MappedText.upright_mapped
  bare := fun _ _ _ => MappedText.upright_mapped
  gate := fun _ _ _ _ _ => MappedText.upright_mapped
  ahead := fun _ _ _ _ _ => MappedText.upright_ahead
  covering := fun _ _ _ hcode _ _ => hcode.covering

/-- The declaration of a class holds its name and its quotes. -/
theorem classDeclaration_size (name : String) (selectors : List Span) :
    (classDeclaration name selectors).size = name.utf8ByteSize + 12 := by
  have hquote : "'".utf8ByteSize = 1 := rfl
  have hend : "': string,\n".utf8ByteSize = 11 := rfl
  simp only [classDeclaration, MappedText.size, String.utf8ByteSize_append]
  omega

theorem classDeclaration_targets (name : String) (selectors : List Span) :
    ∀ m ∈ (classDeclaration name selectors).mappings, m.alternates = [] ∧
      m.target.start ≤ m.target.stop ∧ m.target.stop ≤ (classDeclaration name selectors).size := by
  intro m hm
  rw [classDeclaration_size]
  obtain ⟨selector, -, hm⟩ := List.mem_flatMap.1 hm
  simp only [List.mem_cons, List.not_mem_nil, or_false] at hm
  rcases hm with rfl | rfl
  · exact ⟨rfl, by simp, by simp only; omega⟩
  · exact ⟨rfl, by simp, by simp⟩

theorem upright_classDeclaration (name : String) (selectors : List Span) :
    (classDeclaration name selectors).Upright := by
  intro m hm
  obtain ⟨halternates, hordered, hstop⟩ := classDeclaration_targets name selectors m hm
  exact ⟨halternates, hordered, fun _ => hstop⟩

theorem upright_classObject (title name : String) (styles : List StyleDocument) :
    (classObject title name styles).Upright := by
  refine MappedText.upright_closed.concat _ ?_
  intro code hcode
  simp only [List.mem_append, List.mem_cons, List.mem_map, List.not_mem_nil, or_false] at hcode
  rcases hcode with (rfl | ⟨⟨class_, selectors⟩, -, rfl⟩) | rfl
  · exact MappedText.upright_closed.plain _
  · exact upright_classDeclaration class_ selectors
  · exact MappedText.upright_closed.plain _

theorem upright_templateProgram (base : Uri) {input : TemplateInput}
    (hnodes : Markup.AllParts (Markup.Placed input.block.content.toList) (Markup.nodeParts input.nodes)) :
    (templateProgram base input).body.Upright := by
  refine templateProgram_closed MappedText.upright_closed.linked base ?_ ?_
  · intro title name p
    exact upright_classObject title name _
  · have hbody := (upright_body _).templateBody input.scope hnodes
    exact hbody.shiftSource _

/-! ## 3. The script document -/

/-- The pieces of a setup block, whatever places they stand for. -/
theorem upright_setup (content body : String) :
    SetupClosed content body fun t => t.body.Upright where
  toClosed := MappedText.upright_closed.linked
  side := fun _ _ _ _ _ _ _ => MappedText.upright_mapped
  copy := fun _ _ _ => MappedText.upright_mapped
  bodyCopy := fun _ _ _ => MappedText.upright_mapped

theorem upright_sourceExport (block : Block) : (sourceExport block).body.Upright := by
  have hlinked := (MappedText.upright_closed (α := CodeData)).linked
  unfold sourceExport
  split
  next src quoted _ _ =>
    refine hlinked.concat _ ?_
    intro t ht
    simp only [List.mem_cons, List.not_mem_nil, or_false] at ht
    rcases ht with rfl | rfl | rfl | rfl | rfl
    · exact hlinked.plain _
    · exact MappedText.upright_mapped
    · exact hlinked.plain _
    · exact hlinked.plain _
    · exact hlinked.plain _
  next => exact hlinked.toJoined.empty

theorem upright_scriptOptions (block : Block) (facts : Script.ScriptFacts) :
    (scriptOptions block facts).body.Upright := by
  unfold scriptOptions
  split
  · exact MappedText.upright_mapped
  · exact MappedText.upright_closed.plain _

theorem upright_scriptProgram {input : ScriptInput} {file : List Char} (hinput : input.FromFile file) :
    (scriptProgram input).body.Upright := by
  refine scriptProgram_joined (Q := fun t => t.body.Upright) MappedText.upright_closed.linked.toJoined ?_ ?_
  · intro block facts hscript
    refine ⟨upright_sourceExport block, ?_, (upright_scriptOptions block facts).shiftSource _⟩
    exact MappedText.Upright.shiftSource MappedText.upright_mapped _
  · intro block facts hsetup
    obtain ⟨-, hfacts⟩ := hinput.setup block facts hsetup
    have hprogram := (upright_setup _ _).setupProgram (isBoundary_withoutImports _ _)
      (Script.analyzeSetup_endsAt hfacts)
    have hoptions := SetupJoined.setupOptions (upright_setup _ block.content).toPiecesJoined
      (Script.analyzeSetup_endsAt hfacts)
    exact ⟨hprogram.shiftSource _, hoptions.shiftSource _⟩

/-! ## 4. Builds -/

/-- **Targets of a build.**  Each mapping of a code document has one pair, with its target in order, and a target
that is reached by distances lies in the document. -/
theorem build_upright (uri : Uri) (text : String) (options : BuildOptions) {d : CodeDocument}
    (hd : d ∈ (build uri text options).codeDocuments) {m : Mapping CodeData} (hm : m ∈ d.map.mappings) :
    m.alternates = [] ∧ m.target.start ≤ m.target.stop ∧
      (m.mode = .offset → m.target.stop ≤ d.document.size) := by
  rcases List.mem_append.1 hd with hd | hd
  · obtain ⟨htext, hmappings⟩ := build_script uri text options (Option.mem_toList.1 hd)
    rw [hmappings] at hm
    rw [Document.size, htext]
    exact upright_scriptProgram (logicBlocks_fromFile text) m hm
  · obtain ⟨input, htext, hmap, -, hnodes, -⟩ :=
      build_template_program uri text options (Option.mem_toList.1 hd)
    have hplaced := Markup.parse_placed input.block.content
    rw [← hnodes] at hplaced
    rw [hmap] at hm
    rw [Document.size, htext]
    exact upright_templateProgram uri hplaced m hm

end Virtual

end ComponentLens
