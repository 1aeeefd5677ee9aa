/-
# The template document copies expressions

Semantic tokens of a template come from its code document, so a mapping that carries them must lead to a
copy of what stands at its source.  In the body of the document only one kind of piece lays down such a
mapping: an expression that is copied.  Everything else is a name, whose mapping serves other requests, or a
coarse mapping that is matched as a whole (`copies_closed`).  The declarations in front of the body lead to
stylesheets or nowhere.
-/
import ComponentLens.Proofs.Virtual.TemplatePieces

namespace ComponentLens.Virtual

open Markup

/-- Whether a mapping serves the semantic tokens of a template. -/
def ServesTokens (data : CodeData) (mode : MatchMode) : Prop :=
  mode = .offset ∧ data.region = .template ∧ data.capabilities.has .semanticTokens = true

/-- The code copies what it maps for semantic tokens. -/
def Copies (source : List Char) (code : Code) : Prop :=
  code.Shows ServesTokens fun span shown => span.Reads source shown

variable {source : List Char}

/-! ## 1. The body -/

/-- The one kind of piece that counts is an expression, and it is a copy of what stands at its span. -/
theorem copies_closed (source : List Char) : BodyClosed source (Copies source) where
  plain := MappedText.shows_plain
  concat := fun _ => MappedText.shows_concat
  expression := fun _ _ h => MappedText.shows_mapped fun _ => h
  bare := fun _ h _ => MappedText.shows_mapped fun hserves => absurd (hserves.2.2.symm.trans h) (by decide)
  gate := fun _ _ _ _ _ => MappedText.shows_mapped fun h => by cases h.1
  ahead := fun _ _ _ _ _ => MappedText.shows_ahead fun h => by cases h.1
  covering := fun _ _ _ hcode _ _ => MappedText.Shows.covering hcode fun h => by cases h.1

/-! ## 2. The document -/

/-- The declarations in front of the body lead to stylesheets or nowhere. -/
theorem copies_classObject (title name : String) (styles : List StyleDocument) :
    Copies source (classObject title name styles) := by
  refine (copies_closed source).concat _ ?_
  intro code hcode
  simp only [List.mem_append, List.mem_cons, List.mem_map, List.not_mem_nil, or_false] at hcode
  rcases hcode with (rfl | ⟨⟨class_, selectors⟩, -, rfl⟩) | rfl
  · exact MappedText.shows_plain _
  · intro m hm hserves
    obtain ⟨selector, -, hm⟩ := List.mem_flatMap.1 hm
    have hregion : m.data.region = .style := by
      rcases List.mem_cons.1 hm with rfl | hm
      · rfl
      · obtain rfl := List.mem_singleton.1 hm
        rfl
    exact absurd (hregion.symm.trans hserves.2.1) (by decide)
  · exact MappedText.shows_plain _

/-- **The template document copies expressions.**  The block stands in the file at its span, so what stands
in the block stands in the file. -/
theorem templateProgram_shows (base : Uri) (input : TemplateInput) {file : List Char}
    (hblock : input.block.span.Reads file input.block.content.toList)
    (hnodes : AllParts (Placed input.block.content.toList) (nodeParts input.nodes)) :
    (templateProgram base input).Shows ServesTokens fun span shown => span.Reads file shown := by
  refine templateProgram_closed LinkedText.shows_closed base ?_ ?_
  · intro title name p
    exact copies_classObject title name _
  · have hbody := (copies_closed _).templateBody input.scope hnodes
    exact MappedText.Shows.shiftSource hbody fun _ _ h => h.trans hblock

end ComponentLens.Virtual
