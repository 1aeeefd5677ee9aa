/-
# Renaming a handler

The property that takes the handler of an event is named by the key of the event.  When the backend renames the
property, an edit lands on the argument of the event attribute.  The edit holds the new key and not the event that
has this key: `handler_rename` says that whatever the new name is, the attribute is left with an event whose
handler is taken by another property.
-/
import ComponentLens.Proofs.Service.TemplateEdits
import ComponentLens.Proofs.Virtual.Handlers
import ComponentLens.Proofs.Workspace.Owners

namespace ComponentLens.Service

open Virtual Markup

variable {builds : BuildCache} {held : HeldBuild} {d : CodeDocument}

/-- What an edit that renames to a key writes is no event with that key. -/
theorem handlerKey_newText_ne {place : Place} {event : String} {e : PlacedEdit}
    (h : e ∈ landedEdits builds place (handlerKey event)) : handlerKey e.newText ≠ handlerKey event := by
  rcases newText_of_landed h with htext | htext
  · rw [htext]
    exact handlerKey_handlerKey_ne event
  · rw [htext]
    exact handlerKey_hyphenate_ne event

/-- **A handler rename loses the event.**  The template document holds the key of every handler in quotes.  If the
backend replaces the key between the quotes by the key of another event, an edit lands on the argument that names
the event.  It writes the key itself, and no edit that lands anywhere writes an event that has the key. -/
theorem handler_rename {uri : Uri} {text : String} {options : BuildOptions}
    (htemplate : HasTemplate builds held d) (hbuild : held.build = build uri text options)
    (hsize : text.utf8ByteSize ≤ maxOffset) {block : Block} (hblock : (Component.split text).template = some block)
    {tag : Tag} (htag : tag ∈ nodeTags (parse block.content).nodes) {arg : DirectiveArg} {exp : Expression}
    (h : (arg, exp) ∈ Tag.events tag) :
    (arg.span.shift block.span.start).Reads text.toList arg.content.toList ∧
    ∃ quoted : Span,
      quoted.Reads d.document.text.toList ("'" ++ handlerKey arg.content ++ "'").toList ∧
      ∀ event : String,
        ⟨⟨uri, arg.span.shift block.span.start⟩, handlerKey event⟩ ∈ landedEdits builds
          ⟨d.document.uri, ⟨quoted.start + 1, quoted.start + 1 + (handlerKey arg.content).utf8ByteSize⟩⟩
          (handlerKey event) ∧
        ∀ e ∈ landedEdits builds
          ⟨d.document.uri, ⟨quoted.start + 1, quoted.start + 1 + (handlerKey arg.content).utf8ByteSize⟩⟩
          (handlerKey event), handlerKey e.newText ≠ handlerKey event := by
  have hd := htemplate.template
  rw [hbuild] at hd
  obtain ⟨input, htext, hmap, hinput, hnodes, -⟩ := build_template_program uri text options hd
  obtain rfl : block = input.block := Option.some.inj (hblock.symm.trans hinput)
  have hblocks := Component.split_reads text input.block (Component.mem_blocks.2 (.inl hblock))
  have hplaced := parse_placed input.block.content
  have harg := (reads_event (allParts_of_mem_nodeTags hplaced htag) h).trans hblocks
  have hfile : byteLength text.toList ≤ maxOffset := byteLength_toList text ▸ hsize
  rw [← hnodes] at htag
  obtain ⟨quoted, hquoted, hhit⟩ := keyUse_toSources uri htag h harg hfile
  refine ⟨harg, quoted, htext ▸ hquoted, fun event => ⟨?_, fun e he => handlerKey_newText_ne he⟩⟩
  have hserves : Capabilities.tagOrAttribute.has .renameOut = true := by decide
  have hedit := mem_landedEdits_template htemplate (hmap ▸ hhit) hserves rfl (handlerKey event)
  rwa [hbuild] at hedit

/-- An event of an element, and a component that declares the property of its handler. -/
def handledEvent : String :=
  "<template><p @e=\"f\"/></template><script>export default \x7bprops:\x7bonE:Function\x7d\x7d</script>"

/-- The premises can be met where an element has an event. -/
theorem handler_rename_declared :
    ∃ (d : CodeDocument) (quoted : Span), quoted.Reads d.document.text.toList ("'" ++ "onE" ++ "'").toList ∧
      ⟨⟨⟨"file:///A.vue"⟩, ⟨14, 15⟩⟩, handlerKey "g"⟩ ∈
        landedEdits (({} : BuildCache).rebuild ⟨"file:///A.vue"⟩ 1 handledEvent {})
          ⟨d.document.uri, ⟨quoted.start + 1, quoted.start + 1 + "onE".utf8ByteSize⟩⟩ (handlerKey "g") := by
  have htemplate : (build ⟨"file:///A.vue"⟩ handledEvent {}).template.isSome = true := by decide +kernel
  have hscript : ∀ s ∈ (build ⟨"file:///A.vue"⟩ handledEvent {}).script,
      s.document.uri ≠ Uri.append ⟨"file:///A.vue"⟩ ".__VLS_template.ts" := by decide +kernel
  have hevent : ∃ block ∈ (Component.split handledEvent).template, ∃ tag ∈ nodeTags (parse block.content).nodes,
      ∃ event ∈ Tag.events tag, handlerKey event.1.content = "onE" ∧
        event.1.span.shift block.span.start = ⟨14, 15⟩ := by decide +kernel
  obtain ⟨d, hd⟩ := Option.isSome_iff_exists.1 htemplate
  obtain ⟨block, hblock, tag, htag, ⟨arg, exp⟩, hmem, hkey, hplace⟩ := hevent
  obtain ⟨-, quoted, hquoted, hedits⟩ :=
    handler_rename (hasTemplate_rebuild {} 1 hd hscript) rfl (by decide) hblock htag hmem
  have hedit := (hedits "g").1
  rw [hplace] at hedit
  rw [hkey] at hquoted hedit
  exact ⟨d, quoted, hquoted, hedit⟩

/-- Renaming the property `onE` to `onG` leaves the element with the event `onG`, whose handler goes to the property
`onOnG`. -/
theorem handler_rename_keeps_on :
    ∃ d ∈ (build ⟨"file:///A.vue"⟩ handledEvent {}).template,
      (∃ m ∈ d.map.mappings, m.pairs = [⟨.offset, ⟨14, 15⟩, ⟨1115, 1118⟩⟩]) ∧
      Span.slice ⟨14, 15⟩ handledEvent = "e" ∧ handlerKey "e" = "onE" ∧
      landedEdits (({} : BuildCache).rebuild ⟨"file:///A.vue"⟩ 1 handledEvent {})
        ⟨d.document.uri, ⟨1115, 1118⟩⟩ (handlerKey "g") = [⟨⟨⟨"file:///A.vue"⟩, ⟨14, 15⟩⟩, "onG"⟩] ∧
      handlerKey "g" = "onG" ∧ handlerKey "onG" = "onOnG" := by
  decide +kernel

end ComponentLens.Service
