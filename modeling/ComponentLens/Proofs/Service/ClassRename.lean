/-
# Renaming a class

A class that the template sees is declared as a property in the template document.  When the backend renames the
property, the edit lands on every selector of the class.  The place of a selector holds its dot, but the new name
does not: `class_rename` says that the edit writes the bare name over the whole selector, so that what was a class
selector becomes the name of an element.
-/
import ComponentLens.Proofs.Service.TemplateEdits
import ComponentLens.Proofs.Virtual.ClassDeclarations

namespace ComponentLens

open Virtual

/-! ## 1. Selectors in the file -/

/-- The classes of a stylesheet stand in the file, each behind its dot. -/
theorem ofBlock_selectors {file : List Char} {block : Block} (base : Uri) (index : Nat)
    (h : block.span.Reads file block.content.toList) :
    ∀ c ∈ (StyleDocument.ofBlock base index block).classNames,
      c.span.Reads file ('.' :: c.name.toList) ∧ c.name.toList ≠ [] := by
  intro c hc
  obtain ⟨c', hc', rfl⟩ := List.mem_map.1 hc
  obtain ⟨hreads, hne⟩ := Style.classNames_reads block.content c' hc'
  exact ⟨hreads.trans h, hne⟩

/-- So do the classes of a build that its template sees. -/
theorem classSources_read {uri : Uri} {text : String} {options : BuildOptions} {styles : List StyleDocument}
    (hstyles : styles ∈ classSources (build uri text options).styles) :
    ∀ c ∈ styles.flatMap (·.classNames),
      c.span.Reads text.toList ('.' :: c.name.toList) ∧ c.name.toList ≠ [] := by
  intro c hc
  obtain ⟨style, hstyle, hc⟩ := List.mem_flatMap.1 hc
  have hmem : style ∈ (build uri text options).styles := by
    simp only [classSources, List.mem_cons, List.not_mem_nil, or_false] at hstyles
    rcases hstyles with rfl | rfl
    · exact (List.mem_filter.1 hstyle).1
    · exact (List.mem_filter.1 hstyle).1
  obtain ⟨⟨block, index⟩, hblock, rfl⟩ := List.mem_map.1 hmem
  have hblocks := Component.mem_blocks.2 (.inr (.inr (.inr (.inl (List.fst_mem_of_mem_zipIdx hblock)))))
  exact ofBlock_selectors uri index (Component.split_reads text block hblocks) c hc

/-- The selectors of a class read the class behind its dot. -/
theorem selectors_read {file : List Char} {styles : List StyleDocument}
    (h : ∀ c ∈ styles.flatMap (·.classNames), c.span.Reads file ('.' :: c.name.toList) ∧ c.name.toList ≠ [])
    (name : String) : ∀ s ∈ selectors styles name, s.Reads file ('.' :: name.toList) := by
  intro s hs
  obtain ⟨c, hc, rfl⟩ := List.mem_map.1 hs
  obtain ⟨hclass, hname⟩ := List.mem_filter.1 hc
  obtain rfl : c.name = name := by simpa using hname
  exact (h c hclass).1

/-- Writing over a place gives the text in front, what is written, and the text behind. -/
theorem replace?_of_reads {s : Span} {text inside : List Char} (h : s.Reads text inside) :
    ∃ before after, text = before ++ (inside ++ after) ∧ s.start = byteLength before ∧
      ∀ new, s.replace? text new = some (before ++ new ++ after) := by
  obtain ⟨before, after, rfl, rfl⟩ := h
  exact ⟨before, after, rfl, rfl, fun new => Span.replace?_append before inside after new⟩

namespace Service

/-! ## 2. The rename -/

variable {builds : BuildCache} {held : HeldBuild} {d : CodeDocument}

/-- **A class rename drops the dots.**  Every class of a module or of a scoped stylesheet is declared in the
template document, its name in quotes.  If the backend replaces the name inside the quotes, one edit lands for each
selector of the class, and it writes the new name over the whole of the selector.  The file then holds the new name
where it held the class behind a dot, and never the new name behind a dot. -/
theorem class_rename {uri : Uri} {text : String} {options : BuildOptions}
    (htemplate : HasTemplate builds held d) (hbuild : held.build = build uri text options)
    (hsize : text.utf8ByteSize ≤ maxOffset) {styles : List StyleDocument}
    (hstyles : styles ∈ classSources (build uri text options).styles) {c : Style.ClassName}
    (hc : c ∈ styles.flatMap (·.classNames)) :
    c.span ∈ selectors styles c.name ∧
    ∃ quoted : Span,
      quoted.Reads d.document.text.toList ("'" ++ c.name ++ "': string,\n").toList ∧
      (∀ newName, landedEdits builds
          ⟨d.document.uri, ⟨quoted.start + 1, quoted.start + 1 + c.name.utf8ByteSize⟩⟩ newName =
        (selectors styles c.name).map fun s => ⟨⟨uri, s⟩, newName⟩) ∧
      ∀ s ∈ selectors styles c.name, ∃ before after,
        text.toList = before ++ (('.' :: c.name.toList) ++ after) ∧ s.start = byteLength before ∧
        ∀ newName : String, s.replace? text.toList newName.toList = some (before ++ newName.toList ++ after) ∧
          s.replace? text.toList newName.toList ≠ some (before ++ ('.' :: newName.toList) ++ after) := by
  have hd := htemplate.template
  rw [hbuild] at hd
  obtain ⟨input, htext, hmap, -, hnodes, hinput⟩ := build_template_program uri text options hd
  have hplaced := Markup.parse_placed input.block.content
  rw [← hnodes] at hplaced
  have hsources : styles ∈ classSources input.styles := hinput ▸ hstyles
  have hclasses := classSources_read hstyles
  have hreads := selectors_read hclasses c.name
  have hordered : ∀ s ∈ selectors styles c.name, s.start ≤ s.stop ∧ s.stop ≤ maxOffset := by
    intro s hs
    have hstop := (hreads s hs).isBoundary_stop.le_byteLength
    rw [byteLength_toList] at hstop
    exact ⟨(hreads s hs).start_le_stop, Nat.le_trans hstop hsize⟩
  obtain ⟨quoted, hquoted, hhits⟩ := classProperty_toSources uri hplaced hsources hc (hclasses c hc).2 hordered
  rw [← htext] at hquoted
  refine ⟨List.mem_map_of_mem (List.mem_filter.2 ⟨hc, by simp⟩), quoted, hquoted, ?_, ?_⟩
  · intro newName
    have hedits := landedEdits_template htemplate (hmap ▸ hhits) (by decide) rfl newName
    rwa [hbuild] at hedits
  · intro s hs
    obtain ⟨front, back, htext, hstart, hreplace⟩ := replace?_of_reads (hreads s hs)
    refine ⟨front, back, htext, hstart, fun newName => ⟨hreplace newName.toList, ?_⟩⟩
    rw [hreplace newName.toList]
    intro heq
    have hlength := congrArg List.length (Option.some.inj heq)
    simp at hlength

/-- A class of a scoped stylesheet that the template uses. -/
def scopedClass : String := "<template><p class=\"a\"/></template><style scoped>.a\x7b\x7d</style>"

/-- The premises can be met by a component with a scoped class. -/
theorem class_rename_scoped :
    ∃ (d : CodeDocument) (quoted : Span),
      quoted.Reads d.document.text.toList ("'" ++ "a" ++ "': string,\n").toList ∧
      landedEdits (({} : BuildCache).rebuild ⟨"file:///A.vue"⟩ 1 scopedClass {})
          ⟨d.document.uri, ⟨quoted.start + 1, quoted.start + 1 + "a".utf8ByteSize⟩⟩ "b" =
        [⟨⟨⟨"file:///A.vue"⟩, ⟨49, 51⟩⟩, "b"⟩] := by
  have htemplate : (build ⟨"file:///A.vue"⟩ scopedClass {}).template.isSome = true := by decide +kernel
  have hscript : ∀ s ∈ (build ⟨"file:///A.vue"⟩ scopedClass {}).script,
      s.document.uri ≠ Uri.append ⟨"file:///A.vue"⟩ ".__VLS_template.ts" := by decide +kernel
  have hclass : ∃ styles ∈ classSources (build ⟨"file:///A.vue"⟩ scopedClass {}).styles,
      ∃ c ∈ styles.flatMap (·.classNames), c.name = "a" ∧ selectors styles c.name = [⟨49, 51⟩] := by
    decide +kernel
  obtain ⟨d, hd⟩ := Option.isSome_iff_exists.1 htemplate
  obtain ⟨styles, hstyles, c, hc, hname, hselectors⟩ := hclass
  obtain ⟨-, quoted, hquoted, hedits, -⟩ :=
    class_rename (hasTemplate_rebuild {} 1 hd hscript) rfl (by decide) hstyles hc
  have hedits := hedits "b"
  rw [hselectors] at hedits
  rw [hname] at hquoted hedits
  exact ⟨d, quoted, hquoted, hedits⟩

/-- Renaming the class `a` to `b` turns the selector `.a` into the name `b` of an element. -/
theorem class_rename_drops_dot :
    ∃ d ∈ (build ⟨"file:///A.vue"⟩ scopedClass {}).template,
      (∃ m ∈ d.map.mappings, m.pairs = [⟨.offset, ⟨49, 51⟩, ⟨853, 854⟩⟩]) ∧
      Span.slice ⟨49, 51⟩ scopedClass = ".a" ∧
      landedEdits (({} : BuildCache).rebuild ⟨"file:///A.vue"⟩ 1 scopedClass {})
        ⟨d.document.uri, ⟨853, 854⟩⟩ "b" = [⟨⟨⟨"file:///A.vue"⟩, ⟨49, 51⟩⟩, "b"⟩] ∧
      Span.replace? ⟨49, 51⟩ scopedClass.toList "b".toList =
        some "<template><p class=\"a\"/></template><style scoped>b\x7b\x7d</style>".toList ∧
      Span.replace? ⟨49, 51⟩ scopedClass.toList "b".toList ≠
        some "<template><p class=\"a\"/></template><style scoped>.b\x7b\x7d</style>".toList := by
  decide +kernel

end Service

end ComponentLens
