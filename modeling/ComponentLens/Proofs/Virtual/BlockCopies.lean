/-
# Documents that copy places of the file

A stylesheet, a block of data and the copy of the template take a block over as it is.  The inline styles of a
template are a stylesheet, too: each value of a `style` attribute becomes a rule, whatever element it stands at.
`build_oneToOne` says of all of them that looking up is a bijection between equal texts.

For the inline styles this rests on two facts that come from far apart.  The values of attributes stand apart in
the template (`parse_attrValues_separate`), and the walk that collects them takes each of them once at most
(`styleRules_sublist`).  On the other side the text of a rule keeps the copies apart.
-/
import ComponentLens.Proofs.Mapping.Copies
import ComponentLens.Proofs.Mapping.Leads
import ComponentLens.Proofs.Virtual.Provenance
import Mathlib.Data.List.Flatten

namespace ComponentLens

open Markup (Clear Separate Between)

/-! ## 1. Moving to the file -/

theorem Mapping.IsCopy.shiftSource {α : Type} {content file text : List Char} {place : Span} {m : Mapping α}
    (h : m.IsCopy content text) (hplace : place.Reads file content) :
    (m.shiftSource place.start).IsCopy file text := by
  obtain ⟨shown, hsource, htarget⟩ := h.reads
  exact ⟨h.mode, by simp [Mapping.shiftSource, h.alternates], shown, hsource.trans hplace, htarget⟩

theorem OneToOne.shiftSource {α : Type} {content file text : List Char} {place : Span} {ms : List (Mapping α)}
    (h : OneToOne content text ms) (hplace : place.Reads file content) :
    OneToOne file text (ms.map (·.shiftSource place.start)) where
  copies := List.forall_mem_map.2 fun m hm => (h.copies m hm).shiftSource hplace
  sources := by
    refine List.pairwise_map.2 (h.sources.imp ?_)
    intro m m' hclear
    simp only [Clear, Mapping.shiftSource, Span.shift] at hclear ⊢
    omega
  targets := List.pairwise_map.2 h.targets

namespace Virtual

open Markup (AttrValue Node Tag attrValues nodeParts)

/-! ## 2. Copies of a block -/

theorem copyMapping_source {content : String} {place : Span} {file : List Char}
    (hplace : place.Reads file content.toList) : (copyMapping content place.start).source = place := by
  obtain ⟨start, stop⟩ := place
  have hstop := hplace.stop_eq
  simp only [byteLength_toList] at hstop
  simp [copyMapping, Span.shift, hstop, Nat.add_comm]

/-- The mapping of a block to its copy. -/
theorem copyMapping_isCopy {content : String} {place : Span} {file : List Char}
    (hplace : place.Reads file content.toList) :
    (copyMapping content place.start).IsCopy file content.toList :=
  ⟨rfl, rfl, _, (copyMapping_source hplace).symm ▸ hplace, MappedText.reads_size content⟩

theorem copyMap_oneToOne {content : String} {place : Span} {file : List Char}
    (hplace : place.Reads file content.toList) :
    OneToOne file content.toList (copyMap content place.start).mappings := by
  unfold copyMap
  dsimp only
  split
  · exact .nil
  · exact .single (copyMapping_isCopy hplace)

/-! ## 3. Inline styles as rules -/

/-- The values of the `style` attributes of an element. -/
def styleValues (tag : Tag) : List AttrValue :=
  tag.attributes.flatMap fun a => (a.value.filter fun v => a.name == "style" && !v.content.isEmpty).toList

/-- The inline styles of a template, each with the name of its element. -/
def styleRules (nodes : List Node) : List (String × AttrValue) :=
  (nodeTags nodes).flatMap fun tag => (styleValues tag).map (tag.name, ·)

/-- What a rule is put together from. -/
def rulePieces (rule : String × AttrValue) : List (MappedText Unit) :=
  [.plain (rule.1 ++ " \x7b "), .mapped rule.2.content rule.2.span .offset (), .plain " \x7d\n"]

theorem inlineStyle_eq (tag : Tag) :
    inlineStyle tag = ((styleValues tag).map (tag.name, ·)).flatMap rulePieces := by
  rw [inlineStyle, styleValues, List.map_flatMap, List.flatMap_assoc]
  refine congrArg (tag.attributes.flatMap ·) (funext fun a => ?_)
  cases a.value with
  | none => rfl
  | some value =>
    simp only [Option.filter_some]
    split <;> rfl

theorem inlineStyles_eq (nodes : List Node) :
    inlineStyles nodes = .concat ((styleRules nodes).flatMap rulePieces) := by
  rw [inlineStyles, styleRules, List.flatMap_assoc]
  exact congrArg (fun f => MappedText.concat ((nodeTags nodes).flatMap f)) (funext inlineStyle_eq)

/-! ## 4. The places of inline styles -/

/-- The values of a tag are found in the order of its attributes. -/
theorem styleValues_sublist (tag : Tag) : (styleValues tag).Sublist (attrValues tag.parts) := by
  have hprops : ∀ props : List Markup.TagProp,
      (styleValues { tag with props }).Sublist (attrValues (props.map .prop)) := by
    intro props
    induction props with
    | nil => exact .refl _
    | cons prop props ih =>
      cases prop with
      | directive d => exact ih
      | plain a =>
        have hvalue : ((a.value.filter fun v => a.name == "style" && !v.content.isEmpty).toList).Sublist
            a.value.toList := by
          rw [Option.toList_filter]
          exact List.filter_sublist
        exact hvalue.append ih
  have hnames : attrValues tag.parts = attrValues (tag.props.map .prop) := by
    cases h : tag.endNameSpan <;> simp [attrValues, Tag.parts, Markup.Part.attrValues, h]
  rw [hnames]
  exact hprops tag.props

/-- **The walk takes no value twice.** -/
theorem styleRules_sublist (nodes : List Node) :
    ((styleRules nodes).map (·.2)).Sublist (attrValues (nodeParts nodes)) := by
  have hvalues : (styleRules nodes).map (·.2) = (nodeTags nodes).flatMap styleValues := by
    simp [styleRules, List.map_flatMap, Function.comp_def]
  have htags : (nodeTags nodes).flatMap (fun tag => attrValues tag.parts) =
      attrValues ((nodeTags nodes).flatMap Tag.parts) := by simp only [attrValues, List.flatMap_assoc]
  have hstyles := List.Sublist.flatMap_right (nodeTags nodes) fun tag _ => styleValues_sublist tag
  rw [hvalues]
  exact (htags ▸ hstyles).trans ((nodeTags_parts nodes).flatMap _)

/-! ## 5. Rules stand apart -/

/-- The mappings of rules lead to the values, in order. -/
theorem sources_rules (pos : Nat) (rules : List (String × AttrValue)) :
    (MappedText.mappingsFrom pos (rules.flatMap rulePieces)).map (·.source) = rules.map (·.2.span) := by
  induction rules generalizing pos with
  | nil => rfl
  | cons rule rules ih =>
    simp [rulePieces, MappedText.mappingsFrom, MappedText.plain, MappedText.mapped, Mapping.shiftTarget, ih]

/-- The text of the rules keeps their values apart. -/
theorem targets_rules (pos : Nat) (rules : List (String × AttrValue)) :
    ∃ stop, pos ≤ stop ∧
      Between pos stop ((MappedText.mappingsFrom pos (rules.flatMap rulePieces)).map (·.target)) := by
  induction rules generalizing pos with
  | nil => exact ⟨pos, Nat.le_refl pos, .nil⟩
  | cons rule rules ih =>
    have hend : " \x7d\n".utf8ByteSize = 3 := rfl
    obtain ⟨stop, hstop, hrest⟩ := ih
      (pos + (rule.1 ++ " \x7b ").utf8ByteSize + rule.2.content.utf8ByteSize + " \x7d\n".utf8ByteSize)
    refine ⟨stop, by omega, ?_⟩
    simp only [List.flatMap_cons, rulePieces, List.cons_append, List.nil_append, MappedText.mappingsFrom,
      MappedText.plain, MappedText.mapped, MappedText.size, List.map_nil, List.map_cons,
      Mapping.shiftTarget, Span.shift]
    have hvalue : Between pos
        (pos + (rule.1 ++ " \x7b ").utf8ByteSize + rule.2.content.utf8ByteSize)
        [⟨0 + (pos + (rule.1 ++ " \x7b ").utf8ByteSize),
          rule.2.content.utf8ByteSize + (pos + (rule.1 ++ " \x7b ").utf8ByteSize)⟩] := by
      refine .single ?_ ?_ ?_ <;> simp only <;> omega
    exact hvalue.append hrest (by omega) (by omega) (by omega)

/-- Each rule maps its value to a copy. -/
theorem isCopy_rules {template : List Char} {rules : List (String × AttrValue)}
    (h : ∀ rule ∈ rules, rule.2.span.Reads template rule.2.content.toList) :
    ∀ m ∈ (MappedText.concat (rules.flatMap rulePieces)).mappings,
      m.IsCopy template (MappedText.concat (rules.flatMap rulePieces)).text.toList := by
  have hpieces : ∀ t ∈ rules.flatMap rulePieces,
      t.Shows (fun _ _ => True) (fun s shown => s.Reads template shown) ∧
        ∀ m ∈ t.mappings, m.mode = .offset ∧ m.alternates = [] := by
    intro t ht
    obtain ⟨rule, hrule, ht⟩ := List.mem_flatMap.1 ht
    simp only [rulePieces, List.mem_cons, List.not_mem_nil, or_false] at ht
    rcases ht with rfl | rfl | rfl
    · exact ⟨MappedText.shows_plain _, by simp [MappedText.plain]⟩
    · exact ⟨MappedText.shows_mapped fun _ => h rule hrule, by simp [MappedText.mapped]⟩
    · exact ⟨MappedText.shows_plain _, by simp [MappedText.plain]⟩
  intro m hm
  obtain ⟨shown, htarget, hsource⟩ :=
    MappedText.shows_concat (fun t ht => (hpieces t ht).1) m hm trivial
  obtain ⟨before, t, after, hts, m', hm', rfl⟩ := MappedText.mem_mappingsFrom hm
  obtain ⟨hmode, halternates⟩ := (hpieces t (by simp [hts])).2 m' hm'
  exact ⟨hmode, by simp [Mapping.shiftTarget, halternates], shown, hsource, htarget⟩

/-- **The inline styles of a template** copy the values of its `style` attributes. -/
theorem inlineStyles_oneToOne (template : String) :
    OneToOne template.toList (inlineStyles (Markup.parse template).nodes).text.toList
      (inlineStyles (Markup.parse template).nodes).mappings := by
  have hsub := (styleRules_sublist (Markup.parse template).nodes)
  have hplaced := Markup.parse_placed template
  have hclear := ((Markup.parse_attrValues_separate template).sublist (hsub.map (·.span))).clear
  generalize nodeParts (Markup.parse template).nodes = parts at hsub hplaced
  have hreads : ∀ rule ∈ styleRules (Markup.parse template).nodes,
      rule.2.span.Reads template.toList rule.2.content.toList := by
    intro rule hrule
    obtain ⟨part, hpart, hvalue⟩ := List.mem_flatMap.1 (hsub.subset (List.mem_map_of_mem hrule))
    have hplace := hplaced part hpart
    unfold Markup.Part.attrValues at hvalue
    split at hvalue
    next a => exact hplace.2.2 rule.2 (Option.mem_toList.1 hvalue)
    next => cases hvalue
  rw [inlineStyles_eq]
  refine ⟨isCopy_rules hreads, ?_, ?_⟩
  · rw [List.map_map] at hclear
    exact List.pairwise_map.1 ((sources_rules 0 _).symm ▸ hclear)
  · obtain ⟨stop, -, hbetween⟩ := targets_rules 0 (styleRules (Markup.parse template).nodes)
    exact List.pairwise_map.1 hbetween.separate.clear

/-! ## 6. Builds -/

/-- The documents that take places of the file over as they are: the stylesheets with that of the inline
styles, the copy of the template, and the blocks of data. -/
def Build.copies (b : Build) : List (Document × SpanMap Unit) :=
  b.styleDocuments.map (fun d => (d.document, d.map)) ++
    (b.markup.toList.map (fun d => (d.document, d.map)) ++ b.data.map fun d => (d.document, d.map))

/-- The document holds the content of the block.  If there is some, the one mapping relates the whole of the
content to the whole of the document. -/
structure IsCopyOf (block : Block) (document : Document) (map : SpanMap Unit) : Prop where
  text : document.text = block.content
  map : block.content ≠ "" → map.mappings = [⟨(), .offset, block.span, ⟨0, document.size⟩, []⟩]

theorem copyMapping_eq {content : String} {place : Span} {file : List Char}
    (hplace : place.Reads file content.toList) :
    copyMapping content place.start = ⟨(), .offset, place, ⟨0, content.utf8ByteSize⟩, []⟩ := by
  have hsource := copyMapping_source hplace
  simp only [copyMapping] at hsource ⊢
  rw [hsource]

theorem isCopyOf_ofBlock {base : Uri} {index : Nat} {block : Block} {file : List Char}
    (h : block.span.Reads file block.content.toList) :
    IsCopyOf block (StyleDocument.ofBlock base index block).document
      (StyleDocument.ofBlock base index block).map where
  text := rfl
  map hcontent := by
    simp [StyleDocument.ofBlock, copyMap, hcontent, copyMapping_eq h, Document.size]

theorem isCopyOf_markup {base : Uri} {block : Block} {file : List Char}
    (h : block.span.Reads file block.content.toList) :
    IsCopyOf block (markupDocument base block).document (markupDocument base block).map where
  text := rfl
  map hcontent := by
    simp [markupDocument, copyMap, hcontent, copyMapping_eq h, Document.size]

/-- A block of data is a document of its own, or none. -/
theorem ofBlock?_eq_some {base : Uri} {index : Nat} {block : Block} {d : DataDocument}
    (h : DataDocument.ofBlock? base index block = some d) :
    d.index = index ∧ d.document.text = block.content ∧
      d.map = ⟨[copyMapping block.content block.span.start]⟩ := by
  obtain ⟨lang, -, rfl⟩ := Option.map_eq_some_iff.1 h
  exact ⟨rfl, rfl, rfl⟩

theorem isCopyOf_data {base : Uri} {index : Nat} {block : Block} {d : DataDocument} {file : List Char}
    (hblock : block.span.Reads file block.content.toList)
    (h : DataDocument.ofBlock? base index block = some d) : IsCopyOf block d.document d.map := by
  obtain ⟨-, htext, hmap⟩ := ofBlock?_eq_some h
  refine ⟨htext, fun _ => ?_⟩
  rw [hmap, copyMapping_eq hblock, Document.size, htext]

variable (uri : Uri) (text : String) (options : BuildOptions)

/-- Each stylesheet of a build is made from the style block at its position. -/
theorem build_styles {P : Block → StyleDocument → Prop}
    (h : ∀ block ∈ (Component.split text).styles, ∀ index, P block (.ofBlock uri index block)) :
    List.Forall₂ P (Component.split text).styles (build uri text options).styles := by
  have hfrom : ∀ (blocks : List Block) (start : Nat),
      (∀ block ∈ blocks, ∀ index, P block (.ofBlock uri index block)) →
      List.Forall₂ P blocks ((blocks.zipIdx start).map fun b => .ofBlock uri b.2 b.1) := by
    intro blocks
    induction blocks with
    | nil => exact fun _ _ => .nil
    | cons block blocks ih =>
      intro start hblocks
      exact .cons (hblocks block List.mem_cons_self start)
        (ih (start + 1) fun b hb => hblocks b (List.mem_cons_of_mem _ hb))
  exact hfrom _ 0 h

/-- The copy of the template is made from the template block. -/
theorem build_markup {d : MarkupDocument} (h : (build uri text options).markup = some d) :
    ∃ block, (Component.split text).template = some block ∧ d = markupDocument uri block := by
  obtain ⟨input, hinput, rfl⟩ := Option.map_eq_some_iff.1 h
  obtain ⟨⟨block, tree⟩, htree, rfl⟩ := Option.map_eq_some_iff.1 hinput
  obtain ⟨block', hblock, heq⟩ := Option.map_eq_some_iff.1 htree
  cases heq
  exact ⟨_, (Option.filter_eq_some_iff.1 hblock).1, rfl⟩

/-- The inline styles of a build are those of the template block. -/
theorem build_inlineStyle {d : StyleDocument} (h : (build uri text options).inlineStyle = some d) :
    ∃ block, (Component.split text).template = some block ∧
      d.document.text = (inlineStyles (Markup.parse block.content).nodes).text ∧
      d.map.mappings = (inlineStyles (Markup.parse block.content).nodes).mappings.map
        (·.shiftSource block.span.start) := by
  obtain ⟨input, hinput, rfl⟩ := Option.map_eq_some_iff.1 h
  obtain ⟨⟨block, tree⟩, htree, rfl⟩ := Option.map_eq_some_iff.1 hinput
  obtain ⟨block', hblock, heq⟩ := Option.map_eq_some_iff.1 htree
  cases heq
  exact ⟨_, (Option.filter_eq_some_iff.1 hblock).1, rfl, rfl⟩

/-- Each document of data is made from the block at its index. -/
theorem build_data {d : DataDocument} (h : d ∈ (build uri text options).data) :
    ∃ block, (Component.split text).customBlocks[d.index]? = some block ∧
      DataDocument.ofBlock? uri d.index block = some d := by
  obtain ⟨⟨block, index⟩, hblock, hd⟩ := List.mem_filterMap.1 h
  obtain ⟨rfl, -, -⟩ := ofBlock?_eq_some hd
  exact ⟨block, List.mem_zipIdx_iff_getElem?.1 hblock, hd⟩

/-- **Copies of a build.**  Their maps relate equal texts one to one, and all but the inline styles are no
longer than the file. -/
theorem build_copies {c : Document × SpanMap Unit} (hc : c ∈ (build uri text options).copies) :
    OneToOne text.toList c.1.text.toList c.2.mappings ∧
      (c.1.size ≤ text.utf8ByteSize ∨ ∃ d ∈ (build uri text options).inlineStyle, c.1 = d.document) := by
  have hreads := Component.split_reads text
  have hsize : ∀ block ∈ (Component.split text).blocks, block.content.utf8ByteSize ≤ text.utf8ByteSize := by
    intro block hblock
    have hplace := hreads block hblock
    have hstop := hplace.isBoundary_stop.le_byteLength
    rw [hplace.stop_eq] at hstop
    simp only [byteLength_toList] at hstop
    omega
  rcases List.mem_append.1 hc with hc | hc
  · obtain ⟨d, hd, rfl⟩ := List.mem_map.1 hc
    rcases List.mem_append.1 hd with hd | hd
    · obtain ⟨⟨block, index⟩, hblock, rfl⟩ := List.mem_map.1 hd
      have hmem := Component.mem_blocks.2 (.inr (.inr (.inr (.inl (List.fst_mem_of_mem_zipIdx hblock)))))
      exact ⟨copyMap_oneToOne (hreads block hmem), .inl (hsize block hmem)⟩
    · obtain ⟨block, hblock, htext, hmap⟩ := build_inlineStyle uri text options (Option.mem_toList.1 hd)
      have hcopies := inlineStyles_oneToOne block.content
      refine ⟨?_, .inr ⟨d, Option.mem_toList.1 hd, rfl⟩⟩
      simp only [htext, hmap]
      exact hcopies.shiftSource (hreads block (Component.mem_blocks.2 (.inl hblock)))
  rcases List.mem_append.1 hc with hc | hc
  · obtain ⟨d, hd, rfl⟩ := List.mem_map.1 hc
    obtain ⟨block, hblock, rfl⟩ := build_markup uri text options (Option.mem_toList.1 hd)
    have hmem := Component.mem_blocks.2 (.inl hblock)
    exact ⟨copyMap_oneToOne (hreads block hmem), .inl (hsize block hmem)⟩
  · obtain ⟨d, hd, rfl⟩ := List.mem_map.1 hc
    obtain ⟨block, hblock, hd⟩ := build_data uri text options hd
    obtain ⟨-, htext, hmap⟩ := ofBlock?_eq_some hd
    have hmem := Component.mem_blocks.2 (.inr (.inr (.inr (.inr (List.mem_of_getElem? hblock)))))
    simp only [htext, hmap, Document.size]
    exact ⟨.single (copyMapping_isCopy (hreads block hmem)), .inl (hsize block hmem)⟩

/-- **Copies relate equal texts one to one.**  In the documents of style, of data, of the template and of its
inline styles, a range inside a mapped place of the file has one hit.  The hit holds the text of the range, and
looking it up gives the range and nothing else.  Between two mapped places stands at least one byte, in the file
and in the document.  A document made from a block holds the content of the block.  If there is some, one mapping
relates all of the content to all of the document. -/
theorem build_oneToOne (hfile : text.utf8ByteSize ≤ maxOffset)
    (hinline : ∀ d ∈ (build uri text options).inlineStyle, d.document.size ≤ maxOffset) :
    (∀ c ∈ (build uri text options).copies,
      (∀ m ∈ c.2.mappings, ∀ r, r.start ≤ r.stop → m.source.contains r = true →
        ∃ t, c.2.toTargets r = [⟨t, ()⟩] ∧ t.cut? c.1.text.toList = r.cut? text.toList ∧
          c.2.toSources t = [⟨r, ()⟩]) ∧
      c.2.mappings.Pairwise fun m m' => Clear m.source m'.source ∧ Clear m.target m'.target) ∧
    List.Forall₂ (fun block d => IsCopyOf block d.document d.map) (Component.split text).styles
      (build uri text options).styles ∧
    (∀ d ∈ (build uri text options).markup,
      ∃ block, (Component.split text).template = some block ∧ IsCopyOf block d.document d.map) ∧
    (∀ d ∈ (build uri text options).data,
      ∃ block, (Component.split text).customBlocks[d.index]? = some block ∧
        IsCopyOf block d.document d.map) := by
  have hreads := Component.split_reads text
  refine ⟨fun c hc => ?_, ?_, ?_, ?_⟩
  · obtain ⟨hone, hsize⟩ := build_copies uri text options hc
    have htext : c.1.size ≤ maxOffset := by
      rcases hsize with hsize | ⟨d, hd, heq⟩
      · omega
      · exact heq ▸ hinline d hd
    rw [Document.size, ← byteLength_toList] at htext
    rw [← byteLength_toList] at hfile
    exact ⟨fun m hm r hr hin => hone.lookup hfile htext hm hr hin, hone.sources.and hone.targets⟩
  · refine build_styles uri text options fun block hblock index => ?_
    exact isCopyOf_ofBlock (hreads block (Component.mem_blocks.2 (.inr (.inr (.inr (.inl hblock))))))
  · intro d hd
    obtain ⟨block, hblock, rfl⟩ := build_markup uri text options hd
    exact ⟨block, hblock, isCopyOf_markup (hreads block (Component.mem_blocks.2 (.inl hblock)))⟩
  · intro d hd
    obtain ⟨block, hblock, hd⟩ := build_data uri text options hd
    have hmem := Component.mem_blocks.2 (.inr (.inr (.inr (.inr (List.mem_of_getElem? hblock)))))
    exact ⟨block, hblock, isCopyOf_data (hreads block hmem) hd⟩

/-- A file with an inline style inside an element with an inline style. -/
def nestedStyles : String := "<template><p style=\"a:b\"><b style=c></b></p></template>"

/-- The theorem at these two inline styles, and one byte of the outer one. -/
theorem build_oneToOne_nested :
    ∃ d ∈ (build ⟨"file:///A.vue"⟩ nestedStyles {}).inlineStyle,
      d.map.mappings.map (·.source) = [⟨20, 23⟩, ⟨34, 35⟩] ∧
        ∃ t, d.map.toTargets ⟨22, 23⟩ = [⟨t, ()⟩] ∧ t.cut? d.document.text.toList = some ['b'] ∧
          d.map.toSources t = [⟨⟨22, 23⟩, ()⟩] := by
  have hsome : (build ⟨"file:///A.vue"⟩ nestedStyles {}).inlineStyle.isSome = true := by decide +kernel
  have hfile : nestedStyles.utf8ByteSize ≤ maxOffset := by decide +kernel
  have hinline : ∀ d ∈ (build ⟨"file:///A.vue"⟩ nestedStyles {}).inlineStyle, d.document.size ≤ maxOffset := by
    decide +kernel
  have hplaces : ∀ d ∈ (build ⟨"file:///A.vue"⟩ nestedStyles {}).inlineStyle,
      d.map.mappings.map (·.source) = [⟨20, 23⟩, ⟨34, 35⟩] := by decide +kernel
  have hcut : Span.cut? ⟨22, 23⟩ nestedStyles.toList = some ['b'] := by decide +kernel
  obtain ⟨d, hd⟩ := Option.isSome_iff_exists.1 hsome
  obtain ⟨m, hm, hsource⟩ : ∃ m ∈ d.map.mappings, m.source = ⟨20, 23⟩ :=
    List.mem_map.1 (by rw [hplaces d hd]; exact List.mem_cons_self)
  have hcopy : (d.document, d.map) ∈ (build ⟨"file:///A.vue"⟩ nestedStyles {}).copies :=
    List.mem_append_left _ (List.mem_map_of_mem (List.mem_append_right _ (Option.mem_toList.2 hd)))
  obtain ⟨t, hthere, htext, hback⟩ :=
    ((build_oneToOne ⟨"file:///A.vue"⟩ nestedStyles {} hfile hinline).1 _ hcopy).1 m hm ⟨22, 23⟩ (by decide)
      (by rw [hsource]; decide)
  exact ⟨d, hd, hplaces d hd, t, hthere, htext.trans hcut, hback⟩

end Virtual

end ComponentLens
