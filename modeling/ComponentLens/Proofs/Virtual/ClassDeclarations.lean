/-
# Where classes are declared

The template document declares the classes of the stylesheets in two objects, those of modules and the scoped
ones.  An object has one property for each class, and the name of the property leads to every selector of the
class (`toSources_classDeclaration`).

A property stands alone (`classProperty_standsAlone`): nothing else in the document answers for its name
(`classProperty_toSources`).  In front of the objects nothing is mapped, one class maps nothing into the next, and
what comes behind maps forward only.
-/
import ComponentLens.Proofs.Virtual.Targets
import ComponentLens.Proofs.Virtual.TemplateRegions

namespace ComponentLens.Virtual

open MappedText (StandsAlone Bounded Upright)

/-! ## 1. A property -/

/-- The name of a property is looked up at every selector.  The name with its quotes is another place. -/
theorem toSources_classDeclaration (name : String) {selectors : List Span}
    (h : ∀ s ∈ selectors, s.start ≤ s.stop ∧ s.stop ≤ maxOffset) :
    (SpanMap.mk (classDeclaration name selectors).mappings).toSources ⟨1, 1 + name.utf8ByteSize⟩ =
      selectors.map fun s => ⟨s, { region := .style, capabilities := .styleClass }⟩ := by
  induction selectors with
  | nil => rfl
  | cons s selectors ih =>
    obtain ⟨hs, hstop⟩ := h s List.mem_cons_self
    have hrest := ih fun other hother => h other (List.mem_cons_of_mem s hother)
    have hname : MatchMode.offset.carry ⟨1, 1 + name.utf8ByteSize⟩ ⟨1, 1 + name.utf8ByteSize⟩ s = some s :=
      carry_offset_self hs hstop
    have hquoted : MatchMode.gate.carry ⟨1, 1 + name.utf8ByteSize⟩ ⟨0, name.utf8ByteSize + 2⟩ s = none := by
      simp [MatchMode.carry]
    simp only [SpanMap.toSources, SpanMap.hits, classDeclaration, List.flatMap_cons, List.cons_append,
      List.nil_append, List.filterMap_cons, SpanMap.hit?, Mapping.carry, Mapping.pairs, List.findSome?_cons,
      List.findSome?_nil, SpanPair.carry, hname, hquoted, Option.map_some, Option.map_none,
      List.map_cons] at hrest ⊢
    rw [hrest]

/-- The property holds its name in quotes. -/
theorem classDeclaration_reads (name : String) (selectors : List Span) :
    (Span.mk 0 (classDeclaration name selectors).size).Reads (classDeclaration name selectors).text.toList
      ("'" ++ name ++ "': string,\n").toList :=
  MappedText.reads_size (classDeclaration name selectors).text

theorem bounded_classDeclaration (name : String) (selectors : List Span) :
    (classDeclaration name selectors).Bounded := by
  intro m hm
  obtain ⟨halternates, -, hstop⟩ := classDeclaration_targets name selectors m hm
  exact ⟨halternates, hstop⟩

/-! ## 2. An object -/

/-- The selectors of a class in stylesheets. -/
def selectors (styles : List StyleDocument) (name : String) : List Span :=
  ((styles.flatMap (·.classNames)).filter (·.name == name)).map (·.span)

/-- The pieces of an object, those of one class in the middle. -/
theorem classObject_split (title name : String) {styles : List StyleDocument} {c : Style.ClassName}
    (hc : c ∈ styles.flatMap (·.classNames)) :
    ∃ front back : List Code, (∀ u ∈ front ++ back, u.Bounded) ∧ classObject title name styles =
      .concat (front ++ classDeclaration c.name (selectors styles c.name) :: back) := by
  have hgroup : (c.name, selectors styles c.name) ∈ groupClasses (styles.flatMap (·.classNames)) :=
    List.mem_map.2 ⟨c.name, List.mem_eraseDups.2 (List.mem_map_of_mem hc), rfl⟩
  obtain ⟨before, after, hsplit⟩ := List.append_of_mem hgroup
  have hclasses : ∀ (classes : List (String × List Span)) (u : Code),
      u ∈ classes.map (fun class_ => classDeclaration class_.1 class_.2) → u.Bounded := by
    intro classes u hu
    obtain ⟨⟨class_, places⟩, -, rfl⟩ := List.mem_map.1 hu
    exact bounded_classDeclaration class_ places
  refine ⟨raw (title ++ "declare const " ++ name ++ ": \x7b\n") ::
      before.map (fun class_ => classDeclaration class_.1 class_.2),
    after.map (fun class_ => classDeclaration class_.1 class_.2) ++ [raw "\x7d;\n"], ?_, ?_⟩
  · intro u hu
    simp only [List.cons_append, List.mem_cons, List.mem_append, List.not_mem_nil, or_false] at hu
    rcases hu with rfl | hu | hu | rfl
    · exact MappedText.bounded_closed.plain _
    · exact hclasses before u hu
    · exact hclasses after u hu
    · exact MappedText.bounded_closed.plain _
  · simp [classObject, hsplit]

/-- A property of an object stands alone in it. -/
theorem classDeclaration_standsAlone (title name : String) {styles : List StyleDocument}
    {c : Style.ClassName} (hc : c ∈ styles.flatMap (·.classNames)) :
    ∃ before, (classDeclaration c.name (selectors styles c.name)).StandsAlone
      (classObject title name styles) before := by
  obtain ⟨front, back, hbounded, hobject⟩ := classObject_split title name hc
  refine ⟨MappedText.textOf front, hobject ▸ MappedText.standsAlone_concat ?_ ?_⟩
  · exact fun u hu => hbounded u (List.mem_append_left _ hu)
  · exact fun u hu m hm => (hbounded u (List.mem_append_right _ hu) m hm).1

theorem bounded_classObject (title name : String) (styles : List StyleDocument) :
    (classObject title name styles).Bounded := by
  refine MappedText.bounded_closed.concat _ ?_
  intro code hcode
  simp only [List.mem_append, List.mem_cons, List.mem_map, List.not_mem_nil, or_false] at hcode
  rcases hcode with (rfl | ⟨⟨class_, places⟩, -, rfl⟩) | rfl
  · exact MappedText.bounded_closed.plain _
  · exact bounded_classDeclaration class_ places
  · exact MappedText.bounded_closed.plain _

/-! ## 3. The document -/

/-- The stylesheets whose classes the template sees: those of modules, and the scoped ones. -/
def classSources (styles : List StyleDocument) : List (List StyleDocument) :=
  [styles.filter (·.moduleName.isSome), styles.filter (·.isScoped)]

/-- What stands behind the class objects. -/
def piecesBehindClasses (input : TemplateInput) : List LinkedText :=
  .plain "/* Props */\n" ::
    (input.names.context.map (fun name => nameDeclaration (input.names.props.contains name) name) ++
      [LinkedText.plain "/* Interpolations */\n",
        .ofMapped ((templateBody input.scope input.nodes).shiftSource input.block.span.start)])

theorem templateProgram_body (base : Uri) (input : TemplateInput) :
    (templateProgram base input).body = .concat
      (.plain (templateHeader base.fileName (anchoredComponents input)) ::
        classObject "/* CSS Module */\n" "$style" (input.styles.filter (·.moduleName.isSome)) ::
        classObject "/* Style Scoped */\n" "__VLS_styleScopedClasses" (input.styles.filter (·.isScoped)) ::
        (piecesBehindClasses input).map (·.body)) := by
  simp only [templateProgram, piecesBehindClasses, LinkedText.concat, List.cons_append, List.nil_append,
    List.map_cons]
  rfl

theorem upright_behindClasses {input : TemplateInput}
    (hnodes : Markup.AllParts (Markup.Placed input.block.content.toList) (Markup.nodeParts input.nodes)) :
    ∀ u ∈ (piecesBehindClasses input).map (·.body), u.Upright := by
  have hlinked := (MappedText.upright_closed (α := CodeData)).linked
  intro u hu
  obtain ⟨t, ht, rfl⟩ := List.mem_map.1 hu
  simp only [piecesBehindClasses, List.mem_cons, List.mem_append, List.mem_map, List.not_mem_nil,
    or_false] at ht
  rcases ht with rfl | ⟨name, -, rfl⟩ | rfl | rfl
  · exact hlinked.plain _
  · exact nameDeclaration_closed hlinked _ name
  · exact hlinked.plain _
  · exact ((upright_body _).templateBody input.scope hnodes).shiftSource _

/-- **Properties stand alone.**  Every class that the template sees has a property in the template document, and
nothing else in the document answers for what stands in that property. -/
theorem classProperty_standsAlone (base : Uri) {input : TemplateInput}
    (hnodes : Markup.AllParts (Markup.Placed input.block.content.toList) (Markup.nodeParts input.nodes))
    {styles : List StyleDocument} (hstyles : styles ∈ classSources input.styles) {c : Style.ClassName}
    (hc : c ∈ styles.flatMap (·.classNames)) :
    ∃ before, (classDeclaration c.name (selectors styles c.name)).StandsAlone
      (templateProgram base input).body before := by
  have hbehind : ∀ u ∈ (piecesBehindClasses input).map (·.body), ∀ m ∈ u.mappings, m.alternates = [] :=
    fun u hu m hm => (upright_behindClasses hnodes u hu m hm).1
  have hheader : Bounded (.plain (templateHeader base.fileName (anchoredComponents input)) : Code) :=
    MappedText.bounded_closed.plain _
  have hmodules := bounded_classObject "/* CSS Module */\n" "$style"
    (input.styles.filter (·.moduleName.isSome))
  have hscoped := bounded_classObject "/* Style Scoped */\n" "__VLS_styleScopedClasses"
    (input.styles.filter (·.isScoped))
  rw [templateProgram_body]
  simp only [classSources, List.mem_cons, List.not_mem_nil, or_false] at hstyles
  rcases hstyles with rfl | rfl
  · obtain ⟨inside, hinside⟩ := classDeclaration_standsAlone "/* CSS Module */\n" "$style" hc
    have hafter : ∀ u ∈ classObject "/* Style Scoped */\n" "__VLS_styleScopedClasses"
        (input.styles.filter (·.isScoped)) :: (piecesBehindClasses input).map (·.body),
        ∀ m ∈ u.mappings, m.alternates = [] := by
      intro u hu m hm
      rcases List.mem_cons.1 hu with rfl | hu
      · exact (hscoped m hm).1
      · exact hbehind u hu m hm
    have hstands := MappedText.standsAlone_concat (t := classObject "/* CSS Module */\n" "$style"
      (input.styles.filter (·.moduleName.isSome))) (List.forall_mem_singleton.2 hheader) hafter
    exact ⟨_, hinside.trans hstands⟩
  · obtain ⟨inside, hinside⟩ :=
      classDeclaration_standsAlone "/* Style Scoped */\n" "__VLS_styleScopedClasses" hc
    have hbefore : ∀ u ∈ [MappedText.plain (templateHeader base.fileName (anchoredComponents input)),
        classObject "/* CSS Module */\n" "$style" (input.styles.filter (·.moduleName.isSome))],
        u.Bounded := List.forall_mem_cons.2 ⟨hheader, List.forall_mem_singleton.2 hmodules⟩
    have hstands := MappedText.standsAlone_concat (t := classObject "/* Style Scoped */\n"
      "__VLS_styleScopedClasses" (input.styles.filter (·.isScoped))) hbefore hbehind
    exact ⟨_, hinside.trans hstands⟩

/-- **A property leads to the selectors.**  It holds the name of the class in quotes, and what stands between the
quotes is looked up at every selector of the class and nowhere else. -/
theorem classProperty_toSources (base : Uri) {input : TemplateInput}
    (hnodes : Markup.AllParts (Markup.Placed input.block.content.toList) (Markup.nodeParts input.nodes))
    {styles : List StyleDocument} (hstyles : styles ∈ classSources input.styles) {c : Style.ClassName}
    (hc : c ∈ styles.flatMap (·.classNames)) (hname : c.name.toList ≠ [])
    (hselectors : ∀ s ∈ selectors styles c.name, s.start ≤ s.stop ∧ s.stop ≤ maxOffset) :
    ∃ quoted : Span,
      quoted.Reads (templateProgram base input).body.text.toList ("'" ++ c.name ++ "': string,\n").toList ∧
      (SpanMap.mk (templateProgram base input).body.mappings).toSources
          ⟨quoted.start + 1, quoted.start + 1 + c.name.utf8ByteSize⟩ =
        (selectors styles c.name).map fun s => ⟨s, { region := .style, capabilities := .styleClass }⟩ := by
  obtain ⟨before, hstands⟩ := classProperty_standsAlone base hnodes hstyles hc
  refine ⟨_, hstands.reads (classDeclaration_reads c.name (selectors styles c.name)), ?_⟩
  have hlength : 0 < c.name.utf8ByteSize := by
    rw [← byteLength_toList]
    exact Nat.pos_of_ne_zero fun h => hname (eq_nil_of_byteLength_eq_zero h)
  have hinside : 1 + c.name.utf8ByteSize ≤ (classDeclaration c.name (selectors styles c.name)).size := by
    rw [classDeclaration_size]
    omega
  have hhits := hstands.lookup ⟨1, 1 + c.name.utf8ByteSize⟩ (by simp only; omega) hinside
  have hplace : Span.shift ⟨1, 1 + c.name.utf8ByteSize⟩ (byteLength before) =
      ⟨0 + byteLength before + 1, 0 + byteLength before + 1 + c.name.utf8ByteSize⟩ := by
    simp only [Span.shift, Span.mk.injEq]
    omega
  rwa [toSources_classDeclaration c.name hselectors, hplace] at hhits

end ComponentLens.Virtual
