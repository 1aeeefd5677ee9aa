/-
# Where a request starts inside a name

A request at an offset of the file starts at an offset of the generated code.  One would like the start to lie in
the place that the mapping leads to: a request at a name should start at that name.  A mapping that is matched as
a whole keeps to this, and so does a look-up between places of one length.

A name and its spelling in the code may differ in length, for a hyphenated name is shorter in camel case and a
selector has a dot in front.  A look-up keeps the distance of the start to the start and that of the end to the
end, and puts the two in order.  At the front of a longer source the end then falls in front of the target, and
the request starts there.  `starts_touch_iff` says exactly when this does not happen.
-/
import ComponentLens.Proofs.Mapping.Links
import ComponentLens.Proofs.Virtual.Targets
import ComponentLens.Service.Walk

namespace ComponentLens

/-! ## 1. An offset in a pair of spans -/

/-- Where an offset is carried to by distances: into the target, unless it is further from the end of the source
than the target is long. -/
theorem touches_of_carry_offset {s t range : Span} {offset : Nat} (ht : t.start ≤ t.stop)
    (hstop : t.stop ≤ maxOffset) (h : MatchMode.offset.carry (Span.empty offset) s t = some range) :
    t.touches range.start = true ↔ s.stop ≤ offset + t.length ∨ t.start = 0 := by
  have hcontains := contains_of_carry_offset h
  simp only [MatchMode.carry, hcontains, if_true, Option.some.injEq] at h
  simp only [Span.contains, Bool.and_eq_true, decide_eq_true_eq] at hcontains
  subst h
  simp only [Span.touches, Bool.and_eq_true, decide_eq_true_eq]
  simp only [Span.normalized, Span.empty, Span.length, clampOffset] at hcontains ⊢
  omega

/-- A pair that is matched as a whole leads to the start of its target. -/
theorem start_of_carry_whole {mode : MatchMode} {s t r range : Span} (hmode : mode ≠ .offset)
    (ht : t.start ≤ t.stop) (h : mode.carry r s t = some range) : range = t := by
  cases mode with
  | offset => exact absurd rfl hmode
  | gate =>
    simp only [MatchMode.carry] at h
    split at h
    · rw [← Option.some.inj h, normalized_of_le ht]
    · cases h
  | inside =>
    simp only [MatchMode.carry] at h
    split at h
    · rw [← Option.some.inj h, normalized_of_le ht]
    · cases h

namespace Service

open Virtual

/-! ## 2. The starts of a request -/

/-- The start that a mapping of a document gives for what it carries an offset to. -/
def startAt (d : CodeDocument) (m : Mapping CodeData) (name : String) (range : Span) : Start :=
  ⟨⟨d.document.uri, range.start, respell m.data.beforeRename name⟩, m.data.region⟩

/-- The starts come from the mappings that serve the request and carry the offset over. -/
theorem mem_starts {b : Build} {offset : Nat} {wanted : Capabilities} {name : String} {start : Start} :
    start ∈ starts b offset wanted name ↔
      ∃ d ∈ b.codeDocuments, ∃ m ∈ d.map.mappings, m.data.capabilities.has wanted = true ∧
        ∃ range, m.carry .toTarget (Span.empty offset) = some range ∧ startAt d m name range = start := by
  constructor
  · intro h
    obtain ⟨d, hd, h⟩ := List.mem_flatMap.1 h
    obtain ⟨hit, hhit, rfl⟩ := List.mem_map.1 h
    obtain ⟨hhit, hwanted⟩ := List.mem_filter.1 hhit
    obtain ⟨m, hm, hcarried⟩ := List.mem_filterMap.1 hhit
    obtain ⟨range, hcarry, rfl⟩ := Option.map_eq_some_iff.1 hcarried
    exact ⟨d, hd, m, hm, hwanted, range, hcarry, rfl⟩
  · rintro ⟨d, hd, m, hm, hwanted, range, hcarry, rfl⟩
    refine List.mem_flatMap.2 ⟨d, hd, List.mem_map.2 ⟨⟨range, m.data⟩, List.mem_filter.2 ⟨?_, hwanted⟩, rfl⟩⟩
    exact List.mem_filterMap.2 ⟨m, hm, by simp [SpanMap.hit?, hcarry]⟩

/-- **Starts and targets.**  Every start of a request comes from a mapping that serves the request and carries the
offset over, by the one pair of spans that it has.  The start lies in the target of that pair if and only if the
pair is matched as a whole, or the offset is no further from the end of the source than the target is long, or
the target begins the document.  So the start is off the target exactly where a longer source is looked up near
its front. -/
theorem starts_touch_iff (uri : Uri) (text : String) (options : BuildOptions)
    (hsize : ∀ d ∈ (build uri text options).codeDocuments, d.document.size ≤ maxOffset) (offset : Nat)
    (wanted : Capabilities) (name : String) :
    (∀ start ∈ starts (build uri text options) offset wanted name,
      ∃ d ∈ (build uri text options).codeDocuments, ∃ m ∈ d.map.mappings,
        m.data.capabilities.has wanted = true ∧
        ∃ range, m.carry .toTarget (Span.empty offset) = some range ∧ startAt d m name range = start) ∧
    ∀ d ∈ (build uri text options).codeDocuments, ∀ m ∈ d.map.mappings,
      m.data.capabilities.has wanted = true →
      ∀ range, m.carry .toTarget (Span.empty offset) = some range →
        startAt d m name range ∈ starts (build uri text options) offset wanted name ∧
        m.pairs = [⟨m.mode, m.source, m.target⟩] ∧
        (m.target.touches (startAt d m name range).question.offset = true ↔
          m.mode ≠ .offset ∨ m.source.stop ≤ offset + m.target.length ∨ m.target.start = 0) := by
  refine ⟨fun start hstart => mem_starts.1 hstart, ?_⟩
  intro d hd m hm hwanted range hcarry
  obtain ⟨halternates, hordered, hinside⟩ := build_upright uri text options hd hm
  have hpairs : m.pairs = [⟨m.mode, m.source, m.target⟩] := by rw [Mapping.pairs, halternates]
  refine ⟨mem_starts.2 ⟨d, hd, m, hm, hwanted, range, hcarry, rfl⟩, hpairs, ?_⟩
  rw [carry_of_alternates halternates] at hcarry
  simp only [SpanPair.carry] at hcarry
  by_cases hmode : m.mode = .offset
  · have hstop := Nat.le_trans (hinside hmode) (hsize d hd)
    rw [hmode] at hcarry
    have htouches := touches_of_carry_offset hordered hstop hcarry
    simpa [startAt, hmode] using htouches
  · obtain rfl := start_of_carry_whole hmode hordered hcarry
    simp [startAt, hmode, Span.touches, hordered]

/-- A file with a component under its hyphenated name. -/
def hyphenatedTag : String := "<template><foo-bar a=\"x\"/></template>"

/-- The theorem at the second character of the hyphenated name: the start lies in the camel-case name. -/
theorem starts_touch_iff_hyphenated :
    ∃ d ∈ (build ⟨"file:///A.vue"⟩ hyphenatedTag { globalComponents := ["FooBar"] }).codeDocuments,
      ∃ m ∈ d.map.mappings, (SpanPair.mk m.mode m.source m.target) = ⟨.offset, ⟨11, 18⟩, ⟨1071, 1077⟩⟩ ∧
        ∃ start ∈ starts (build ⟨"file:///A.vue"⟩ hyphenatedTag { globalComponents := ["FooBar"] }) 12
          .references "", m.target.touches start.question.offset = true := by
  have hsize : ∀ d ∈ (build ⟨"file:///A.vue"⟩ hyphenatedTag
      { globalComponents := ["FooBar"] }).codeDocuments, d.document.size ≤ maxOffset := by decide +kernel
  have hmapping : ∃ d ∈ (build ⟨"file:///A.vue"⟩ hyphenatedTag
      { globalComponents := ["FooBar"] }).codeDocuments, ∃ m ∈ d.map.mappings,
        (SpanPair.mk m.mode m.source m.target) = ⟨.offset, ⟨11, 18⟩, ⟨1071, 1077⟩⟩ ∧
        m.data.capabilities.has .references = true ∧
        m.carry .toTarget (Span.empty 12) = some ⟨1071, 1072⟩ := by decide +kernel
  obtain ⟨d, hd, m, hm, hpair, hwanted, hcarry⟩ := hmapping
  obtain ⟨hstart, -, htouches⟩ :=
    (starts_touch_iff _ _ _ hsize 12 .references "").2 d hd m hm hwanted _ hcarry
  obtain ⟨-, hsource, htarget⟩ := SpanPair.mk.inj hpair
  exact ⟨d, hd, m, hm, hpair, _, hstart, htouches.2 (.inr (.inl (by rw [hsource, htarget]; decide)))⟩

/-- At the first character of the hyphenated name the start stands in front of the camel-case name. -/
theorem start_in_front_hyphenated :
    ∃ d ∈ (build ⟨"file:///A.vue"⟩ hyphenatedTag { globalComponents := ["FooBar"] }).codeDocuments,
      ∃ m ∈ d.map.mappings, m.pairs = [⟨.offset, ⟨11, 18⟩, ⟨1071, 1077⟩⟩] ∧
        m.data.capabilities.has .references = true ∧
        m.carry .toTarget (Span.empty 11) = some ⟨1070, 1071⟩ ∧
        startAt d m "" ⟨1070, 1071⟩ ∈ starts (build ⟨"file:///A.vue"⟩ hyphenatedTag
          { globalComponents := ["FooBar"] }) 11 .references "" ∧
        m.target.touches (startAt d m "" ⟨1070, 1071⟩).question.offset = false := by
  decide +kernel

end Service

end ComponentLens
