/-
# The regions of a component file

A mapping of a code document names the region that it leads to.  Four regions are contents of blocks; the
fifth is the value of the `src` attribute of the script block, which stands in its opening tag.  The regions
lie apart even if their ends count (`regions_pairwise`): behind every content there is a closing tag, the
bracket of the next opening tag, or nothing, and between an attribute and the content stands at least a
bracket.  So a cursor touches one region at most.

The scan finds the blocks one behind the other (`writtenBlocks_pairwise`), and the split puts each of them in
one place, or leaves it out (`Component.insert_perm`).
-/
import Mathlib.Data.List.Pairwise
import ComponentLens.Mapping.Payload
import ComponentLens.Proofs.Component.Blocks

namespace ComponentLens

/-! ## 1. One block -/

/-- The places of the attribute values of a block, with their quotes. -/
def Block.quotedSpans (b : Block) : List Span := b.attrs.filterMap (·.quotedSpan)

/-- The block lies behind an offset: the values of its attributes, then a bracket, then its content. -/
structure Block.Behind (pos : Nat) (b : Block) : Prop where
  start : pos < b.span.start
  start_le_stop : b.span.start ≤ b.span.stop
  values : ∀ q ∈ b.quotedSpans, pos < q.start ∧ q.start ≤ q.stop ∧ q.stop < b.span.start

theorem Block.Behind.mono {pos earlier : Nat} {b : Block} (h : b.Behind pos) (hle : earlier ≤ pos) :
    b.Behind earlier where
  start := Nat.lt_of_le_of_lt hle h.start
  start_le_stop := h.start_le_stop
  values q hq := by
    obtain ⟨hstart, hq⟩ := h.values q hq
    exact ⟨Nat.lt_of_le_of_lt hle hstart, hq⟩

theorem ValueReading.quotedSpan_le (v : ValueReading) (pos : Nat) :
    pos ≤ (v.quotedSpan pos).start ∧ (v.quotedSpan pos).start ≤ (v.quotedSpan pos).stop ∧
      (v.quotedSpan pos).stop ≤ pos + byteLength v.passed := by
  simp only [quotedSpan, passed, byteLength_append]
  omega

/-- The values stand in the text that the tag is read from. -/
theorem readHead_quotedSpan (pos : Nat) (cs : List Char) :
    ∀ a ∈ (readHead pos cs).attrs, ∀ q ∈ a.quotedSpan,
      pos ≤ q.start ∧ q.start ≤ q.stop ∧ q.stop ≤ pos + byteLength (readHead pos cs).passed := by
  fun_induction readHead pos cs with
  | case1 => simp
  | case2 => simp
  | case3 pos c cs _ _ name after _ v h _ more ih =>
    intro a ha q hq
    simp only [byteLength_append]
    rcases List.mem_cons.1 ha with rfl | ha
    · obtain rfl : v.quotedSpan (pos + byteLength name) = q := Option.some.inj hq
      have hv := v.quotedSpan_le (pos + byteLength name)
      omega
    · have htail := ih a ha q hq
      simp only [more]
      omega
  | case4 pos c cs _ _ name after _ h more ih =>
    intro a ha q hq
    simp only [byteLength_append]
    rcases List.mem_cons.1 ha with rfl | ha
    · cases hq
    · have htail := ih a ha q hq
      simp only [more]
      omega
  | case5 pos c cs _ _ more ih =>
    intro a ha q hq
    have htail := ih a ha q hq
    simp only [byteLength_cons, more]
    omega

theorem WrittenBlock.ofHead_place (pos : Nat) (name : List Char) (head : HeadReading) (start : Nat)
    (cs : List Char) :
    (WrittenBlock.ofHead pos name head start cs).1.block.attrs = head.attrs ∧
      (WrittenBlock.ofHead pos name head start cs).1.block.span.start = start ∧
      start ≤ (WrittenBlock.ofHead pos name head start cs).1.block.span.stop ∧
      (WrittenBlock.ofHead pos name head start cs).1.block.span.stop ≤
        (WrittenBlock.ofHead pos name head start cs).2.1 := by
  unfold WrittenBlock.ofHead
  dsimp only
  split
  · exact ⟨rfl, rfl, Nat.le_refl _, Nat.le_refl _⟩
  · exact ⟨rfl, rfl, Nat.le_add_right _ _, Nat.le_add_right _ _⟩

/-- A block that is read at an offset lies behind every earlier one, and the scan goes on behind its content. -/
theorem WrittenBlock.read?_behind {pos stop before : Nat} {cs rest : List Char} {w : WrittenBlock}
    (h : WrittenBlock.read? pos cs = some (w, stop, rest)) (hbefore : before < pos) :
    w.block.Behind before ∧ w.block.span.stop ≤ stop := by
  unfold WrittenBlock.read? at h
  dsimp only at h
  split at h
  · simp at h
  next c after hrest =>
    split at h
    next =>
      have hvalues := readHead_quotedSpan (pos + (cs.takeWhile isTagNamePart).length)
        (cs.dropWhile isTagNamePart)
      generalize readHead (pos + (cs.takeWhile isTagNamePart).length) (cs.dropWhile isTagNamePart) = head
        at h hvalues
      have hplace := WrittenBlock.ofHead_place pos (cs.takeWhile isTagNamePart) head
        (pos + (cs.takeWhile isTagNamePart).length + byteLength head.passed + 1) after
      rw [Option.some.inj h] at hplace
      dsimp only at hplace
      obtain ⟨hattrs, hstart, hle, hstop⟩ := hplace
      refine ⟨⟨by omega, by omega, fun q hq => ?_⟩, hstop⟩
      obtain ⟨a, ha, hq⟩ := List.mem_filterMap.1 hq
      have hvalue := hvalues a (hattrs ▸ ha) q hq
      omega
    · simp at h

/-! ## 2. All blocks -/

/-- The second block starts behind the content of the first. -/
def Block.Precedes (a b : Block) : Prop :=
  a.span.stop < b.span.start ∧ ∀ q ∈ b.quotedSpans, a.span.stop < q.start

theorem Block.Behind.precedes {a b : Block} {pos : Nat} (h : b.Behind pos) (hstop : a.span.stop ≤ pos) :
    a.Precedes b :=
  ⟨Nat.lt_of_le_of_lt hstop h.start, fun q hq => Nat.lt_of_le_of_lt hstop (h.values q hq).1⟩

/-- **The blocks of a text lie one behind the other.** -/
theorem writtenBlocks_pairwise (pos : Nat) (cs : List Char) :
    (∀ w ∈ writtenBlocks pos cs, w.block.Behind pos) ∧
      (writtenBlocks pos cs).Pairwise fun v w => v.block.Precedes w.block := by
  fun_induction writtenBlocks pos cs with
  | case1 => simp
  | case2 pos c cs _ _ body comment _ ih =>
    exact ⟨fun w hw => (ih.1 w hw).mono (by omega), ih.2⟩
  | case3 pos c cs _ _ v stop rest hread _ ih =>
    obtain ⟨hbehind, hstop⟩ := WrittenBlock.read?_behind hread (Nat.lt_succ_self pos)
    have hle : pos ≤ stop := by
      have hstart := hbehind.start
      have hcontent := hbehind.start_le_stop
      omega
    refine ⟨fun w hw => ?_, List.pairwise_cons.2 ⟨fun w hw => (ih.1 w hw).precedes hstop, ih.2⟩⟩
    rcases List.mem_cons.1 hw with rfl | hw
    · exact hbehind
    · exact (ih.1 w hw).mono hle
  | case4 pos c cs _ _ _ ih => exact ⟨fun w hw => (ih.1 w hw).mono (by omega), ih.2⟩
  | case5 pos c cs _ ih => exact ⟨fun w hw => (ih.1 w hw).mono (by omega), ih.2⟩

/-- One of the blocks precedes the other. -/
def Block.Apart (a b : Block) : Prop := a.Precedes b ∨ b.Precedes a

theorem Block.Apart.symm {a b : Block} (h : a.Apart b) : b.Apart a := Or.symm h

/-- Putting a block in its place adds it to the blocks, or leaves it out. -/
theorem Component.insert_perm (c : Component) (w : WrittenBlock) :
    (c.insert w).blocks = c.blocks ∨ (c.insert w).blocks.Perm (w.block :: c.blocks) := by
  unfold Component.insert
  dsimp only
  -- one case for each tag, and in it one for a block of its kind that is there already
  split
  · split
    · exact .inl rfl
    next hnone =>
      have hnone : c.template = none := by simpa using hnone
      exact .inr (by simp [Component.blocks, hnone])
  · split
    · split
      · exact .inl rfl
      next hnone =>
        have hnone : c.scriptSetup = none := by simpa using hnone
        have hmiddle := @List.perm_middle _ w.block (c.template.toList ++ c.script.toList)
          (c.styles ++ c.customBlocks)
        exact .inr (by simpa [Component.blocks, hnone] using hmiddle)
    · split
      · exact .inl rfl
      next hnone =>
        have hnone : c.script = none := by simpa using hnone
        exact .inr (by simp [Component.blocks, hnone])
  · have hmiddle := @List.perm_middle _ w.block
      (c.template.toList ++ (c.script.toList ++ (c.scriptSetup.toList ++ c.styles))) c.customBlocks
    exact .inr (by simpa [Component.blocks] using hmiddle)
  · have hmiddle := @List.perm_middle _ w.block
      (c.template.toList ++ (c.script.toList ++ (c.scriptSetup.toList ++ (c.styles ++ c.customBlocks)))) []
    exact .inr (by simpa [Component.blocks] using hmiddle)

/-- The blocks stay apart as long as those to come lie behind those in place, one behind the other. -/
theorem Component.foldl_insert_apart {ws : List WrittenBlock} {c : Component}
    (hblocks : c.blocks.Pairwise Block.Apart) (hbefore : ∀ b ∈ c.blocks, ∀ w ∈ ws, b.Precedes w.block)
    (hws : ws.Pairwise fun v w => v.block.Precedes w.block) :
    (ws.foldl (fun c w => (c.noteEnd w).insert w) c).blocks.Pairwise Block.Apart := by
  induction ws generalizing c with
  | nil => exact hblocks
  | cons w ws ih =>
    obtain ⟨hw, hws⟩ := List.pairwise_cons.1 hws
    have hbefore' : ∀ b ∈ c.blocks, ∀ v ∈ ws, b.Precedes v.block := fun b hb v hv =>
      hbefore b hb v (List.mem_cons_of_mem _ hv)
    rw [List.foldl_cons]
    rcases Component.insert_perm (c.noteEnd w) w with heq | hperm
    · rw [Component.noteEnd_blocks] at heq
      refine ih (heq ▸ hblocks) ?_ hws
      rw [heq]
      exact hbefore'
    · rw [Component.noteEnd_blocks] at hperm
      refine ih ((hperm.pairwise_iff fun h => h.symm).2 (List.pairwise_cons.2 ⟨fun b hb => ?_, hblocks⟩))
        (fun b hb v hv => ?_) hws
      · exact .inr (hbefore b hb w List.mem_cons_self)
      · rcases List.mem_cons.1 (hperm.mem_iff.1 hb) with rfl | hb
        · exact hw v hv
        · exact hbefore' b hb v hv

/-- **The blocks of a component lie apart.** -/
theorem Component.split_apart (source : String) :
    (Component.split source).blocks.Pairwise Block.Apart ∧
      ∀ b ∈ (Component.split source).blocks, b.Behind 0 := by
  obtain ⟨hbehind, hpairwise⟩ := writtenBlocks_pairwise 0 source.toList
  refine ⟨Component.foldl_insert_apart List.Pairwise.nil (fun b hb => by cases hb) hpairwise, ?_⟩
  intro b hb
  rcases Component.foldl_insert_blocks hb with hb | ⟨w, hw, rfl⟩
  · cases hb
  · exact hbehind w hw

/-! ## 3. Regions -/

/-- The blocks that a code document leads to, each with the region that its content is. -/
def Component.regionBlocks (c : Component) : List (Region × Block) :=
  c.template.toList.map (Region.template, ·) ++ c.script.toList.map (Region.script, ·) ++
    c.scriptSetup.toList.map (Region.scriptSetup, ·) ++ c.styles.map (Region.style, ·)

/-- The place of the file that a block takes its content from, with its quotes. -/
def Block.sourceSpan? (b : Block) : Option Span := (b.attr? "src").bind (·.quotedSpan)

/-- The regions of a block: its content and, for the script block, the value of its `src` attribute. -/
def Block.regions (region : Region) (b : Block) : List (Region × Span) :=
  (region, b.span) ::
    if region = .script then b.sourceSpan?.toList.map (Region.scriptSource, ·) else []

/-- The regions that a mapping of a code document can lead to. -/
def Component.regions (c : Component) : List (Region × Span) :=
  c.regionBlocks.flatMap fun (region, b) => b.regions region

/-- What the regions are: the contents of the blocks that are kept, and the value of the `src` attribute of the
script block. -/
theorem Component.mem_regions {c : Component} {region : Region} {place : Span} :
    (region, place) ∈ c.regions ↔
      match region with
      | .template => ∃ b ∈ c.template, place = b.span
      | .script => ∃ b ∈ c.script, place = b.span
      | .scriptSetup => ∃ b ∈ c.scriptSetup, place = b.span
      | .style => ∃ b ∈ c.styles, place = b.span
      | .scriptSource => ∃ b ∈ c.script, b.sourceSpan? = some place := by
  cases region <;> simp [Component.regions, Component.regionBlocks, Block.regions]

/-- No cursor touches both spans. -/
def Span.ApartFrom (s t : Span) : Prop := ∀ n, ¬(s.touches n = true ∧ t.touches n = true)

theorem Span.apartFrom_of_lt {s t : Span} (h : s.stop < t.start) : s.ApartFrom t := by
  intro n hn
  simp only [touches, Bool.and_eq_true, decide_eq_true_eq] at hn
  omega

theorem Span.ApartFrom.symm {s t : Span} (h : s.ApartFrom t) : t.ApartFrom s := fun n hn => h n hn.symm

theorem Component.map_regionBlocks (c : Component) :
    c.regionBlocks.map (·.2) ++ c.customBlocks = c.blocks := by
  simp [Component.regionBlocks, Component.blocks, Function.comp_def]

theorem Block.sourceSpan?_mem {b : Block} {q : Span} (h : b.sourceSpan? = some q) : q ∈ b.quotedSpans := by
  obtain ⟨a, ha, hq⟩ := Option.bind_eq_some_iff.1 h
  exact List.mem_filterMap.2 ⟨a, List.mem_of_find?_eq_some ha, hq⟩

/-- A region of a block is its content or the value of an attribute. -/
theorem Block.mem_regions {b : Block} {region : Region} {r : Region × Span} (h : r ∈ b.regions region) :
    r.2 = b.span ∨ r.2 ∈ b.quotedSpans := by
  rcases List.mem_cons.1 h with rfl | h
  · exact .inl rfl
  · split at h
    · obtain ⟨q, hq, rfl⟩ := List.mem_map.1 h
      exact .inr (sourceSpan?_mem (Option.mem_toList.1 hq))
    · cases h

theorem Block.Precedes.regions {a b : Block} (h : a.Precedes b) (ha : a.Behind 0) {r s : Span}
    (hr : r = a.span ∨ r ∈ a.quotedSpans) (hs : s = b.span ∨ s ∈ b.quotedSpans) : r.ApartFrom s := by
  have hstop : r.stop ≤ a.span.stop := by
    rcases hr with rfl | hr
    · exact Nat.le_refl _
    · have hvalue := ha.values r hr
      have hcontent := ha.start_le_stop
      omega
  refine Span.apartFrom_of_lt (Nat.lt_of_le_of_lt hstop ?_)
  rcases hs with rfl | hs
  · exact h.1
  · exact h.2 s hs

theorem Block.regions_pairwise {b : Block} (hb : b.Behind 0) (region : Region) :
    (b.regions region).Pairwise fun r s => r.2.ApartFrom s.2 := by
  unfold Block.regions
  split
  · refine List.pairwise_cons.2 ⟨fun r hr => ?_, ?_⟩
    · obtain ⟨q, hq, rfl⟩ := List.mem_map.1 hr
      have hvalue := hb.values q (sourceSpan?_mem (Option.mem_toList.1 hq))
      exact (Span.apartFrom_of_lt hvalue.2.2).symm
    · cases b.sourceSpan? with
      | none => exact List.Pairwise.nil
      | some q => exact List.pairwise_singleton _ _
  · exact List.pairwise_singleton _ _

/-- **The regions of a component lie apart**, even if their ends count. -/
theorem Component.regions_pairwise (source : String) :
    (Component.split source).regions.Pairwise fun r s => r.2.ApartFrom s.2 := by
  obtain ⟨hapart, hbehind⟩ := Component.split_apart source
  rw [← Component.map_regionBlocks] at hapart hbehind
  have hbehind : ∀ r ∈ (Component.split source).regionBlocks, r.2.Behind 0 := fun r hr =>
    hbehind r.2 (List.mem_append_left _ (List.mem_map_of_mem hr))
  have hapart := List.pairwise_map.1 (List.pairwise_append.1 hapart).1
  refine List.pairwise_flatMap.2 ⟨fun r hr => Block.regions_pairwise (hbehind r hr) r.1, ?_⟩
  refine hapart.imp_of_mem fun {a b} ha hb h r hr s hs => ?_
  rcases h with h | h
  · exact h.regions (hbehind a ha) (Block.mem_regions hr) (Block.mem_regions hs)
  · exact (h.regions (hbehind b hb) (Block.mem_regions hs) (Block.mem_regions hr)).symm

/-- A cursor touches one region at most. -/
theorem Component.region_unique {source : String} {r s : Region × Span}
    (hr : r ∈ (Component.split source).regions) (hs : s ∈ (Component.split source).regions) {offset : Nat}
    (hroffset : r.2.touches offset = true) (hsoffset : s.2.touches offset = true) : r = s := by
  have hsymm : Std.Symm fun r s : Region × Span => r.2.ApartFrom s.2 := ⟨fun _ _ h => h.symm⟩
  by_contra hne
  exact (Component.regions_pairwise source).forall hr hs hne offset ⟨hroffset, hsoffset⟩

end ComponentLens
