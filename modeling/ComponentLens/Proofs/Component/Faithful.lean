/-
# Blocks, attributes and faults stand in their file

Whatever the text of a component file is, what the split says of it can be read off the text again
(`Component.split_faithful`): contents, names and values of attributes stand at their places, the places of a
file lie one behind the other, and a fault is reported at the name of a tag.

A block carries along the place of its name, which stands right behind a `<` and in front of everything else that
the block holds (`WrittenBlock.Faithful`).  So it is enough to know that the scan goes on behind the content of a
block (`writtenBlocks_faithful`): the name of the next tag stands behind it, and all places of the next block stand
behind that name.  Which blocks are kept is decided without looking at places (`Component.content_split`).
-/
import ComponentLens.Proofs.Component.Regions
import ComponentLens.Proofs.Component.Writing
import ComponentLens.Proofs.Markup.WellPlaced

namespace ComponentLens

open Markup (LinedUp)

/-! ## 1. What is faithful -/

/-- The places of an attribute: its name, and its value without the quotes. -/
def BlockAttr.spans (a : BlockAttr) : List Span := a.nameSpan :: a.valueSpan.toList

/-- The places of the attributes of a block, in the order in which they are written. -/
def Block.attrSpans (b : Block) : List Span := b.attrs.flatMap BlockAttr.spans

/-- The name and the value of the attribute stand at their places, and it has the one with the other. -/
structure BlockAttr.Faithful (text : List Char) (a : BlockAttr) : Prop where
  name : a.nameSpan.Reads text a.name.toList
  value : Option.Rel (fun (value : String) (place : Span) => place.Reads text value.toList) a.value a.valueSpan

/-- **The block stands in the text as it says.**  Its content stands at its place, and the places of its attributes
in front of that, one behind the other. -/
structure Block.Faithful (text : List Char) (b : Block) : Prop where
  content : b.span.Reads text b.content.toList
  inside : b.span.start ≤ b.span.stop ∧ b.span.stop ≤ byteLength text
  attrs : ∀ a ∈ b.attrs, a.Faithful text
  ordered : b.attrSpans.Pairwise (·.stop ≤ ·.start)
  before : ∀ s ∈ b.attrSpans, s.stop < b.span.start

/-- The place is that of the name of a tag: it is not empty, stands right behind a `<`, and goes on as long as it
can. -/
def Span.NamesTag (text : List Char) (s : Span) : Prop :=
  ∃ front name back, text = front ++ '<' :: (name ++ back) ∧
    s = ⟨byteLength front + 1, byteLength front + 1 + byteLength name⟩ ∧
    name.head?.any Char.isAlpha = true ∧ (∀ c ∈ name, isTagNamePart c = true) ∧
    ∀ c ∈ back.head?, isTagNamePart c = false

/-- The block is faithful, and so is the place of its name; its attributes stand behind that name. -/
structure WrittenBlock.Faithful (text : List Char) (w : WrittenBlock) : Prop where
  block : w.block.Faithful text
  name : w.tagSpan.NamesTag text
  behind : w.tagSpan.start < w.block.span.start ∧ ∀ s ∈ w.block.attrSpans, w.tagSpan.start < s.start

/-- **The component is what its file says.**  Its blocks stand in the file as they say; they lie apart, and the
attributes of each lie behind the contents of those in front; stylesheets and blocks of other tags come in the order
of the file; and every fault is reported at the name of a tag. -/
structure Component.Faithful (text : List Char) (c : Component) : Prop where
  blocks : ∀ b ∈ c.blocks, b.Faithful text
  apart : c.blocks.Pairwise fun a b => a.span.stop < b.span.start ∨ b.span.stop < a.span.start
  behind : ∀ a ∈ c.blocks, ∀ b ∈ c.blocks, a.span.start < b.span.start → ∀ s ∈ b.attrSpans, a.span.stop < s.start
  styles : c.styles.Pairwise fun a b => a.span.stop < b.span.start
  customBlocks : c.customBlocks.Pairwise fun a b => a.span.stop < b.span.start
  faults : ∀ f ∈ c.faults, f.span.NamesTag text

/-! ## 2. Reading a tag -/

/-- An attribute is faithful where it is read: its name behind `before`, and its value, if it has one, in what
follows the name. -/
theorem BlockAttr.ofReading_faithful (before name rest : List Char) (value : Option ValueReading) :
    let passed := (value.map (·.passed)).getD []
    let a := BlockAttr.ofReading (byteLength before) name value
    a.Faithful (before ++ (name ++ (passed ++ rest))) ∧
      LinedUp (byteLength before) (byteLength before + byteLength name + byteLength passed) a.spans := by
  intro passed a
  have hname : a.nameSpan.Reads (before ++ (name ++ (passed ++ rest))) a.name.toList := by
    simpa [a, ofReading] using Span.reads_append before name (passed ++ rest)
  cases value with
  | none => exact ⟨⟨hname, .none⟩, .single (Nat.le_refl _) (Nat.le_add_right _ _) (Nat.le_refl _)⟩
  | some v =>
    have hvalue : (v.span (byteLength before + byteLength name)).Reads (before ++ (name ++ (passed ++ rest)))
        v.value := by
      simpa [passed] using v.reads_span (before ++ name) rest
    have hinside : byteLength before + byteLength name ≤ (v.span (byteLength before + byteLength name)).start ∧
        (v.span (byteLength before + byteLength name)).stop ≤
          byteLength before + byteLength name + byteLength passed := by
      simp only [passed, Option.map_some, Option.getD_some, ValueReading.span, ValueReading.passed,
        byteLength_append]
      omega
    refine ⟨⟨hname, .some (by simpa using hvalue)⟩, ?_⟩
    exact .cons (Nat.le_refl _) (Nat.le_add_right _ _) (.single hinside.1 hvalue.start_le_stop hinside.2)
      (Nat.le_add_right _ _)

/-- **Attributes.**  Those that are read behind `before` are faithful, and their places line up in the text that is
passed. -/
theorem readHead_faithful (pos : Nat) (cs before : List Char) (hpos : byteLength before = pos) :
    (∀ a ∈ (readHead pos cs).attrs, a.Faithful (before ++ cs)) ∧
      LinedUp pos (pos + byteLength (readHead pos cs).passed)
        ((readHead pos cs).attrs.flatMap BlockAttr.spans) := by
  fun_induction readHead pos cs generalizing before with
  | case1 => simp
  | case2 => simp
  | case3 pos c cs _ _ name after _ v h _ more ih =>
    have hcs : c :: cs = name ++ (v.passed ++ v.rest) := by
      rw [readValue?_append h]
      simp [name, after]
    obtain ⟨hattr, hplaces⟩ := BlockAttr.ofReading_faithful before name v.rest (some v)
    obtain ⟨hattrs, hline⟩ := ih (before ++ (name ++ v.passed)) (by simp [hpos, Nat.add_assoc])
    rw [hpos] at hattr hplaces
    constructor
    · rw [hcs]
      exact List.forall_mem_cons.2 ⟨hattr, by simpa using hattrs⟩
    · have hwhole := hplaces.append hline (by omega) (Nat.le_add_right _ _)
      simpa [more, Nat.add_assoc] using hwhole
  | case4 pos c cs _ _ name after _ h more ih =>
    have hcs : c :: cs = name ++ after := by simp [name, after]
    obtain ⟨hattr, hplaces⟩ := BlockAttr.ofReading_faithful before name after none
    obtain ⟨hattrs, hline⟩ := ih (before ++ name) (by simp [hpos])
    rw [hpos] at hattr hplaces
    constructor
    · rw [hcs]
      exact List.forall_mem_cons.2 ⟨hattr, by simpa using hattrs⟩
    · have hwhole := hplaces.append hline (by omega) (Nat.le_add_right _ _)
      simpa [more, Nat.add_assoc] using hwhole
  | case5 pos c cs _ _ more ih =>
    obtain ⟨hattrs, hline⟩ := ih (before ++ [c]) (by simp [hpos])
    rw [List.append_assoc] at hattrs
    refine ⟨hattrs, hline.mono (Nat.le_add_right _ _) ?_⟩
    simp only [byteLength_cons, more]
    omega

/-- The place of a name, and what stands in front of the content. -/
theorem WrittenBlock.read?_front {pos stop : Nat} {cs rest : List Char} {w : WrittenBlock}
    (h : WrittenBlock.read? pos cs = some (w, stop, rest)) :
    let name := cs.takeWhile isTagNamePart
    let head := readHead (pos + name.length) (cs.dropWhile isTagNamePart)
    name.head?.any Char.isAlpha = true ∧ w.tagSpan = ⟨pos, pos + name.length⟩ ∧ w.block.attrs = head.attrs ∧
      w.block.span.start = pos + name.length + byteLength head.passed + 1 := by
  intro name head
  unfold WrittenBlock.read? at h
  dsimp only at h
  split at h
  · cases h
  next c after _ =>
    split at h
    next hletter =>
      have hplace := WrittenBlock.ofHead_place pos name head (pos + name.length + byteLength head.passed + 1) after
      have htag : (WrittenBlock.ofHead pos name head (pos + name.length + byteLength head.passed + 1) after).1.tagSpan =
          ⟨pos, pos + name.length⟩ := by
        unfold WrittenBlock.ofHead
        split
        · rfl
        · rfl
      rw [Option.some.inj h] at hplace htag
      exact ⟨hletter, htag, hplace.1, hplace.2.1⟩
    next => cases h

/-- **One block.**  The block behind a `<` is faithful, and the scan goes on behind its content. -/
theorem WrittenBlock.read?_faithful {front cs rest : List Char} {w : WrittenBlock} {stop : Nat}
    (h : WrittenBlock.read? (byteLength (front ++ ['<'])) cs = some (w, stop, rest)) :
    w.Faithful (front ++ '<' :: cs) ∧ w.tagSpan.start = byteLength front + 1 ∧ w.block.span.stop ≤ stop := by
  have hopen : byteLength (front ++ ['<']) = byteLength front + 1 := by
    have hsize : '<'.utf8Size = 1 := rfl
    simp [hsize]
  obtain ⟨-, -, -, hcontent⟩ := WrittenBlock.read?_spec h
  rw [hopen] at h
  obtain ⟨-, hstop⟩ := WrittenBlock.read?_behind h (Nat.lt_succ_self _)
  obtain ⟨hletter, htag, hattrs, hstart⟩ := WrittenBlock.read?_front h
  have hlength := byteLength_tagName cs
  have hname := List.takeWhile_append_dropWhile (p := isTagNamePart) (l := cs)
  have hends : ∀ c ∈ (cs.dropWhile isTagNamePart).head?, isTagNamePart c = false := by
    intro c hc
    have hnot := List.head?_dropWhile_not isTagNamePart cs
    rwa [Option.mem_def.1 hc] at hnot
  have hparts : ∀ c ∈ cs.takeWhile isTagNamePart, isTagNamePart c = true := fun c => List.mem_takeWhile_imp
  generalize cs.takeWhile isTagNamePart = name at hletter htag hattrs hstart hlength hname hparts
  generalize cs.dropWhile isTagNamePart = behind at hattrs hstart hname hends
  subst hname
  obtain ⟨hfaithful, hline⟩ := readHead_faithful (byteLength front + 1 + name.length) behind
    (front ++ '<' :: name) (by rw [← hlength, ← hopen]; simp [Nat.add_assoc])
  rw [← hattrs] at hfaithful hline
  have hne : 0 < name.length := by
    rw [List.length_pos_iff]
    rintro rfl
    simp at hletter
  have hspans : ∀ s ∈ w.block.attrSpans, byteLength front + 1 < s.start ∧ s.stop < w.block.span.start := by
    intro s hs
    have := hline.inside s hs
    omega
  rw [List.append_assoc] at hcontent
  refine ⟨⟨⟨hcontent, ⟨hcontent.start_le_stop, hcontent.isBoundary_stop.le_byteLength⟩, ?_, hline.order,
    fun s hs => (hspans s hs).2⟩, ?_, ?_⟩, by rw [htag], hstop⟩
  · simpa using hfaithful
  · exact ⟨front, name, behind, rfl, by rw [htag, hlength], hletter, hparts, hends⟩
  · rw [htag]
    exact ⟨by simp only; omega, fun s hs => (hspans s hs).1⟩

/-! ## 3. Scanning a file -/

/-- The second block starts behind the content of the first. -/
def WrittenBlock.Follows (w v : WrittenBlock) : Prop := v.block.span.stop < w.tagSpan.start

/-- **The blocks of a text** are faithful, and each starts behind the content of those in front. -/
theorem writtenBlocks_faithful (pos : Nat) (cs before : List Char) (hpos : byteLength before = pos) :
    (∀ w ∈ writtenBlocks pos cs, w.Faithful (before ++ cs) ∧ pos < w.tagSpan.start) ∧
      (writtenBlocks pos cs).Pairwise fun v w => w.Follows v := by
  fun_induction writtenBlocks pos cs generalizing before with
  | case1 => simp
  | case2 pos c cs hlt hopen body comment _ ih =>
    obtain rfl : c = '<' := by simpa using hlt
    rcases comment_passed hopen before with hnil | ⟨passed, hcs, hlength⟩
    · rw [hnil]
      simp [writtenBlocks]
    · obtain ⟨hws, hfollow⟩ := ih passed (by rw [hlength, hpos])
      rw [hcs]
      exact ⟨fun w hw => ⟨(hws w hw).1, Nat.lt_of_le_of_lt (by omega) (hws w hw).2⟩, hfollow⟩
  | case3 pos c cs hlt _ v stop rest hread _ ih =>
    obtain rfl : c = '<' := by simpa using hlt
    have hstep : byteLength (before ++ ['<']) = pos + 1 := by
      have hsize : '<'.utf8Size = 1 := rfl
      simp [hsize, hpos]
    rw [← hstep] at hread
    obtain ⟨hv, htag, hstop⟩ := WrittenBlock.read?_faithful hread
    obtain ⟨passed, hcs, hlength, -⟩ := WrittenBlock.read?_spec hread
    obtain ⟨hws, hfollow⟩ := ih passed hlength
    rw [← hcs, List.append_assoc] at hws
    have hle : pos ≤ stop := by
      have hcontent := hv.block.inside
      have hbehind := hv.behind
      omega
    refine ⟨List.forall_mem_cons.2 ⟨⟨hv, by omega⟩, fun w hw => ⟨(hws w hw).1, ?_⟩⟩,
      List.pairwise_cons.2 ⟨fun w hw => ?_, hfollow⟩⟩
    · exact Nat.lt_of_le_of_lt hle (hws w hw).2
    · exact Nat.lt_of_le_of_lt hstop (hws w hw).2
  | case4 pos c cs hlt _ _ ih =>
    obtain rfl : c = '<' := by simpa using hlt
    have hsize : '<'.utf8Size = 1 := rfl
    obtain ⟨hws, hfollow⟩ := ih (before ++ ['<']) (by simp [hsize, hpos])
    rw [List.append_assoc] at hws
    exact ⟨fun w hw => ⟨(hws w hw).1, Nat.lt_of_succ_lt (hws w hw).2⟩, hfollow⟩
  | case5 pos c cs _ ih =>
    obtain ⟨hws, hfollow⟩ := ih (before ++ [c]) (by simp [hpos])
    rw [List.append_assoc] at hws
    exact ⟨fun w hw => ⟨(hws w hw).1, Nat.lt_of_le_of_lt (Nat.le_add_right _ _) (hws w hw).2⟩, hfollow⟩

/-! ## 4. Keeping blocks -/

/-- The component without its faults. -/
def Component.content (c : Component) : Component := { c with faults := [] }

/-- Where a block goes does not depend on the faults in front of it. -/
theorem Component.content_insert (c : Component) (w : WrittenBlock) :
    (c.insert w).content = (c.content.insert w).content := by
  obtain ⟨template, script, scriptSetup, styles, customBlocks, faults⟩ := c
  unfold Component.insert
  split
  · cases template <;> rfl
  · split
    · cases scriptSetup <;> rfl
    · cases script <;> rfl
  · rfl
  · rfl

theorem Component.content_noteEnd (c : Component) (w : WrittenBlock) : (c.noteEnd w).content = c.content := by
  unfold Component.noteEnd
  split
  · rfl
  · rfl

/-- **The blocks that are kept** are the first of each kind that may stand only once, and all others in order. -/
theorem Component.content_split (source : String) :
    (Component.split source).content = (Component.sorted (writtenBlocks 0 source.toList)).content := by
  have hfold : ∀ (ws earlier : List WrittenBlock) (c : Component), c.content = (Component.sorted earlier).content →
      (ws.foldl (fun c w => (c.noteEnd w).insert w) c).content = (Component.sorted (earlier ++ ws)).content := by
    intro ws
    induction ws with
    | nil =>
      intro earlier c h
      rwa [List.append_nil]
    | cons w ws ih =>
      intro earlier c h
      rw [List.foldl_cons, ← List.singleton_append, ← List.append_assoc]
      refine ih _ _ ?_
      rw [Component.content_insert, Component.content_noteEnd, h, ← Component.content_insert,
        Component.insert_sorted]
  exact hfold _ [] {} rfl

/-! ## 5. Components -/

theorem Block.Apart.span {a b : Block} (h : a.Apart b) : a.span.stop < b.span.start ∨ b.span.stop < a.span.start :=
  h.imp And.left And.left

/-- Of two blocks of a file, the content of one ends before the name of the other. -/
theorem follows_or_follows {ws : List WrittenBlock} (h : ws.Pairwise fun v w => w.Follows v) {v w : WrittenBlock}
    (hv : v ∈ ws) (hw : w ∈ ws) (hne : v ≠ w) : w.Follows v ∨ v.Follows w := by
  have hsymm : Std.Symm fun v w : WrittenBlock => w.Follows v ∨ v.Follows w := ⟨fun _ _ => Or.symm⟩
  exact (h.imp fun h => Or.inl h).forall hv hw hne

/-- **The split is faithful**, whatever the text of the file is. -/
theorem Component.split_faithful (source : String) : (Component.split source).Faithful source.toList := by
  let c := Component.split source
  obtain ⟨hws, hfollow⟩ := writtenBlocks_faithful 0 source.toList [] rfl
  have hkept : ∀ b ∈ c.blocks, ∃ w ∈ writtenBlocks 0 source.toList, b = w.block := fun b hb =>
    (Component.foldl_insert_blocks hb).resolve_left (by simp [Component.blocks])
  have hcontent : c.content = (Component.sorted (writtenBlocks 0 source.toList)).content :=
    Component.content_split source
  have hordered : ((writtenBlocks 0 source.toList).map (·.block)).Pairwise
      fun a b => a.span.stop < b.span.start := by
    refine List.pairwise_map.2 (hfollow.imp_of_mem fun {v w} _ hw h => ?_)
    exact Nat.lt_trans h (hws w hw).1.behind.1
  refine ⟨?_, (Component.split_apart source).1.imp Block.Apart.span, ?_, ?_, ?_, ?_⟩
  · intro b hb
    obtain ⟨w, hw, rfl⟩ := hkept b hb
    exact (hws w hw).1.block
  · intro a ha b hb hlt s hs
    obtain ⟨v, hv, rfl⟩ := hkept a ha
    obtain ⟨w, hw, rfl⟩ := hkept b hb
    have hne : v ≠ w := by
      rintro rfl
      exact Nat.lt_irrefl _ hlt
    rcases follows_or_follows hfollow hv hw hne with h | h
    · exact Nat.lt_trans h ((hws w hw).1.behind.2 s hs)
    · -- the other way round, the second block would start first
      have hfront := (hws v hv).1.behind.1
      have hinside := (hws w hw).1.block.inside.1
      unfold WrittenBlock.Follows at h
      omega
  · have hstyles := congrArg Component.styles hcontent
    rw [show c.styles = _ from hstyles]
    exact hordered.filter _
  · have hothers := congrArg Component.customBlocks hcontent
    rw [show c.customBlocks = _ from hothers]
    exact hordered.filter _
  · intro f hf
    obtain ⟨w, hw, ⟨-, name, rfl⟩ | ⟨kind, rfl⟩⟩ := (Component.foldl_insert_faults hf).resolve_left (by simp)
    · exact (hws w hw).1.name
    · exact (hws w hw).1.name

end ComponentLens
