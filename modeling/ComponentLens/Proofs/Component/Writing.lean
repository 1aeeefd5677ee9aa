/-
# Splitting undoes writing

A `FileText` is a component file as somebody writes it: blocks with a tag, attributes and content, and text
without `<` around them.  `FileText.render` writes it down, and `FileText.placed` is what stands there, each
block with the places of its names, values and content.  Splitting the file gives these blocks back, each in
its place (`Component.split_render`).

The content of a block is arbitrary but for its own closing tag, and in a template for the opening tag of
another one.  So the one argument about contents is that no tag starts inside of it and ends behind it
(`readBody_content`): a tag name holds no `<`, so a match that starts in the content ends there.

`Component.sorted` says where blocks belong without a fold: the first of its kind, or all of them in order.
Inserting one more block at the end of a list is one step of it (`Component.insert_sorted`).
-/
import Mathlib.Data.List.TakeWhile
import Mathlib.Tactic.MkIffOfInductiveProp
import ComponentLens.Proofs.Component.Blocks
import ComponentLens.Proofs.Markup.Rendering

namespace ComponentLens

/-! ## 1. Component files as they are written -/

/-- A value in double quotes, with the white space on the two sides of the equals sign. -/
structure ValueText where
  before : List Char
  behind : List Char
  content : List Char

/-- An attribute, with the white space in front of it. -/
structure AttrText where
  gap : List Char
  name : List Char
  value : Option ValueText

/-- A block: its tag, its attributes, the white space in front of the bracket, its content, and the name in
its closing tag. -/
structure BlockText where
  tag : List Char
  attrs : List AttrText
  gap : List Char
  content : List Char
  closing : List Char

/-- A component file: its blocks, each with the text in front of it, and the text behind the last one. -/
structure FileText where
  blocks : List (List Char × BlockText)
  tail : List Char

/-- The equals sign with its white space. -/
def ValueText.lead (v : ValueText) : List Char := v.before ++ '=' :: v.behind

/-- The value as it is written behind a name. -/
def ValueText.render (v : ValueText) : List Char := v.lead ++ '"' :: (v.content ++ ['"'])

/-- The attribute as it is written. -/
def AttrText.render (a : AttrText) : List Char := a.gap ++ (a.name ++ a.value.elim [] (·.render))

/-- The attributes of a tag as they are written. -/
def renderAttrs (as : List AttrText) : List Char := as.flatMap (·.render)

/-- The attributes and the white space in front of the bracket. -/
def BlockText.head (b : BlockText) : List Char := renderAttrs b.attrs ++ b.gap

/-- The opening tag. -/
def BlockText.opening (b : BlockText) : List Char := '<' :: (b.tag ++ (b.head ++ ['>']))

/-- The block as it is written. -/
def BlockText.render (b : BlockText) : List Char :=
  b.opening ++ (b.content ++ '<' :: '/' :: (b.closing ++ ['>']))

/-- Blocks and the texts in front of them as they are written. -/
def renderBlocks (bs : List (List Char × BlockText)) : List Char := bs.flatMap fun b => b.1 ++ b.2.render

/-- The file as it is written. -/
def FileText.render (f : FileText) : List Char := renderBlocks f.blocks ++ f.tail

/-! ## 2. What stands there -/

/-- The place of the value behind a name that ends at `stop`. -/
def ValueText.span (stop : Nat) (v : ValueText) : Span :=
  let start := stop + byteLength v.lead + 1
  ⟨start, start + byteLength v.content⟩

/-- The place of the value with its quotes. -/
def ValueText.quotedSpan (stop : Nat) (v : ValueText) : Span :=
  ⟨stop + byteLength v.lead, stop + byteLength v.render⟩

/-- The attribute that is written at an offset. -/
def AttrText.placed (pos : Nat) (a : AttrText) : BlockAttr :=
  let start := pos + byteLength a.gap
  let stop := start + byteLength a.name
  { name := String.ofList a.name
    value := a.value.map (String.ofList ·.content)
    nameSpan := ⟨start, stop⟩
    valueSpan := a.value.map (·.span stop)
    quotedSpan := a.value.map (·.quotedSpan stop) }

/-- The attributes that are written from an offset on. -/
def placedAttrs (pos : Nat) : List AttrText → List BlockAttr
  | [] => []
  | a :: as => a.placed pos :: placedAttrs (pos + byteLength a.render) as

/-- The block that is written at an offset. -/
def BlockText.placed (pos : Nat) (b : BlockText) : WrittenBlock :=
  let nameStop := pos + 1 + byteLength b.tag
  let start := pos + byteLength b.opening
  { block :=
      { tag := String.ofList (b.tag.map Char.toLower)
        content := String.ofList b.content
        span := ⟨start, start + byteLength b.content⟩
        attrs := placedAttrs nameStop b.attrs }
    tagSpan := ⟨pos + 1, nameStop⟩
    isClosed := true }

/-- The blocks that are written from an offset on. -/
def placedBlocks (pos : Nat) : List (List Char × BlockText) → List WrittenBlock
  | [] => []
  | (separator, b) :: bs =>
    let start := pos + byteLength separator
    b.placed start :: placedBlocks (start + byteLength b.render) bs

/-- The blocks of the file, in order. -/
def FileText.placed (f : FileText) : List WrittenBlock := placedBlocks 0 f.blocks

/-! ## 3. Files that can be written down -/

/-- The value can be written down. -/
@[mk_iff]
structure ValueText.WellFormed (v : ValueText) : Prop where
  before : ∀ c ∈ v.before, isTagSpace c = true
  behind : ∀ c ∈ v.behind, isTagSpace c = true
  content : '"' ∉ v.content

/-- The attribute can be written down. -/
@[mk_iff]
structure AttrText.WellFormed (a : AttrText) : Prop where
  gap : ∀ c ∈ a.gap, isTagSpace c = true
  gap_ne_nil : a.gap ≠ []
  name : ∀ c ∈ a.name, isAttrNamePart c = true
  name_ne_nil : a.name ≠ []
  value : ∀ v ∈ a.value, v.WellFormed

/-- Whether the text holds the mark, letter case of ASCII letters aside. -/
def Mentions (mark cs : List Char) : Prop := mark.map Char.toLower <:+: cs.map Char.toLower

instance (mark cs : List Char) : Decidable (Mentions mark cs) :=
  List.instDecidableIsInfixOfDecidableEq _ _

/-- The block can be written down: its content holds no closing tag of its name, and the content of a
template no opening one. -/
@[mk_iff]
structure BlockText.WellFormed (b : BlockText) : Prop where
  first : b.tag.head?.any Char.isAlpha = true
  tag : ∀ c ∈ b.tag, isTagNamePart c = true
  attrs : ∀ a ∈ b.attrs, a.WellFormed
  gap : ∀ c ∈ b.gap, isTagSpace c = true
  closing : b.closing.map Char.toLower = b.tag.map Char.toLower
  ends : ¬ Mentions ('<' :: '/' :: b.tag) b.content
  nests : b.tag.map Char.toLower = "template".toList → ¬ Mentions ('<' :: b.tag) b.content

/-- The opening tag of the block can be written down. -/
structure BlockText.Opens (b : BlockText) : Prop where
  first : b.tag.head?.any Char.isAlpha = true
  tag : ∀ c ∈ b.tag, isTagNamePart c = true
  attrs : ∀ a ∈ b.attrs, a.WellFormed
  gap : ∀ c ∈ b.gap, isTagSpace c = true

theorem BlockText.WellFormed.opens {b : BlockText} (h : b.WellFormed) : b.Opens :=
  ⟨h.first, h.tag, h.attrs, h.gap⟩

/-- The file can be written down. -/
@[mk_iff]
structure FileText.WellFormed (f : FileText) : Prop where
  separators : ∀ b ∈ f.blocks, '<' ∉ b.1
  blocks : ∀ b ∈ f.blocks, b.2.WellFormed
  tail : '<' ∉ f.tail

/-- A text is looked through, and not the characters that there are. -/
instance decidableForallMem (p : Char → Bool) (cs : List Char) : Decidable (∀ c ∈ cs, p c = true) :=
  List.decidableBAll _ _

instance (v : ValueText) : Decidable v.WellFormed := decidable_of_iff' _ v.wellFormed_iff

instance (a : AttrText) : Decidable a.WellFormed := decidable_of_iff' _ a.wellFormed_iff

instance (b : BlockText) : Decidable b.WellFormed := decidable_of_iff' _ b.wellFormed_iff

instance (f : FileText) : Decidable f.WellFormed := decidable_of_iff' _ f.wellFormed_iff

/-! ## 4. Opening tags -/

theorem isAttrNamePart_of_isTagSpace {c : Char} (h : isTagSpace c = true) : isAttrNamePart c = false := by
  simp [isAttrNamePart, h]

theorem ne_of_isTagSpace {c d : Char} (h : isTagSpace c = true) (hd : isTagSpace d = false) : c ≠ d := by
  rintro rfl
  rw [h] at hd
  exact Bool.noConfusion hd

/-- White space in front of a text is passed over. -/
theorem readHead_gap {gap : List Char} (h : ∀ c ∈ gap, isTagSpace c = true) (pos : Nat) (rest : List Char) :
    readHead pos (gap ++ rest) =
      ⟨(readHead (pos + byteLength gap) rest).attrs, gap ++ (readHead (pos + byteLength gap) rest).passed,
        (readHead (pos + byteLength gap) rest).rest⟩ := by
  induction gap generalizing pos with
  | nil => rfl
  | cons c gap ih =>
    obtain ⟨hc, hgap⟩ := List.forall_mem_cons.1 h
    have hclose := ne_of_isTagSpace hc (d := '>') (by decide)
    rw [List.cons_append]
    conv => lhs; unfold readHead
    rw [if_neg (by simp [hclose]), if_neg (by simp [isAttrNamePart_of_isTagSpace hc])]
    simp only [ih hgap, byteLength_cons, Nat.add_assoc, List.cons_append]

/-- A value in double quotes, with white space on the two sides of the equals sign. -/
theorem readValue?_render {v : ValueText} (h : v.WellFormed) (rest : List Char) :
    readValue? (v.render ++ rest) = some ⟨v.lead, ['"'], v.content, ['"'], rest⟩ := by
  have hequals : isTagSpace '=' = false := by decide
  have hquote : isTagSpace '"' = false := by decide
  have hcontent : ∀ c ∈ v.content, (c != '"') = true := by
    intro c hc
    rw [bne_iff_ne]
    rintro rfl
    exact h.content hc
  obtain ⟨hbefore, hfrom⟩ :=
    Markup.takeWhile_append_of_stop h.before hequals (v.behind ++ '"' :: (v.content ++ '"' :: rest))
  obtain ⟨hbehind, hvalue⟩ :=
    Markup.takeWhile_append_of_stop h.behind hquote (v.content ++ '"' :: rest)
  obtain ⟨htake, hdrop⟩ := Markup.takeWhile_append_of_stop hcontent (c := '"') (by decide) rest
  have hwritten : v.render ++ rest =
      v.before ++ '=' :: (v.behind ++ '"' :: (v.content ++ '"' :: rest)) := by
    simp [ValueText.render, ValueText.lead]
  rw [hwritten, readValue?, hfrom]
  simp only [hbefore, hbehind, hvalue, readBareOrQuoted, htake, hdrop]
  rfl

/-- A name without a value: what follows is white space, and behind it no equals sign. -/
theorem readValue?_gap {gap : List Char} (h : ∀ c ∈ gap, isTagSpace c = true) {c : Char}
    (hspace : isTagSpace c = false) (hequals : c ≠ '=') (rest : List Char) :
    readValue? (gap ++ c :: rest) = none := by
  rw [readValue?, (Markup.takeWhile_append_of_stop h hspace rest).2]
  split
  next heq => exact absurd (List.cons.inj heq).1 hequals
  · rfl

/-- What is read in front of a text that a tag goes on with. -/
theorem BlockAttr.ofReading_render {v : ValueText} (pos : Nat) (gap name rest : List Char) :
    BlockAttr.ofReading (pos + byteLength gap) name (some ⟨v.lead, ['"'], v.content, ['"'], rest⟩) =
      AttrText.placed pos ⟨gap, name, some v⟩ := by
  have hquote : '"'.utf8Size = 1 := rfl
  simp [BlockAttr.ofReading, AttrText.placed, ValueReading.span, ValueReading.quotedSpan,
    ValueReading.passed, ValueText.span, ValueText.quotedSpan, ValueText.render, hquote]

/-- What a name and the text behind it are read as, when the text ends the name. -/
theorem readHead_name {name : List Char} (hname : ∀ c ∈ name, isAttrNamePart c = true) (hne : name ≠ [])
    {after : List Char} (hafter : ∀ c ∈ after.head?, isAttrNamePart c = false) (pos : Nat) :
    readHead pos (name ++ after) =
      match readValue? after with
      | some v =>
        ⟨.ofReading pos name (some v) ::
            (readHead (pos + byteLength name + byteLength v.passed) v.rest).attrs,
          name ++ (v.passed ++ (readHead (pos + byteLength name + byteLength v.passed) v.rest).passed),
          (readHead (pos + byteLength name + byteLength v.passed) v.rest).rest⟩
      | none =>
        ⟨.ofReading pos name none :: (readHead (pos + byteLength name) after).attrs,
          name ++ (readHead (pos + byteLength name) after).passed,
          (readHead (pos + byteLength name) after).rest⟩ := by
  obtain ⟨c, cs, rfl⟩ := List.exists_cons_of_ne_nil hne
  obtain ⟨hc, hcs⟩ := List.forall_mem_cons.1 hname
  have hclose : c ≠ '>' := by
    rintro rfl
    exact Bool.noConfusion hc
  have hread := takeWhile_append_of_head? hcs hafter
  rw [List.cons_append]
  conv => lhs; unfold readHead
  rw [if_neg (by simp [hclose]), if_pos hc]
  dsimp only
  simp only [hread.1]
  split
  next v hv =>
    rw [hread.2] at hv
    rw [hv]
  next hv =>
    rw [hread.2] at hv ⊢
    rw [hv]

/-- No name goes on in the attributes of a tag: they start with white space or with the bracket. -/
theorem head?_renderAttrs {as : List AttrText} (has : ∀ a ∈ as, a.WellFormed) {gap : List Char}
    (hgap : ∀ c ∈ gap, isTagSpace c = true) (rest : List Char) :
    ∀ c ∈ (renderAttrs as ++ (gap ++ '>' :: rest)).head?, isAttrNamePart c = false := by
  cases as with
  | nil =>
    cases gap with
    | nil => simp [renderAttrs, isAttrNamePart]
    | cons c gap => simpa [renderAttrs] using isAttrNamePart_of_isTagSpace (hgap c List.mem_cons_self)
  | cons a as =>
    have ha := has a List.mem_cons_self
    obtain ⟨c, more, hfirst⟩ := List.exists_cons_of_ne_nil ha.gap_ne_nil
    have hc := isAttrNamePart_of_isTagSpace (ha.gap c (hfirst ▸ List.mem_cons_self))
    simpa [renderAttrs, AttrText.render, hfirst] using hc

/-- No value follows a name in front of the attributes of a tag. -/
theorem readValue?_renderAttrs {as : List AttrText} (has : ∀ a ∈ as, a.WellFormed) {gap : List Char}
    (hgap : ∀ c ∈ gap, isTagSpace c = true) (rest : List Char) :
    readValue? (renderAttrs as ++ (gap ++ '>' :: rest)) = none := by
  cases as with
  | nil => exact readValue?_gap hgap (by decide) (by decide) rest
  | cons a as =>
    have ha := has a List.mem_cons_self
    obtain ⟨d, name, hname⟩ := List.exists_cons_of_ne_nil ha.name_ne_nil
    have hd := ha.name d (hname ▸ List.mem_cons_self)
    simp only [isAttrNamePart, Bool.and_eq_true, Bool.not_eq_true', bne_iff_ne, ne_eq] at hd
    obtain ⟨⟨⟨hspace, hequals⟩, -⟩, -⟩ := hd
    have hvalue := readValue?_gap ha.gap hspace hequals
      (name ++ (a.value.elim [] (·.render) ++ (renderAttrs as ++ (gap ++ '>' :: rest))))
    simpa [renderAttrs, AttrText.render, hname] using hvalue

theorem ValueText.head?_render {v : ValueText} (h : v.WellFormed) (rest : List Char) :
    ∀ c ∈ (v.render ++ rest).head?, isAttrNamePart c = false := by
  unfold ValueText.render ValueText.lead
  cases hb : v.before with
  | nil => simp [isAttrNamePart]
  | cons c before => simpa using isAttrNamePart_of_isTagSpace (h.before c (hb ▸ List.mem_cons_self))

/-- **The attributes of a tag** are read as they are written. -/
theorem readHead_render {as : List AttrText} (has : ∀ a ∈ as, a.WellFormed) {gap : List Char}
    (hgap : ∀ c ∈ gap, isTagSpace c = true) (pos : Nat) (rest : List Char) :
    readHead pos (renderAttrs as ++ (gap ++ '>' :: rest)) =
      ⟨placedAttrs pos as, renderAttrs as ++ gap, '>' :: rest⟩ := by
  induction as generalizing pos with
  | nil =>
    have hclose (pos : Nat) : readHead pos ('>' :: rest) = ⟨[], [], '>' :: rest⟩ := by simp [readHead]
    rw [renderAttrs, List.flatMap_nil, List.nil_append, readHead_gap hgap, hclose]
    simp [placedAttrs]
  | cons a as ih =>
    obtain ⟨ha, htail⟩ := List.forall_mem_cons.1 has
    have hwritten : renderAttrs (a :: as) ++ (gap ++ '>' :: rest) =
        a.gap ++ (a.name ++ (a.value.elim [] (·.render) ++ (renderAttrs as ++ (gap ++ '>' :: rest)))) := by
      simp [renderAttrs, AttrText.render]
    rw [hwritten, readHead_gap ha.gap, placedAttrs]
    obtain ⟨agap, name, value⟩ := a
    cases value with
    | none =>
      rw [Option.elim_none, List.nil_append,
        readHead_name ha.name ha.name_ne_nil (head?_renderAttrs htail hgap rest),
        readValue?_renderAttrs htail hgap rest]
      simp only [ih htail]
      simp [renderAttrs, AttrText.render, AttrText.placed, BlockAttr.ofReading, Nat.add_assoc]
    | some v =>
      have hv := ha.value v rfl
      rw [Option.elim_some, readHead_name ha.name ha.name_ne_nil (ValueText.head?_render hv _),
        readValue?_render hv]
      have hpassed : ValueReading.passed ⟨v.lead, ['"'], v.content, ['"'],
          renderAttrs as ++ (gap ++ '>' :: rest)⟩ = v.render := rfl
      simp only [ih htail, hpassed, BlockAttr.ofReading_render]
      simp [renderAttrs, AttrText.render, Nat.add_assoc]

/-! ## 5. Contents -/

theorem not_mem_of_isTagNamePart {tag : List Char} (h : ∀ c ∈ tag, isTagNamePart c = true) : '<' ∉ tag :=
  fun hmem => Bool.noConfusion (h '<' hmem)

theorem toLower_of_not_isAlpha {c : Char} (h : c.isAlpha = false) : c.toLower = c := by
  unfold Char.toLower
  split
  next hupper =>
    rw [isAlpha_iff.2 (.inl hupper)] at h
    cases h
  · rfl

/-- Only letters have another case. -/
theorem eq_of_toLower_eq {c d : Char} (hd : d.isAlpha = false) (h : c.toLower = d) : c = d := by
  unfold Char.toLower at h
  split at h
  next hupper =>
    have hlower : d.val ≥ 'a'.val ∧ d.val ≤ 'z'.val := by
      obtain ⟨hA, hZ⟩ := hupper
      rw [← h]
      simp only [ge_iff_le, UInt32.le_iff_toNat_le] at hA hZ ⊢
      simp at hA hZ ⊢
      omega
    rw [isAlpha_iff.2 (.inr hlower)] at hd
    cases hd
  · exact h

/-- A word without a mark that is met in front of the mark ends there. -/
theorem startsWithWord_append {word : List Char} {d : Char} (hd : d.isAlpha = false) (hword : d ∉ word)
    {cs rest : List Char} (h : startsWithWord word (cs ++ d :: rest) = true) :
    word.map Char.toLower <+: cs.map Char.toLower := by
  rw [startsWithWord, beq_iff_eq] at h
  have hlength : word.length ≤ cs.length := by
    rw [← Nat.not_lt]
    intro hlt
    -- the mark would be one of the characters that are compared
    have hmem : d ∈ List.take word.length (cs ++ d :: rest) := by
      obtain ⟨n, hn⟩ : ∃ n, word.length - cs.length = n + 1 := ⟨word.length - cs.length - 1, by omega⟩
      rw [List.take_append, hn]
      simp
    have hlower := List.mem_map_of_mem (f := Char.toLower) hmem
    rw [h] at hlower
    obtain ⟨c, hc, hlower⟩ := List.mem_map.1 hlower
    exact hword (eq_of_toLower_eq hd (hlower.trans (toLower_of_not_isAlpha hd)) ▸ hc)
  rw [List.take_append_of_le_length hlength] at h
  rw [← h, List.map_take]
  exact List.take_prefix _ _

theorem startsWithWord_of_toLower_eq {word cs : List Char} (h : cs.map Char.toLower = word.map Char.toLower)
    (rest : List Char) : startsWithWord word (cs ++ rest) = true := by
  have hlength : word.length = cs.length := by simpa using (congrArg List.length h).symm
  rw [startsWithWord, hlength, List.take_left, beq_iff_eq]
  exact h

/-- The closing tag that a block is written with is taken for one. -/
theorem isTagAt_closing {tag closing : List Char} (h : closing.map Char.toLower = tag.map Char.toLower)
    (rest : List Char) : isTagAt tag (closing ++ '>' :: rest) = true := by
  have hlength : tag.length = closing.length := by simpa using (congrArg List.length h).symm
  rw [isTagAt, startsWithWord_of_toLower_eq h, hlength, List.drop_left]
  rfl

/-- **A content** that holds no closing tag of its block, and no opening one where these count, is read up to
the closing tag behind it. -/
theorem readBody_content {nests : Bool} {tag closing content : List Char} (htag : '<' ∉ tag)
    (hclosing : closing.map Char.toLower = tag.map Char.toLower)
    (hends : ¬ Mentions ('<' :: '/' :: tag) content)
    (hnests : nests = true → ¬ Mentions ('<' :: tag) content) (rest : List Char) :
    readBody nests tag 0 (content ++ '<' :: '/' :: (closing ++ '>' :: rest)) =
      ⟨content, '<' :: '/' :: (closing ++ ['>']), rest, true⟩ := by
  induction content with
  | nil =>
    have hlength : tag.length + 1 = ('/' :: closing).length := by
      simpa using (congrArg List.length hclosing).symm
    have htake : ('/' :: (closing ++ '>' :: rest)).take (tag.length + 1) = '/' :: closing := by
      rw [hlength, ← List.cons_append, List.take_left]
    have hdrop : ('/' :: (closing ++ '>' :: rest)).drop (tag.length + 1) = '>' :: rest := by
      rw [hlength, ← List.cons_append, List.drop_left]
    rw [List.nil_append, readBody, if_pos (by simp [isTagAt_closing hclosing])]
    simp only [htake, hdrop]
    simp [cutAfter]
  | cons c content ih =>
    have hsuffix (mark : List Char) (h : Mentions mark content) : Mentions mark (c :: content) :=
      h.trans (List.map_cons ▸ List.suffix_cons _ _).isInfix
    have hlower : '<'.toLower = '<' := by decide
    have hslash : '/'.toLower = '/' := by decide
    -- a tag that starts here would stand in the content as a whole
    have hclose : ¬ ((c == '<' && (content ++ '<' :: '/' :: (closing ++ '>' :: rest)).head? == some '/' &&
        isTagAt tag (content ++ '<' :: '/' :: (closing ++ '>' :: rest)).tail) = true) := by
      intro h
      simp only [Bool.and_eq_true, beq_iff_eq] at h
      obtain ⟨⟨rfl, hhead⟩, htagAt⟩ := h
      cases content with
      | nil => simp at hhead
      | cons d content =>
        obtain rfl : d = '/' := by simpa using hhead
        rw [isTagAt, Bool.and_eq_true] at htagAt
        obtain ⟨after, hafter⟩ := startsWithWord_append (by decide) htag htagAt.1
        exact hends ⟨[], after, by simp [hlower, hslash, hafter]⟩
    have hopen : ¬ ((nests && c == '<' &&
        isTagAt tag (content ++ '<' :: '/' :: (closing ++ '>' :: rest))) = true) := by
      intro h
      simp only [Bool.and_eq_true, beq_iff_eq] at h
      obtain ⟨⟨hnest, rfl⟩, htagAt⟩ := h
      rw [isTagAt, Bool.and_eq_true] at htagAt
      obtain ⟨after, hafter⟩ := startsWithWord_append (by decide) htag htagAt.1
      exact hnests hnest ⟨[], after, by simp [hlower, hafter]⟩
    rw [List.cons_append, readBody, if_neg hclose, if_neg hopen,
      ih (fun h => hends (hsuffix _ h)) (fun h h' => hnests h (hsuffix _ h'))]
    rfl

/-! ## 6. Blocks and files -/

theorem getLast?_append_ne {d : Char} {xs ys : List Char} (hxs : xs.getLast? ≠ some d)
    (hys : ys.getLast? ≠ some d) : (xs ++ ys).getLast? ≠ some d := by
  rw [List.getLast?_append]
  cases hlast : ys.getLast? with
  | none => exact hxs
  | some c =>
    rw [hlast] at hys
    exact hys

theorem getLast?_ne {d : Char} {cs : List Char} (h : d ∉ cs) : cs.getLast? ≠ some d :=
  fun hlast => h (List.mem_of_getLast? hlast)

theorem AttrText.getLast?_render {a : AttrText} (h : a.WellFormed) : a.render.getLast? ≠ some '/' := by
  have hgap : '/' ∉ a.gap := fun hmem => absurd (h.gap '/' hmem) (by decide)
  have hname : '/' ∉ a.name := fun hmem => absurd (h.name '/' hmem) (by decide)
  refine getLast?_append_ne (getLast?_ne hgap) (getLast?_append_ne (getLast?_ne hname) ?_)
  cases a.value with
  | none => exact getLast?_ne List.not_mem_nil
  | some v =>
    have hrender : v.render = (v.lead ++ '"' :: v.content) ++ ['"'] := by simp [ValueText.render]
    rw [Option.elim_some, hrender, List.getLast?_concat]
    decide

theorem getLast?_renderAttrs {as : List AttrText} (has : ∀ a ∈ as, a.WellFormed) :
    (renderAttrs as).getLast? ≠ some '/' := by
  induction as with
  | nil => exact getLast?_ne List.not_mem_nil
  | cons a as ih =>
    obtain ⟨ha, has⟩ := List.forall_mem_cons.1 has
    exact getLast?_append_ne (AttrText.getLast?_render ha) (ih has)

/-- An opening tag never ends in a slash as it is written. -/
theorem BlockText.getLast?_head {b : BlockText} (h : b.Opens) : b.head.getLast? ≠ some '/' := by
  have hgap : '/' ∉ b.gap := fun hmem => absurd (h.gap '/' hmem) (by decide)
  exact getLast?_append_ne (getLast?_renderAttrs h.attrs) (getLast?_ne hgap)

theorem isAttrNamePart_of_isTagNamePart {c : Char} (h : isTagNamePart c = true) :
    isAttrNamePart c = true := by
  have hne (d : Char) (hd : isTagNamePart d = false) : c ≠ d := by
    rintro rfl
    rw [h] at hd
    exact Bool.noConfusion hd
  simp [isAttrNamePart, isTagSpace, hne ' ' (by decide), hne '\t' (by decide), hne '\n' (by decide),
    hne '\x0c' (by decide), hne '\r' (by decide), hne '=' (by decide), hne '>' (by decide),
    hne '/' (by decide)]

/-- Only the name of a template is read as one. -/
theorem ofList_toLower_beq_template (tag : List Char) :
    (String.ofList (tag.map Char.toLower) == "template") = true ↔
      tag.map Char.toLower = "template".toList := by
  rw [beq_iff_eq, ← String.toList_inj, String.toList_ofList]

/-- The block behind an opening tag is what its body is read as. -/
theorem WrittenBlock.read?_opening {b : BlockText} (h : b.Opens) {body : BodyReading} {cs : List Char}
    (hbody : readBody (String.ofList (b.tag.map Char.toLower) == "template") b.tag 0 cs = body) (pos : Nat) :
    WrittenBlock.read? (pos + 1) (b.tag ++ (b.head ++ '>' :: cs)) =
      some ({ { b with content := body.content }.placed pos with isClosed := body.isClosed },
        pos + byteLength b.opening + byteLength body.content + byteLength body.closing, body.rest) := by
  have hafter : ∀ c ∈ (b.head ++ '>' :: cs).head?, isTagNamePart c = false := by
    intro c hc
    have hattr := head?_renderAttrs h.attrs h.gap cs c (by simpa [BlockText.head] using hc)
    cases hpart : isTagNamePart c with
    | false => rfl
    | true => exact absurd (isAttrNamePart_of_isTagNamePart hpart) (by simp [hattr])
  have hname := takeWhile_append_of_head? h.tag hafter
  have hlength : b.tag.length = byteLength b.tag := by
    have hbytes := byteLength_tagName b.tag
    rw [List.takeWhile_eq_self_iff.2 h.tag] at hbytes
    exact hbytes.symm
  have hhead := readHead_render h.attrs h.gap (pos + 1 + b.tag.length) cs
  rw [← List.append_assoc, ← BlockText.head] at hhead
  have hslash : (b.head.getLast? == some '/') = false := by
    rw [beq_eq_false_iff_ne]
    exact BlockText.getLast?_head h
  have hopen : '<'.utf8Size = 1 := rfl
  have hshut : '>'.utf8Size = 1 := rfl
  have hopening : pos + 1 + byteLength b.tag + byteLength b.head + 1 = pos + byteLength b.opening := by
    simp only [BlockText.opening, byteLength_cons, byteLength_append, byteLength_nil, hopen, hshut]
    omega
  rw [WrittenBlock.read?, hname.1, hname.2, hhead]
  simp only [h.first, if_true, WrittenBlock.ofHead, hslash, hbody, Bool.false_eq_true, if_false, hlength,
    hopening]
  rfl

/-- A block that opens as it is written is taken for one. -/
theorem writtenBlocks_opening {b : BlockText} (h : b.Opens) {body : BodyReading} {cs : List Char}
    (hbody : readBody (String.ofList (b.tag.map Char.toLower) == "template") b.tag 0 cs = body) (pos : Nat) :
    writtenBlocks pos (b.opening ++ cs) =
      { { b with content := body.content }.placed pos with isClosed := body.isClosed } ::
        writtenBlocks (pos + byteLength b.opening + byteLength body.content + byteLength body.closing)
          body.rest := by
  have hwritten : b.opening ++ cs = '<' :: (b.tag ++ (b.head ++ '>' :: cs)) := by
    simp [BlockText.opening]
  obtain ⟨c, tag, htag⟩ : ∃ c tag, b.tag = c :: tag := by
    cases hb : b.tag with
    | nil => exact absurd h.first (by simp [hb])
    | cons c tag => exact ⟨c, tag, rfl⟩
  have hcomment (rest : List Char) : ¬ "!--".toList.isPrefixOf (b.tag ++ rest) = true := by
    have hne : '!' ≠ c := by
      rintro rfl
      exact absurd (h.tag '!' (htag ▸ List.mem_cons_self)) (by decide)
    simp [htag, hne]
  have hread := WrittenBlock.read?_opening h hbody pos
  rw [hwritten, writtenBlocks, if_pos (beq_self_eq_true '<'), if_neg (hcomment _)]
  split
  next block stop after heq =>
    obtain ⟨rfl, rfl, rfl⟩ := Prod.mk.inj (Option.some.inj (heq.symm.trans hread))
    rfl
  next heq => exact absurd (heq.symm.trans hread) (by simp)

theorem writtenBlocks_skip {cs : List Char} (h : '<' ∉ cs) (pos : Nat) (rest : List Char) :
    writtenBlocks pos (cs ++ rest) = writtenBlocks (pos + byteLength cs) rest := by
  induction cs generalizing pos with
  | nil => rfl
  | cons c cs ih =>
    rw [List.mem_cons, not_or] at h
    have hne : ¬ (c == '<') = true := by
      rw [beq_iff_eq]
      exact fun heq => h.1 heq.symm
    rw [List.cons_append, writtenBlocks, if_neg hne, ih h.2, byteLength_cons, Nat.add_assoc]

/-- A written block is read as it is written, and what follows it is read from its end on. -/
theorem writtenBlocks_block {b : BlockText} (h : b.WellFormed) (pos : Nat) (rest : List Char) :
    writtenBlocks pos (b.render ++ rest) =
      b.placed pos :: writtenBlocks (pos + byteLength b.render) rest := by
  have hnests (hnest : (String.ofList (b.tag.map Char.toLower) == "template") = true) :=
    h.nests ((ofList_toLower_beq_template b.tag).1 hnest)
  have hbody := readBody_content (not_mem_of_isTagNamePart h.tag) h.closing h.ends hnests rest
  have hwritten : b.render ++ rest =
      b.opening ++ (b.content ++ '<' :: '/' :: (b.closing ++ '>' :: rest)) := by
    simp [BlockText.render]
  rw [hwritten, writtenBlocks_opening h.opens hbody]
  simp [BlockText.placed, BlockText.render, BlockText.opening, Nat.add_assoc]

/-- Written blocks are read as they are written, and what follows them is read from their end on. -/
theorem writtenBlocks_blocks {bs : List (List Char × BlockText)} (hseparators : ∀ b ∈ bs, '<' ∉ b.1)
    (hblocks : ∀ b ∈ bs, b.2.WellFormed) (pos : Nat) (rest : List Char) :
    writtenBlocks pos (renderBlocks bs ++ rest) =
      placedBlocks pos bs ++ writtenBlocks (pos + byteLength (renderBlocks bs)) rest := by
  induction bs generalizing pos with
  | nil => rfl
  | cons b bs ih =>
    obtain ⟨separator, b⟩ := b
    obtain ⟨hseparator, hseparators⟩ := List.forall_mem_cons.1 hseparators
    obtain ⟨hb, hblocks⟩ := List.forall_mem_cons.1 hblocks
    have hwritten : renderBlocks ((separator, b) :: bs) ++ rest =
        separator ++ (b.render ++ (renderBlocks bs ++ rest)) := by
      simp [renderBlocks]
    have hlength : pos + byteLength separator + byteLength b.render + byteLength (renderBlocks bs) =
        pos + byteLength (renderBlocks ((separator, b) :: bs)) := by
      simp [renderBlocks, Nat.add_assoc]
    rw [hwritten, writtenBlocks_skip hseparator, writtenBlocks_block hb, ih hseparators hblocks, hlength]
    rfl

/-- **All blocks** are read as they are written. -/
theorem writtenBlocks_render {bs : List (List Char × BlockText)} (hseparators : ∀ b ∈ bs, '<' ∉ b.1)
    (hblocks : ∀ b ∈ bs, b.2.WellFormed) {tail : List Char} (htail : '<' ∉ tail) (pos : Nat) :
    writtenBlocks pos (renderBlocks bs ++ tail) = placedBlocks pos bs := by
  have hend := writtenBlocks_skip htail (pos + byteLength (renderBlocks bs)) []
  rw [List.append_nil] at hend
  rw [writtenBlocks_blocks hseparators hblocks, hend, writtenBlocks, List.append_nil]

/-! ## 7. Blocks in their places -/

/-- The kind that the block is of, among those that a component may hold only once. -/
def Block.unique? (b : Block) : Option UniqueBlock :=
  if b.tag = "template" then some .template
  else if b.tag = "script" then some (if b.isSetup then .scriptSetup else .script)
  else none

/-- The first block of a kind. -/
def firstOf (kind : UniqueBlock) (ws : List WrittenBlock) : Option Block :=
  (ws.map (·.block)).find? (·.unique? == some kind)

/-- The fault of a block behind others: there is one if another block of its kind stands among these. -/
def WrittenBlock.repeats (earlier : List WrittenBlock) (w : WrittenBlock) : List Fault :=
  match w.block.unique? with
  | some kind => if (firstOf kind earlier).isSome then [⟨.duplicateBlock kind, w.tagSpan⟩] else []
  | none => []

/-- The faults of blocks behind others, in order. -/
def repeats (earlier : List WrittenBlock) : List WrittenBlock → List Fault
  | [] => []
  | w :: ws => w.repeats earlier ++ repeats (earlier ++ [w]) ws

/-- The component that blocks make up: the first of each kind that may stand only once, all others in order,
and a fault for each one that another of its kind stands in front of. -/
def Component.sorted (ws : List WrittenBlock) : Component where
  template := firstOf .template ws
  script := firstOf .script ws
  scriptSetup := firstOf .scriptSetup ws
  styles := (ws.map (·.block)).filter (·.tag = "style")
  customBlocks := (ws.map (·.block)).filter fun b => b.unique? = none ∧ b.tag ≠ "style"
  faults := repeats [] ws

theorem repeats_concat (w : WrittenBlock) (ws earlier : List WrittenBlock) :
    repeats earlier (ws ++ [w]) = repeats earlier ws ++ w.repeats (earlier ++ ws) := by
  induction ws generalizing earlier with
  | nil => simp [repeats]
  | cons v ws ih => simp [repeats, ih]

theorem firstOf_concat (kind : UniqueBlock) (w : WrittenBlock) (ws : List WrittenBlock) :
    firstOf kind (ws ++ [w]) =
      (firstOf kind ws).or (if w.block.unique? = some kind then some w.block else none) := by
  simp only [firstOf, List.map_append, List.map_cons, List.map_nil, List.find?_append]
  congr 1
  by_cases h : w.block.unique? = some kind <;> simp [h]

/-- **One more block** behind others goes to its place. -/
theorem Component.insert_sorted (ws : List WrittenBlock) (w : WrittenBlock) :
    (Component.sorted ws).insert w = Component.sorted (ws ++ [w]) := by
  unfold Component.insert
  split
  next htag =>
    have hkind : w.block.unique? = some .template := by simp [Block.unique?, htag]
    cases h : firstOf .template ws <;>
      simp [Component.sorted, firstOf_concat, repeats_concat, WrittenBlock.repeats, hkind, htag, h]
  next htag =>
    cases hsetup : w.block.isSetup with
    | true =>
      have hkind : w.block.unique? = some .scriptSetup := by simp [Block.unique?, htag, hsetup]
      cases h : firstOf .scriptSetup ws <;>
        simp [Component.sorted, firstOf_concat, repeats_concat, WrittenBlock.repeats, hkind, htag, h]
    | false =>
      have hkind : w.block.unique? = some .script := by simp [Block.unique?, htag, hsetup]
      cases h : firstOf .script ws <;>
        simp [Component.sorted, firstOf_concat, repeats_concat, WrittenBlock.repeats, hkind, htag, h]
  next htag =>
    have hkind : w.block.unique? = none := by simp [Block.unique?, htag]
    simp [Component.sorted, firstOf_concat, repeats_concat, WrittenBlock.repeats, hkind, htag]
  next htemplate hscript hstyle =>
    have hkind : w.block.unique? = none := by
      rw [Block.unique?, if_neg htemplate, if_neg hscript]
    have hother : w.block.tag ≠ "style" := hstyle
    simp [Component.sorted, firstOf_concat, repeats_concat, WrittenBlock.repeats, hkind, hother]

/-- Blocks that have their ends are put in their places one behind the other. -/
theorem Component.foldl_insert_sorted {ws : List WrittenBlock} (hclosed : ∀ w ∈ ws, w.isClosed = true)
    (earlier : List WrittenBlock) :
    ws.foldl (fun c w => (c.noteEnd w).insert w) (Component.sorted earlier) =
      Component.sorted (earlier ++ ws) := by
  induction ws generalizing earlier with
  | nil => rw [List.foldl_nil, List.append_nil]
  | cons w ws ih =>
    obtain ⟨hw, hws⟩ := List.forall_mem_cons.1 hclosed
    rw [List.foldl_cons, Component.noteEnd, if_pos hw, Component.insert_sorted, ih hws, List.append_assoc,
      List.singleton_append]

theorem placedBlocks_isClosed {pos : Nat} {bs : List (List Char × BlockText)} :
    ∀ w ∈ placedBlocks pos bs, w.isClosed = true := by
  induction bs generalizing pos with
  | nil => exact fun w hw => absurd hw List.not_mem_nil
  | cons b bs ih => exact List.forall_mem_cons.2 ⟨rfl, ih⟩

/-- **Splitting a component file** gives back the blocks that it was written from, each in its place and
with the places of its names, values and content, and a fault for each block that may stand only once and
does not. -/
theorem Component.split_render {f : FileText} (h : f.WellFormed) :
    Component.split (String.ofList f.render) = Component.sorted f.placed := by
  have hread := writtenBlocks_render h.separators h.blocks h.tail 0
  rw [Component.split, String.toList_ofList, FileText.render, hread]
  exact Component.foldl_insert_sorted placedBlocks_isClosed []

/-- A file with two setup blocks, and with tags in both letter cases and half tags inside of contents. -/
def twoSetups : FileText where
  blocks :=
    [("é\n".toList, ⟨"Template".toList, [⟨" ".toList, "lang".toList, some ⟨[], [' '], "a>b".toList⟩⟩], ['\n'],
      "<p>é</p></templat<b/>".toList, "TEMPLATE".toList⟩),
     ([], ⟨"script".toList, [⟨" ".toList, "setup".toList, none⟩], [], "a < '</style>'".toList,
      "script".toList⟩),
     ("\n".toList, ⟨"style".toList, [], [], "<!-- <".toList, "style".toList⟩),
     (['>'], ⟨"script".toList, [⟨"\t".toList, "lang".toList, some ⟨[' '], [], []⟩⟩,
      ⟨" ".toList, "setup".toList, none⟩], [' '], [], "script".toList⟩)]
  tail := "-->".toList

theorem Component.split_render_twoSetups :
    twoSetups.WellFormed ∧
      Component.split (String.ofList twoSetups.render) = Component.sorted twoSetups.placed ∧
      (Component.sorted twoSetups.placed).faults = [⟨.duplicateBlock .scriptSetup, ⟨120, 126⟩⟩] := by
  have hwritten : twoSetups.WellFormed := by decide +kernel
  exact ⟨hwritten, Component.split_render hwritten, by decide +kernel⟩

end ComponentLens
