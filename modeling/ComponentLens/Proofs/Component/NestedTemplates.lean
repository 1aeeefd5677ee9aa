/-
# Templates inside of templates

A template may hold templates, so the search for its end counts tags.  A `Nested` content is one as somebody
writes it: text without `<`, templates with their closing tags, and templates that close themselves, all with
arbitrary values in double quotes.

For the search an inner tag ends at the first `>`, wherever that stands, so it is not always one mark: a slash
in front of a `>` in a value makes the tag look closed, and the rest of the value may look like tags
(`InnerTag.seen`).  What stands in the content has its effect through these marks alone, one piece after the
other (`Nested.readAs`).

`Component.split_nested_iff` says what follows for the file: the template is read as it is written exactly if
the marks that are seen in its content lead from depth zero back to it.  They do so when no value of an inner
tag holds a `>`.
-/
import ComponentLens.Proofs.Component.Regions
import ComponentLens.Proofs.Component.TagMarks

namespace ComponentLens

/-! ## 1. Templates as they are written -/

/-- The tag of an inner template: its name, its attributes, and the white space in front of its end. -/
structure InnerTag where
  name : List Char
  attrs : List AttrText
  gap : List Char

/-- The content of a template: text, templates that close themselves, and templates with a closing tag. -/
inductive Nested
  | nil
  | text (cs : List Char) (more : Nested)
  | lone (tag : InnerTag) (more : Nested)
  | pair (tag : InnerTag) (inside : Nested) (closing : List Char) (more : Nested)

/-- A template with other templates inside. -/
structure TemplateText where
  tag : List Char
  attrs : List AttrText
  gap : List Char
  content : Nested
  closing : List Char

/-- What stands between the name and the end of the tag. -/
def InnerTag.head (t : InnerTag) : List Char := renderAttrs t.attrs ++ t.gap

/-- The tag as it is written, with a bracket at its end, or with a slash and a bracket. -/
def InnerTag.render (t : InnerTag) (ending : List Char) : List Char := '<' :: (t.name ++ (t.head ++ ending))

/-- A closing tag as it is written. -/
def renderClosing (name : List Char) : List Char := '<' :: '/' :: (name ++ ['>'])

/-- The content as it is written. -/
def Nested.render : Nested → List Char
  | nil => []
  | text cs more => cs ++ more.render
  | lone tag more => tag.render ['/', '>'] ++ more.render
  | pair tag inside closing more =>
    tag.render ['>'] ++ (inside.render ++ (renderClosing closing ++ more.render))

/-- The template as a block. -/
def TemplateText.block (t : TemplateText) : BlockText := ⟨t.tag, t.attrs, t.gap, t.content.render, t.closing⟩

/-- The name is that of a template, in any letter case. -/
def IsTemplate (name : List Char) : Prop := name.map Char.toLower = "template".toList

instance (name : List Char) : Decidable (IsTemplate name) :=
  inferInstanceAs (Decidable (name.map Char.toLower = "template".toList))

/-- The tag can be written down. -/
@[mk_iff]
structure InnerTag.WellFormed (t : InnerTag) : Prop where
  name : IsTemplate t.name
  attrs : ∀ a ∈ t.attrs, a.WellFormed
  gap : ∀ c ∈ t.gap, isTagSpace c = true

instance (t : InnerTag) : Decidable t.WellFormed := decidable_of_iff' _ t.wellFormed_iff

/-- The content can be written down. -/
def Nested.WellFormed : Nested → Prop
  | nil => True
  | text cs more => '<' ∉ cs ∧ more.WellFormed
  | lone tag more => tag.WellFormed ∧ more.WellFormed
  | pair tag inside closing more =>
    tag.WellFormed ∧ inside.WellFormed ∧ IsTemplate closing ∧ more.WellFormed

/-- The template can be written down. -/
@[mk_iff]
structure TemplateText.WellFormed (t : TemplateText) : Prop where
  tag : IsTemplate t.tag
  attrs : ∀ a ∈ t.attrs, a.WellFormed
  gap : ∀ c ∈ t.gap, isTagSpace c = true
  content : t.content.WellFormed
  closing : IsTemplate t.closing

instance Nested.decidableWellFormed : (n : Nested) → Decidable n.WellFormed
  | nil => .isTrue trivial
  | text cs more =>
    have := decidableWellFormed more
    inferInstanceAs (Decidable ('<' ∉ cs ∧ more.WellFormed))
  | lone tag more =>
    have := decidableWellFormed more
    inferInstanceAs (Decidable (tag.WellFormed ∧ more.WellFormed))
  | pair tag inside closing more =>
    have := decidableWellFormed inside
    have := decidableWellFormed more
    inferInstanceAs (Decidable (tag.WellFormed ∧ inside.WellFormed ∧ IsTemplate closing ∧ more.WellFormed))

instance (t : TemplateText) : Decidable t.WellFormed := decidable_of_iff' _ t.wellFormed_iff

/-- No value of the tag holds a closing bracket. -/
def InnerTag.Plain (t : InnerTag) : Prop := ∀ a ∈ t.attrs, ∀ v ∈ a.value, '>' ∉ v.content

/-- No value of an inner tag holds a closing bracket. -/
def Nested.Plain : Nested → Prop
  | nil => True
  | text _ more => more.Plain
  | lone tag more => tag.Plain ∧ more.Plain
  | pair tag inside _ more => tag.Plain ∧ inside.Plain ∧ more.Plain

/-- The marks that are seen in an inner tag. -/
def InnerTag.seen (outer : List Char) (t : InnerTag) (ending : List Char) : List TagMark :=
  seenMarks outer (t.render ending)

/-- The marks that are seen in a content, piece by piece. -/
def Nested.seen (outer : List Char) : Nested → List TagMark
  | nil => []
  | text _ more => more.seen outer
  | lone tag more => tag.seen outer ['/', '>'] ++ more.seen outer
  | pair tag inside _ more =>
    tag.seen outer ['>'] ++ (inside.seen outer ++ .closes :: more.seen outer)

/-! ## 2. Inner tags -/

variable {tag : List Char}

section

variable {name : List Char}

theorem IsTemplate.isAlpha (h : IsTemplate name) : ∀ c ∈ name, c.isAlpha = true := by
  intro c hc
  have hlower : c.toLower ∈ "template".toList := h ▸ List.mem_map_of_mem hc
  have halpha : c.toLower.isAlpha = true := by
    have hall : ∀ d ∈ "template".toList, d.isAlpha = true := by decide
    exact hall _ hlower
  cases hnot : c.isAlpha with
  | true => rfl
  | false => rwa [toLower_of_not_isAlpha hnot, hnot] at halpha

theorem IsTemplate.not_mem (h : IsTemplate name) {d : Char} (hd : d.isAlpha = false) : d ∉ name := by
  intro hmem
  rw [h.isAlpha d hmem] at hd
  exact Bool.noConfusion hd

theorem IsTemplate.ne_nil (h : IsTemplate name) : name ≠ [] := by
  rintro rfl
  exact absurd h (by decide)

theorem IsTemplate.length_eq (htag : IsTemplate tag) (h : IsTemplate name) : tag.length = name.length := by
  simpa using congrArg List.length (htag.trans h.symm)

theorem IsTemplate.isTagNamePart (h : IsTemplate name) : ∀ c ∈ name, isTagNamePart c = true := by
  intro c hc
  simp [ComponentLens.isTagNamePart, Char.isAlphanum, h.isAlpha c hc]

theorem IsTemplate.head?_isAlpha (h : IsTemplate name) : name.head?.any Char.isAlpha = true := by
  obtain ⟨c, cs, rfl⟩ := List.exists_cons_of_ne_nil h.ne_nil
  exact h.isAlpha c List.mem_cons_self

/-- The name of a template is found in front of what may follow a name. -/
theorem IsTemplate.isTagAt (htag : IsTemplate tag) (h : IsTemplate name) {after : List Char}
    (hafter : ∀ c ∈ after.head?, isTagSpace c = true ∨ c = '>' ∨ c = '/') :
    isTagAt tag (name ++ after) = true := by
  have hlower : name.map Char.toLower = tag.map Char.toLower := h.trans htag.symm
  rw [ComponentLens.isTagAt, startsWithWord_of_toLower_eq hlower, htag.length_eq h, List.drop_left, Bool.true_and]
  cases hhead : after.head? with
  | none => rfl
  | some c =>
    rw [hhead] at hafter
    rcases hafter c rfl with hspace | rfl | rfl
    · simp [hspace]
    · rfl
    · rfl

end

theorem sealed_concat (cs : List Char) : Sealed (cs ++ ['>']) := .inr List.getLast?_concat

/-- A closing tag is one mark. -/
theorem seenMarks_closing (htag : IsTemplate tag) {closing : List Char} (h : IsTemplate closing) :
    seenMarks tag (renderClosing closing) = [.closes] := by
  have hstands : isTagAt tag (closing ++ ['>']) = true := htag.isTagAt h (by simp)
  rw [renderClosing, seenMarks, if_pos (by simp [hstands])]
  simp [htag.length_eq h, cutAfter, seenMarks]

/-- What stands behind the name of an inner tag starts as it must. -/
theorem InnerTag.head?_head {t : InnerTag} (h : t.WellFormed) {ending : List Char}
    (hending : ∀ c ∈ ending.head?, c = '>' ∨ c = '/') :
    ∀ c ∈ (t.head ++ ending).head?, isTagSpace c = true ∨ c = '>' ∨ c = '/' := by
  intro c hc
  rw [InnerTag.head] at hc
  cases hattrs : t.attrs with
  | nil =>
    rw [hattrs, renderAttrs, List.flatMap_nil, List.nil_append] at hc
    cases hgap : t.gap with
    | nil =>
      rw [hgap, List.nil_append] at hc
      exact .inr (hending c hc)
    | cons d gap =>
      rw [hgap] at hc
      obtain rfl : d = c := by simpa using hc
      exact .inl (h.gap d (hgap ▸ List.mem_cons_self))
  | cons a as =>
    have ha := h.attrs a (hattrs ▸ List.mem_cons_self)
    obtain ⟨d, gap, hgap⟩ := List.exists_cons_of_ne_nil ha.gap_ne_nil
    rw [hattrs, renderAttrs, List.flatMap_cons, AttrText.render, hgap] at hc
    obtain rfl : d = c := by simpa using hc
    exact .inl (ha.gap d (hgap ▸ List.mem_cons_self))

theorem InnerTag.getLast?_head {t : InnerTag} (h : t.WellFormed) : (t.name ++ t.head).getLast? ≠ some '/' := by
  have hgap : '/' ∉ t.gap := fun hmem => absurd (h.gap '/' hmem) (by decide)
  exact getLast?_append_ne (getLast?_ne (h.name.not_mem (by decide)))
    (getLast?_append_ne (getLast?_renderAttrs h.attrs) (getLast?_ne hgap))

theorem ValueText.not_mem_render {v : ValueText} (h : v.WellFormed) (hplain : '>' ∉ v.content) :
    '>' ∉ v.render := by
  have hbefore : '>' ∉ v.before := fun hmem => absurd (h.before '>' hmem) (by decide)
  have hbehind : '>' ∉ v.behind := fun hmem => absurd (h.behind '>' hmem) (by decide)
  simp [ValueText.render, ValueText.lead, hbefore, hbehind, hplain]

/-- A tag without closing brackets in its values ends at its own. -/
theorem InnerTag.not_mem_head {t : InnerTag} (h : t.WellFormed) (hplain : t.Plain) : '>' ∉ t.head := by
  have hgap : '>' ∉ t.gap := fun hmem => absurd (h.gap '>' hmem) (by decide)
  rw [InnerTag.head, List.mem_append, not_or]
  refine ⟨fun hmem => ?_, hgap⟩
  obtain ⟨a, ha, hmem⟩ := List.mem_flatMap.1 hmem
  have hattr := h.attrs a ha
  rw [AttrText.render, List.mem_append, List.mem_append] at hmem
  rcases hmem with hmem | hmem | hmem
  · exact absurd (hattr.gap '>' hmem) (by decide)
  · exact absurd (hattr.name '>' hmem) (by decide)
  · cases hvalue : a.value with
    | none => simp [hvalue] at hmem
    | some v =>
      rw [hvalue] at hmem
      exact ValueText.not_mem_render (hattr.value v hvalue) (hplain a ha v hvalue) hmem

/-- An inner tag without closing brackets in its values is one mark, or none with a slash at its end. -/
theorem InnerTag.seen_ending (htag : IsTemplate tag) {t : InnerTag} (h : t.WellFormed) (hplain : t.Plain)
    {slash : List Char} (hslash : '>' ∉ slash) (hending : ∀ c ∈ (slash ++ ['>']).head?, c = '>' ∨ c = '/') :
    t.seen tag (slash ++ ['>']) = if (t.name ++ (t.head ++ slash)).getLast? == some '/' then [] else [.opens] := by
  have hfirst : ∀ rest, ((t.name ++ rest).head? == some '/') = false := by
    intro rest
    obtain ⟨c, cs, hname⟩ := List.exists_cons_of_ne_nil h.name.ne_nil
    have hne : c ≠ '/' := by
      rintro rfl
      exact h.name.not_mem (by decide) (hname ▸ List.mem_cons_self)
    simp [hname, hne]
  have hstands : isTagAt tag (t.name ++ (t.head ++ (slash ++ ['>']))) = true :=
    htag.isTagAt h.name (InnerTag.head?_head h hending)
  have hcs : ∀ c ∈ t.head ++ slash, (c != '>') = true := by
    intro c hc
    rw [bne_iff_ne]
    rintro rfl
    rcases List.mem_append.1 hc with hmem | hmem
    · exact InnerTag.not_mem_head h hplain hmem
    · exact hslash hmem
  have hcut := Markup.takeWhile_append_of_stop hcs (c := '>') (by decide) []
  rw [List.append_assoc] at hcut
  rw [InnerTag.seen, InnerTag.render, seenMarks,
    if_neg (by rw [hfirst, Bool.and_false, Bool.false_and]; exact Bool.false_ne_true), if_pos (by simp [hstands])]
  simp only [htag.length_eq h.name, List.take_left, List.drop_left, hcut]
  simp [seenMarks]

/-- What is seen in an inner tag without closing brackets in its values: the depth rises unless the tag closes
itself. -/
theorem InnerTag.seen_of_plain (htag : IsTemplate tag) {t : InnerTag} (h : t.WellFormed) (hplain : t.Plain) :
    t.seen tag ['>'] = [.opens] ∧ t.seen tag ['/', '>'] = [] := by
  constructor
  · have hlast : ((t.name ++ (t.head ++ [])).getLast? == some '/') = false := by
      rw [List.append_nil, beq_eq_false_iff_ne]
      exact InnerTag.getLast?_head h
    rw [← List.nil_append ['>'], InnerTag.seen_ending htag h hplain (by simp) (by simp), hlast,
      if_neg Bool.false_ne_true]
  · have hlast : ((t.name ++ (t.head ++ ['/'])).getLast? == some '/') = true := by
      rw [← List.append_assoc, List.getLast?_concat]
      rfl
    have hslash : '>' ∉ ['/'] := by decide
    have hboth := InnerTag.seen_ending htag h hplain hslash (by simp)
    rwa [hlast, if_pos rfl] at hboth

/-! ## 3. Contents -/

theorem InnerTag.readAs (htag : IsTemplate tag) (t : InnerTag) (slash : List Char) :
    ReadAs tag (t.render (slash ++ ['>'])) (t.seen tag (slash ++ ['>'])) := by
  refine .of_sealed (htag.not_mem (by decide)) ?_
  have hrender : t.render (slash ++ ['>']) = ('<' :: (t.name ++ (t.head ++ slash))) ++ ['>'] := by
    simp [InnerTag.render]
  exact hrender ▸ sealed_concat _

/-- **A content is read as the marks that are seen in its pieces.** -/
theorem Nested.readAs (htag : IsTemplate tag) (n : Nested) (h : n.WellFormed) :
    ReadAs tag n.render (n.seen tag) := by
  induction n with
  | nil => exact .nil
  | text cs more ih => exact (ReadAs.of_text h.1).append (ih h.2)
  | lone t more ih => exact (t.readAs htag ['/']).append (ih h.2)
  | pair t inside closing more ihinside ihmore =>
    obtain ⟨-, hinside, hclosing, hmore⟩ := h
    have hends : ReadAs tag (renderClosing closing) [.closes] := by
      rw [← seenMarks_closing htag hclosing]
      exact .of_sealed (htag.not_mem (by decide)) (sealed_concat ('<' :: '/' :: closing))
    exact (t.readAs htag []).append ((ihinside hinside).append (hends.append (ihmore hmore)))

/-- A content without closing brackets in its values leads back to the depth that it starts from. -/
theorem Nested.depthAfter_of_plain (htag : IsTemplate tag) (n : Nested) (h : n.WellFormed) (hplain : n.Plain)
    (depth : Nat) : depthAfter depth (n.seen tag) = some depth := by
  induction n generalizing depth with
  | nil => rfl
  | text cs more ih => exact ih h.2 hplain depth
  | lone t more ih =>
    rw [Nested.seen, (InnerTag.seen_of_plain htag h.1 hplain.1).2, List.nil_append]
    exact ih h.2 hplain.2 depth
  | pair t inside closing more ihinside ihmore =>
    obtain ⟨ht, hinside, -, hmore⟩ := h
    rw [Nested.seen, (InnerTag.seen_of_plain htag ht hplain.1).1, List.singleton_append, depthAfter,
      depthAfter_append, ihinside hinside hplain.2.1, Option.bind_some, depthAfter, if_neg (Nat.add_one_ne_zero _)]
    exact ihmore hmore hplain.2.2 depth

/-- **A body is read as it is written** exactly if its marks lead back to the depth zero. -/
theorem Nested.readBody_iff (htag : IsTemplate tag) {n : Nested} (h : n.WellFormed) {closing : List Char}
    (hclosing : IsTemplate closing) (rest : List Char) :
    ((readBody true tag 0 (n.render ++ (renderClosing closing ++ rest))).content = n.render ↔
        depthAfter 0 (n.seen tag) = some 0) ∧
      (depthAfter 0 (n.seen tag) = some 0 → readBody true tag 0 (n.render ++ (renderClosing closing ++ rest)) =
        ⟨n.render, renderClosing closing, rest, true⟩) := by
  have hread := n.readAs htag h
  have hends : ∀ depth, readBody true tag depth (renderClosing closing ++ rest) =
      if depth = 0 then ⟨[], renderClosing closing, rest, true⟩
      else (readBody true tag (depth - 1) rest).prepend (renderClosing closing) := by
    intro depth
    have hstands : isTagAt tag (closing ++ ['>']) = true := htag.isTagAt hclosing (by simp)
    have hat := readBody_at_closing_of_sealed (htag.not_mem (by decide))
      (sealed_concat ('<' :: '/' :: closing)) hstands depth rest
    simpa [htag.length_eq hclosing, cutAfter, renderClosing] using hat
  have hwhole (hzero : depthAfter 0 (n.seen tag) = some 0) :
      readBody true tag 0 (n.render ++ (renderClosing closing ++ rest)) =
        ⟨n.render, renderClosing closing, rest, true⟩ := by
    rw [hread.passes 0 0 _ hzero, hends, if_pos rfl, BodyReading.prepend, List.append_nil]
  refine ⟨⟨fun hcontent => ?_, fun hzero => by rw [hwhole hzero]⟩, hwhole⟩
  cases hstop : depthAfter 0 (n.seen tag) with
  | none =>
    have hshort := hread.ends 0 (renderClosing closing ++ rest) hstop
    rw [hcontent] at hshort
    exact absurd hshort (Nat.lt_irrefl _)
  | some stop =>
    rw [hread.passes 0 stop _ hstop, hends] at hcontent
    by_cases hstop : stop = 0
    · rw [hstop]
    · rw [if_neg hstop] at hcontent
      have hlength := congrArg List.length hcontent
      simp [BodyReading.prepend, renderClosing] at hlength

/-! ## 4. Files -/

theorem Component.insert_template (c : Component) (w : WrittenBlock) :
    (c.insert w).template = c.template.or (if w.block.tag = "template" then some w.block else none) := by
  unfold Component.insert
  split
  next htag =>
    rw [if_pos htag]
    cases c.template <;> simp
  next htag =>
    have hother : w.block.tag ≠ "template" := by
      rw [htag]
      decide
    rw [if_neg hother, Option.or_none]
    split
    · split <;> rfl
    · split <;> rfl
  next htag =>
    have hother : w.block.tag ≠ "template" := by
      rw [htag]
      decide
    rw [if_neg hother, Option.or_none]
  next hother _ _ => rw [if_neg hother, Option.or_none]

/-- The template of a file is the first block with its tag. -/
theorem Component.foldl_template (ws : List WrittenBlock) (c : Component) :
    (ws.foldl (fun c w => (c.noteEnd w).insert w) c).template =
      c.template.or ((ws.map (·.block)).find? (·.tag == "template")) := by
  induction ws generalizing c with
  | nil => simp
  | cons w ws ih =>
    have hnote : (c.noteEnd w).template = c.template := by
      unfold Component.noteEnd
      split <;> rfl
    rw [List.foldl_cons, ih, Component.insert_template, hnote, Option.or_assoc, List.map_cons, List.find?_cons]
    by_cases htag : w.block.tag = "template"
    · simp [htag]
    · simp [htag, beq_eq_false_iff_ne.2 htag]

/-- A block is reported as one without end only if it is one. -/
theorem Component.mem_foldl_faults {tagName : String} {place : Span} (ws : List WrittenBlock) (c : Component)
    (h : ⟨.unclosedBlock tagName, place⟩ ∈ (ws.foldl (fun c w => (c.noteEnd w).insert w) c).faults) :
    ⟨.unclosedBlock tagName, place⟩ ∈ c.faults ∨ ∃ w ∈ ws, w.isClosed = false ∧ w.tagSpan = place := by
  rcases Component.foldl_insert_faults h with h | ⟨w, hw, ⟨hclosed, name, hfault⟩ | ⟨kind, hfault⟩⟩
  · exact .inl h
  · exact .inr ⟨w, hw, hclosed, (congrArg Fault.span hfault).symm⟩
  · cases hfault

theorem WrittenBlock.tagSpan_of_read? {pos stop : Nat} {cs rest : List Char} {w : WrittenBlock}
    (h : WrittenBlock.read? pos cs = some (w, stop, rest)) : w.tagSpan.start = pos := by
  unfold WrittenBlock.read? WrittenBlock.ofHead at h
  dsimp only at h
  split at h
  · cases h
  · split at h
    · split at h
      · cases h
        rfl
      · cases h
        rfl
    · cases h

/-- The tags of the blocks of a text stand behind its start. -/
theorem writtenBlocks_tagSpan (pos : Nat) (cs : List Char) :
    ∀ w ∈ writtenBlocks pos cs, pos < w.tagSpan.start := by
  fun_induction writtenBlocks pos cs with
  | case1 => simp
  | case2 pos c cs _ _ body comment _ ih => exact fun w hw => Nat.lt_of_le_of_lt (by omega) (ih w hw)
  | case3 pos c cs _ _ v stop rest hread _ ih =>
    obtain ⟨hbehind, hstop⟩ := WrittenBlock.read?_behind hread (Nat.lt_succ_self pos)
    have hstart := hbehind.start
    have hcontent := hbehind.start_le_stop
    intro w hw
    rcases List.mem_cons.1 hw with rfl | hw
    · rw [WrittenBlock.tagSpan_of_read? hread]
      exact Nat.lt_succ_self pos
    · exact Nat.lt_of_le_of_lt (by omega) (ih w hw)
  | case4 pos c cs _ _ _ ih => exact fun w hw => Nat.lt_of_le_of_lt (by omega) (ih w hw)
  | case5 pos c cs _ ih => exact fun w hw => Nat.lt_of_le_of_lt (by omega) (ih w hw)

/-- How a file with a template inside is read: the other blocks as they are written, and the template with what
its body is read as. -/
theorem writtenBlocks_template {front : List (List Char × BlockText)} (hseparators : ∀ b ∈ front, '<' ∉ b.1)
    (hfront : ∀ b ∈ front, b.2.WellFormed) {gap : List Char} (hgap : '<' ∉ gap) {t : TemplateText}
    (h : t.WellFormed) (rest : List Char) :
    let start := byteLength (renderBlocks front ++ gap)
    let body := readBody true t.tag 0 (t.content.render ++ (renderClosing t.closing ++ rest))
    writtenBlocks 0 (renderBlocks front ++ (gap ++ (t.block.render ++ rest))) =
      placedBlocks 0 front ++
        { { t.block with content := body.content }.placed start with isClosed := body.isClosed } ::
          writtenBlocks (start + byteLength t.block.opening + byteLength body.content + byteLength body.closing)
            body.rest := by
  have hopens : t.block.Opens := ⟨h.tag.head?_isAlpha, h.tag.isTagNamePart, h.attrs, h.gap⟩
  have hname : (String.ofList (t.block.tag.map Char.toLower) == "template") = true :=
    (ofList_toLower_beq_template t.tag).2 h.tag
  have hwritten : t.block.render ++ rest =
      t.block.opening ++ (t.content.render ++ (renderClosing t.closing ++ rest)) := by
    simp [BlockText.render, TemplateText.block, renderClosing]
  rw [writtenBlocks_blocks hseparators hfront, writtenBlocks_skip hgap, hwritten,
    writtenBlocks_opening hopens (by rw [hname]), Nat.zero_add, ← byteLength_append]
  rfl

theorem placedBlocks_not_template {front : List (List Char × BlockText)}
    (hother : ∀ b ∈ front, ¬IsTemplate b.2.tag) (pos : Nat) :
    ∀ w ∈ placedBlocks pos front, w.block.tag ≠ "template" := by
  induction front generalizing pos with
  | nil => simp [placedBlocks]
  | cons b front ih =>
    obtain ⟨hb, hfront⟩ := List.forall_mem_cons.1 hother
    refine List.forall_mem_cons.2 ⟨fun htag => ?_, ih hfront _⟩
    exact hb ((ofList_toLower_beq_template b.2.tag).1 (beq_iff_eq.2 htag))

/-- **Templates inside of a template.**  Behind other blocks, and whatever follows, a template is read with
exactly its content if and only if the marks that are seen in its content lead back to the depth zero.  Then it
ends at its own closing tag, what follows is read from there on, and the template is not reported as one
without end.  The marks do so if no value of an inner tag holds a closing bracket. -/
theorem Component.split_nested_iff {front : List (List Char × BlockText)}
    (hseparators : ∀ b ∈ front, '<' ∉ b.1) (hfront : ∀ b ∈ front, b.2.WellFormed)
    (hother : ∀ b ∈ front, ¬IsTemplate b.2.tag) {gap : List Char} (hgap : '<' ∉ gap) {t : TemplateText}
    (h : t.WellFormed) (rest : List Char) :
    let file := renderBlocks front ++ (gap ++ (t.block.render ++ rest))
    let start := byteLength (renderBlocks front ++ gap)
    let written := t.block.placed start
    ((Component.split (String.ofList file)).template = some written.block ↔
      depthAfter 0 (t.content.seen t.tag) = some 0) ∧
    (depthAfter 0 (t.content.seen t.tag) = some 0 →
      writtenBlocks 0 file =
          placedBlocks 0 front ++ written :: writtenBlocks (start + byteLength t.block.render) rest ∧
        ⟨.unclosedBlock "template", written.tagSpan⟩ ∉ (Component.split (String.ofList file)).faults) ∧
    (t.content.Plain → depthAfter 0 (t.content.seen t.tag) = some 0) := by
  intro file start written
  have hblocks := writtenBlocks_template hseparators hfront hgap h rest
  obtain ⟨hcontent, hwhole⟩ := Nested.readBody_iff h.tag h.content h.closing rest
  generalize hbody : readBody true t.tag 0 (t.content.render ++ (renderClosing t.closing ++ rest)) = body
    at hblocks hcontent hwhole
  have hname : String.ofList (t.tag.map Char.toLower) = "template" :=
    beq_iff_eq.1 ((ofList_toLower_beq_template t.tag).2 h.tag)
  have htemplate : (Component.split (String.ofList file)).template =
      some ({ t.block with content := body.content }.placed start).block := by
    have hnone : ((placedBlocks 0 front).map (·.block)).find? (·.tag == "template") = none := by
      refine List.find?_eq_none.2 fun b hb => ?_
      obtain ⟨w, hw, rfl⟩ := List.mem_map.1 hb
      simpa using placedBlocks_not_template hother 0 w hw
    rw [Component.split, String.toList_ofList, hblocks, Component.foldl_template, List.map_append, List.find?_append,
      hnone, List.map_cons, List.find?_cons_of_pos]
    · rfl
    · exact beq_iff_eq.2 hname
  have hplaced (hzero : depthAfter 0 (t.content.seen t.tag) = some 0) : writtenBlocks 0 file =
      placedBlocks 0 front ++ written :: writtenBlocks (start + byteLength t.block.render) rest := by
    have hstop : start + byteLength t.block.opening + byteLength t.content.render +
        byteLength (renderClosing t.closing) = start + byteLength t.block.render := by
      simp only [BlockText.render, TemplateText.block, renderClosing, byteLength_append, Nat.add_assoc]
    rw [hblocks, hwhole hzero]
    exact congrArg (fun stop => placedBlocks 0 front ++ written :: writtenBlocks stop rest) hstop
  refine ⟨⟨fun hread => ?_, fun hzero => ?_⟩, fun hzero => ⟨hplaced hzero, fun hfault => ?_⟩,
    fun hplain => t.content.depthAfter_of_plain h.tag h.content hplain 0⟩
  · rw [htemplate, Option.some.injEq] at hread
    exact hcontent.1 (String.ofList_injective (congrArg Block.content hread))
  · rw [htemplate, hwhole hzero]
    rfl
  · rw [Component.split, String.toList_ofList] at hfault
    rcases Component.mem_foldl_faults _ _ hfault with hnone | ⟨w, hw, hopen, hspan⟩
    · simp at hnone
    · rw [hplaced hzero] at hw
      rcases List.mem_append.1 hw with hw | hw
      · rw [placedBlocks_isClosed w hw] at hopen
        cases hopen
      · rcases List.mem_cons.1 hw with rfl | hw
        · cases hopen
        · have hplace := writtenBlocks_tagSpan _ _ w hw
          rw [hspan] at hplace
          have hsize : '<'.utf8Size = 1 := rfl
          have hroom : 1 ≤ byteLength t.block.render := by
            simp only [BlockText.render, BlockText.opening, List.cons_append, byteLength_cons, hsize]
            omega
          simp only [written, BlockText.placed] at hplace
          omega

/-- A template with one in a branch and one that closes itself, both in other letter cases, and with brackets
and slashes in their values. -/
def innerTemplates : TemplateText where
  tag := "Template".toList
  attrs := [⟨" ".toList, "lang".toList, some ⟨[], [], "a>b".toList⟩⟩]
  gap := []
  content := .text "é ".toList (.pair
    ⟨"template".toList, [⟨" ".toList, "v-if".toList, some ⟨[], [' '], "a > b/".toList⟩⟩], ['\n']⟩
    (.text ['x'] (.lone ⟨"TEMPLATE".toList, [⟨" ".toList, "a".toList, some ⟨[], [], "<template/".toList⟩⟩], []⟩ .nil))
    "Template".toList (.text ['\n'] .nil))
  closing := "template".toList

/-- Two inner templates leave a template whole, although one of them has a closing bracket in a value. -/
theorem Component.split_nested_innerTemplates :
    innerTemplates.WellFormed ∧
      (let file := renderBlocks [([], ⟨"style".toList, [], [], [], "style".toList⟩)] ++
        (['\n'] ++ (innerTemplates.block.render ++ "<script></script>".toList))
      (Component.split (String.ofList file)).template = some (innerTemplates.block.placed 16).block ∧
        ⟨.unclosedBlock "template", ⟨17, 25⟩⟩ ∉ (Component.split (String.ofList file)).faults) := by
  have hwritten : innerTemplates.WellFormed := by decide +kernel
  have hmarks : depthAfter 0 (innerTemplates.content.seen innerTemplates.tag) = some 0 := by decide +kernel
  obtain ⟨hread, hends, -⟩ := @Component.split_nested_iff
    [([], ⟨"style".toList, [], [], [], "style".toList⟩)] (by decide +kernel) (by decide +kernel)
    (by decide +kernel) ['\n'] (by decide) innerTemplates hwritten "<script></script>".toList
  exact ⟨hwritten, hread.2 hmarks, (hends hmarks).2⟩

/-- A template whose inner one has a value with a slash in front of a closing bracket. -/
def slashInValue : TemplateText where
  tag := "template".toList
  attrs := []
  gap := []
  content := .pair ⟨"template".toList, [⟨" ".toList, "a".toList, some ⟨[], [], "/>".toList⟩⟩], []⟩
    (.text ['x'] .nil) "template".toList .nil
  closing := "template".toList

/-- A template whose inner one closes itself behind a value with a closing bracket. -/
def bracketInValue : TemplateText where
  tag := "template".toList
  attrs := []
  gap := []
  content := .lone ⟨"template".toList, [⟨" ".toList, "a".toList, some ⟨[], [], ">".toList⟩⟩], []⟩ .nil
  closing := "template".toList

/-- A slash and a bracket in a value make an inner template look closed, so the outer one ends too early.  A
bracket alone makes one that closes itself look open, so the outer one is reported to have no end. -/
theorem Component.not_split_nested_valueBrackets :
    (slashInValue.WellFormed ∧
      slashInValue.block.render = "<template><template a=\"/>\">x</template></template>".toList ∧
      (Component.split (String.ofList slashInValue.block.render)).template.map (·.content) =
        some "<template a=\"/>\">x") ∧
    bracketInValue.WellFormed ∧
      bracketInValue.block.render = "<template><template a=\">\"/></template>".toList ∧
      (Component.split (String.ofList bracketInValue.block.render)).template.map (·.content) =
        some "<template a=\">\"/></template>" ∧
      (Component.split (String.ofList bracketInValue.block.render)).faults =
        [⟨.unclosedBlock "template", ⟨1, 9⟩⟩] := by
  decide +kernel

end ComponentLens
