/-
# Rendered markup

A `Forest` is markup without directives: elements with plain attributes, texts, interpolations and comments.
`Forest.render` writes it down, and `Forest.placed` is the tree that it stands for, each node with the place
that it is rendered at.  The lemmas here are about one piece each: in front of any continuation, the reader
takes a rendered comment, interpolation, opening or closing tag for what it is (`readPiece_openTag` and the
others).  A text is the one piece that depends on what follows it (`readPiece_text`).
-/
import ComponentLens.Markup.Parse
import ComponentLens.Proofs.Text.Reads

namespace ComponentLens.Markup

/-! ## 1. Forests -/

/-- An attribute with a value in double quotes. -/
structure StaticAttribute where
  name : List Char
  value : List Char

/-- Markup: the first node, and the nodes behind it. -/
inductive Forest where
  | nil
  | element (name : List Char) (attributes : List StaticAttribute) (children next : Forest)
  | text (content : List Char) (next : Forest)
  | interpolation (content : List Char) (next : Forest)
  | comment (content : List Char) (next : Forest)

/-- The attribute as it is written, behind a space. -/
def StaticAttribute.render (a : StaticAttribute) : List Char :=
  ' ' :: (a.name ++ '=' :: '"' :: (a.value ++ ['"']))

/-- The attributes of a tag as they are written. -/
def renderAttributes (as : List StaticAttribute) : List Char := as.flatMap (·.render)

/-- The opening tag. -/
def renderOpenTag (name : List Char) (as : List StaticAttribute) : List Char :=
  '<' :: (name ++ (renderAttributes as ++ ['>']))

/-- The closing tag. -/
def renderCloseTag (name : List Char) : List Char := '<' :: '/' :: (name ++ ['>'])

/-- The forest as it is written. -/
def Forest.render : Forest → List Char
  | .nil => []
  | .element name attributes children next =>
    renderOpenTag name attributes ++ (children.render ++ (renderCloseTag name ++ next.render))
  | .text content next => content ++ next.render
  | .interpolation content next => '\x7b' :: '\x7b' :: (content ++ '\x7d' :: '\x7d' :: next.render)
  | .comment content next => '<' :: '!' :: '-' :: '-' :: (content ++ '-' :: '-' :: '>' :: next.render)

/-- The attribute that is rendered at an offset, with its places. -/
def StaticAttribute.placed (pos : Nat) (a : StaticAttribute) : TagProp :=
  let nameStop := pos + 1 + byteLength a.name
  let valueStop := nameStop + 2 + byteLength a.value
  .plain ⟨String.ofList a.name, ⟨pos + 1, nameStop⟩,
    some ⟨String.ofList a.value, ⟨nameStop + 2, valueStop⟩, ⟨nameStop + 1, valueStop + 1⟩⟩,
    ⟨pos + 1, valueStop + 1⟩⟩

/-- The attributes that are rendered from an offset on. -/
def placedAttributes (pos : Nat) : List StaticAttribute → List TagProp
  | [] => []
  | a :: as => a.placed pos :: placedAttributes (pos + byteLength a.render) as

/-- The nodes of a forest that is rendered from an offset on. -/
def Forest.placed (pos : Nat) : Forest → List Node
  | .nil => []
  | .element name attributes children next =>
    let nameStop := pos + 1 + byteLength name
    let inside := pos + byteLength (renderOpenTag name attributes)
    let close := inside + byteLength children.render
    let stop := close + byteLength (renderCloseTag name)
    .element ⟨String.ofList name, ⟨pos + 1, nameStop⟩, some ⟨close + 2, close + 2 + byteLength name⟩,
        placedAttributes nameStop attributes, false, ⟨pos, stop⟩⟩ (children.placed inside) ::
      next.placed stop
  | .text content next =>
    let stop := pos + byteLength content
    .text (String.ofList content) ⟨pos, stop⟩ :: next.placed stop
  | .interpolation content next =>
    let stop := pos + 4 + byteLength content
    .interpolation ⟨String.ofList content, ⟨pos + 2, pos + 2 + byteLength content⟩⟩ ⟨pos, stop⟩ ::
      next.placed stop
  | .comment content next =>
    let stop := pos + 7 + byteLength content
    .comment (String.ofList content) ⟨pos, stop⟩ :: next.placed stop

/-! ## 2. Forests that can be written down -/

/-- The name of a tag that may hold something: a letter, and behind it anything that a tag name can hold,
such as letters, digits and hyphens. -/
structure IsTagName (name : List Char) : Prop where
  first : startsName name = true
  parts : ∀ c ∈ name, isElementNamePart c = true
  holds : voidElements.contains (String.ofList name).toLower = false

/-- Whether the name of an attribute can hold the character wherever it stands. -/
def isPlainNamePart (c : Char) : Bool :=
  !isTagSpace c && c != '=' && c != '>' && c != '/' && c != '[' && c != ']'

/-- The name of an attribute that is no directive: no shorthand in front, not `v-`, and else anything that
an attribute name can hold, such as letters, digits and hyphens. -/
structure IsPlainName (name : List Char) : Prop where
  ne_nil : name ≠ []
  parts : ∀ c ∈ name, isPlainNamePart c = true
  not_directive : isDirectiveName name = false

/-- The attribute can be written down. -/
structure StaticAttribute.WellFormed (a : StaticAttribute) : Prop where
  name : IsPlainName a.name
  value : '"' ∉ a.value

/-- Whether the forest starts with a text. -/
def Forest.startsWithText : Forest → Bool
  | .text _ _ => true
  | _ => false

/-- Whether the forest starts with an interpolation. -/
def Forest.startsWithInterpolation : Forest → Bool
  | .interpolation _ _ => true
  | _ => false

/-- The forest can be written down: no part holds what would end it, and no two texts are adjacent. -/
def Forest.WellFormed : Forest → Prop
  | .nil => True
  | .element name attributes children next =>
    IsTagName name ∧ (∀ a ∈ attributes, a.WellFormed) ∧ children.WellFormed ∧ next.WellFormed
  | .text content next =>
    content ≠ [] ∧ '<' ∉ content ∧ '\x7b' ∉ content ∧ next.startsWithText = false ∧ next.WellFormed
  | .interpolation content next => '\x7d' ∉ content ∧ next.WellFormed
  | .comment content next => ¬ ['-', '-', '>'] <:+: content ∧ next.WellFormed

/-- Every text stops where it was rendered: none that starts outside ASCII stands directly in front of an
interpolation. -/
def Forest.TextsStop : Forest → Prop
  | .nil => True
  | .element _ _ children next => children.TextsStop ∧ next.TextsStop
  | .text content next =>
    ((∃ c ∈ content.head?, 0x80 ≤ c.val) → next.startsWithInterpolation = false) ∧ next.TextsStop
  | .interpolation _ next => next.TextsStop
  | .comment _ next => next.TextsStop

/-- Whether the character may stand behind the letter that a name starts with. -/
def isWordPart (c : Char) : Bool := c.isAlphanum || c == '-'

theorem ne_of_isWordPart {c d : Char} (h : isWordPart c = true) (hd : isWordPart d = false) : c ≠ d := by
  rintro rfl
  rw [h] at hd
  exact Bool.noConfusion hd

theorem isWordPart_of_isAlpha {c : Char} (h : c.isAlpha = true) : isWordPart c = true := by
  rw [isWordPart, Char.isAlphanum, h, Bool.true_or, Bool.true_or]

theorem isWordPart_of_mem {c : Char} {cs : List Char} (hc : c.isAlpha = true)
    (hcs : ∀ d ∈ cs, isWordPart d = true) : ∀ d ∈ c :: cs, isWordPart d = true :=
  List.forall_mem_cons.2 ⟨isWordPart_of_isAlpha hc, hcs⟩

theorem not_isTagSpace_of_isWordPart {c : Char} (h : isWordPart c = true) : isTagSpace c = false := by
  have hspace := ne_of_isWordPart (d := ' ') h (by decide)
  have htab := ne_of_isWordPart (d := '\t') h (by decide)
  have hline := ne_of_isWordPart (d := '\n') h (by decide)
  have hpage := ne_of_isWordPart (d := '\x0c') h (by decide)
  have hreturn := ne_of_isWordPart (d := '\r') h (by decide)
  simp [isTagSpace, hspace, htab, hline, hpage, hreturn]

/-- A letter, and behind it letters, digits and hyphens, is the name of a tag that may hold something unless
it names one that never does. -/
theorem isTagName_of_word {c : Char} {cs : List Char} (hc : c.isAlpha = true)
    (hcs : ∀ d ∈ cs, isWordPart d = true)
    (hholds : voidElements.contains (String.ofList (c :: cs)).toLower = false) : IsTagName (c :: cs) where
  first := by rw [startsName, List.head?_cons, Option.any_some, hc]
  parts d hd := by
    have hword := isWordPart_of_mem hc hcs d hd
    have hclose := ne_of_isWordPart (d := '>') hword (by decide)
    have hslash := ne_of_isWordPart (d := '/') hword (by decide)
    simp [isElementNamePart, not_isTagSpace_of_isWordPart hword, hclose, hslash]
  holds := hholds

/-- A letter, and behind it letters, digits and hyphens, is the name of a plain attribute unless it starts
with `v-`. -/
theorem isPlainName_of_word {c : Char} {cs : List Char} (hc : c.isAlpha = true)
    (hcs : ∀ d ∈ cs, isWordPart d = true) (hmark : ¬ ['v', '-'] <+: c :: cs) : IsPlainName (c :: cs) where
  ne_nil := List.cons_ne_nil c cs
  parts d hd := by
    have hword := isWordPart_of_mem hc hcs d hd
    have hequals := ne_of_isWordPart (d := '=') hword (by decide)
    have hclose := ne_of_isWordPart (d := '>') hword (by decide)
    have hslash := ne_of_isWordPart (d := '/') hword (by decide)
    have hleft := ne_of_isWordPart (d := '[') hword (by decide)
    have hright := ne_of_isWordPart (d := ']') hword (by decide)
    simp [isPlainNamePart, not_isTagSpace_of_isWordPart hword, hequals, hclose, hslash, hleft, hright]
  not_directive := by
    unfold isDirectiveName
    split
    next h => exact absurd hc (by rw [(List.cons.inj h).1]; decide)
    next h => exact absurd hc (by rw [(List.cons.inj h).1]; decide)
    next h => exact absurd hc (by rw [(List.cons.inj h).1]; decide)
    next h => exact absurd hc (by rw [(List.cons.inj h).1]; decide)
    next d rest h => exact absurd ⟨d :: rest, h.symm⟩ hmark
    next => rfl

/-! ## 3. Attributes -/

theorem takeWhile_append_of_stop {p : Char → Bool} {cs : List Char} (hcs : ∀ c ∈ cs, p c = true) {c : Char}
    (hc : p c = false) (rest : List Char) :
    (cs ++ c :: rest).takeWhile p = cs ∧ (cs ++ c :: rest).dropWhile p = c :: rest :=
  takeWhile_append_of_head? hcs (by simpa using hc)

/-- The name of an attribute ends at its equals sign. -/
theorem readName_plain {name : List Char} (h : ∀ c ∈ name, isPlainNamePart c = true) (rest : List Char) :
    readName 0 (name ++ '=' :: rest) = (name, '=' :: rest) := by
  induction name with
  | nil => simp [readName]
  | cons c cs ih =>
    obtain ⟨hc, hcs⟩ := List.forall_mem_cons.1 h
    simp only [isPlainNamePart, Bool.and_eq_true, Bool.not_eq_true', bne_iff_ne, ne_eq] at hc
    obtain ⟨⟨⟨⟨⟨hspace, heq⟩, hclose⟩, hslash⟩, hopen⟩, hbracket⟩ := hc
    simp [readName, hspace, heq, hclose, hslash, hopen, hbracket, ih hcs]

/-- A value in double quotes. -/
theorem readValue?_quoted {value : List Char} (h : '"' ∉ value) (rest : List Char) :
    readValue? ('=' :: '"' :: (value ++ '"' :: rest)) = some ⟨['='], ['"'], value, ['"'], rest⟩ := by
  have hparts : ∀ c ∈ value, (c != '"') = true := by
    intro c hc
    rw [bne_iff_ne]
    rintro rfl
    exact h hc
  have hstop : ('"' != '"') = false := by decide
  obtain ⟨htake, hdrop⟩ := takeWhile_append_of_stop hparts hstop rest
  have hspace : isTagSpace '=' = false := by decide
  have hquote : isTagSpace '"' = false := by decide
  simp [readValue?, readBareOrQuoted, hspace, hquote, htake, hdrop]

theorem renderAttributes_cons (a : StaticAttribute) (as : List StaticAttribute) :
    renderAttributes (a :: as) = a.render ++ renderAttributes as := rfl

theorem readProps_space (pos : Nat) (cs : List Char) :
    readProps pos (' ' :: cs) = (readProps (pos + 1) cs).prepend [' '] := by
  have hspace : isTagSpace ' ' = true := by decide
  have hsize : ' '.utf8Size = 1 := rfl
  conv => lhs; unfold readProps
  simp [hspace, hsize]

/-- An attribute with a value in double quotes. -/
theorem readProps_attribute {a : StaticAttribute} (ha : a.WellFormed) (pos : Nat) (rest : List Char) :
    readProps pos (a.name ++ '=' :: '"' :: (a.value ++ '"' :: rest)) =
      (readProps (pos + byteLength a.name + (3 + byteLength a.value)) rest).cons
        (.ofReading pos a.name (some ⟨['='], ['"'], a.value, ['"'], rest⟩))
        (a.name ++ '=' :: '"' :: (a.value ++ ['"'])) := by
  obtain ⟨c, cs, hname⟩ := List.exists_cons_of_ne_nil ha.name.ne_nil
  have hparts := ha.name.parts
  rw [hname] at hparts ⊢
  obtain ⟨hc, hcs⟩ := List.forall_mem_cons.1 hparts
  simp only [isPlainNamePart, Bool.and_eq_true, Bool.not_eq_true', bne_iff_ne, ne_eq] at hc
  obtain ⟨⟨⟨⟨⟨hspace, heq⟩, hclose⟩, hslash⟩, hopen⟩, hbracket⟩ := hc
  have htail : nameTail c (cs ++ '=' :: '"' :: (a.value ++ '"' :: rest)) =
      (cs, '=' :: '"' :: (a.value ++ '"' :: rest)) := by
    simp [nameTail, heq, hopen, readName_plain hcs]
  have hvalue := readValue?_quoted ha.value rest
  rw [List.cons_append]
  conv => lhs; unfold readProps
  rw [if_neg (by simp [hclose]), if_neg (by simp [hslash]), if_neg (by simp [hspace, hslash])]
  dsimp only
  split
  next v hv =>
    rw [htail, hvalue] at hv
    cases hv
    have hequals : '='.utf8Size = 1 := rfl
    have hquote : '"'.utf8Size = 1 := rfl
    have hlength : byteLength (['='] ++ (['"'] ++ (a.value ++ ['"']))) = 3 + byteLength a.value := by
      simp only [byteLength_append, byteLength_cons, byteLength_nil, hequals, hquote]
      omega
    simp only [htail, ValueReading.passed, hlength]
    rfl
  next hv =>
    rw [htail, hvalue] at hv
    simp at hv

/-- The property that an attribute is read as. -/
theorem ofReading_plain {a : StaticAttribute} (ha : a.WellFormed) (pos : Nat) (rest : List Char) :
    TagProp.ofReading (pos + 1) a.name (some ⟨['='], ['"'], a.value, ['"'], rest⟩) = a.placed pos := by
  have hequals : '='.utf8Size = 1 := rfl
  have hquote : '"'.utf8Size = 1 := rfl
  rw [TagProp.ofReading, ha.name.not_directive, if_neg Bool.false_ne_true, StaticAttribute.placed]
  simp only [Option.map_some, Option.getD_some, ValueReading.span, ValueReading.quotedSpan,
    ValueReading.passed, byteLength_append, byteLength_cons, byteLength_nil, hequals, hquote]
  have hvalue : pos + 1 + byteLength a.name + (1 + (1 + (byteLength a.value + 1))) =
      pos + 1 + byteLength a.name + 2 + byteLength a.value + 1 := by omega
  simp only [Nat.add_zero, hvalue]

/-- **The attributes of a tag.** -/
theorem readProps_attributes {as : List StaticAttribute} (h : ∀ a ∈ as, a.WellFormed) (pos : Nat)
    (rest : List Char) :
    readProps pos (renderAttributes as ++ '>' :: rest) =
      ⟨placedAttributes pos as, false, renderAttributes as ++ ['>'], rest⟩ := by
  induction as generalizing pos with
  | nil => simp [renderAttributes, readProps, placedAttributes]
  | cons a as ih =>
    obtain ⟨ha, has⟩ := List.forall_mem_cons.1 h
    have hspace : ' '.utf8Size = 1 := rfl
    have hequals : '='.utf8Size = 1 := rfl
    have hquote : '"'.utf8Size = 1 := rfl
    have hlength : pos + 1 + byteLength a.name + (3 + byteLength a.value) = pos + byteLength a.render := by
      simp only [StaticAttribute.render, byteLength_append, byteLength_cons, byteLength_nil, hspace,
        hequals, hquote]
      omega
    have hread := readProps_attribute ha (pos + 1) (renderAttributes as ++ '>' :: rest)
    rw [hlength, ih has] at hread
    rw [ofReading_plain ha] at hread
    have hwritten : renderAttributes (a :: as) ++ '>' :: rest =
        ' ' :: (a.name ++ '=' :: '"' :: (a.value ++ '"' :: (renderAttributes as ++ '>' :: rest))) := by
      simp [renderAttributes_cons, StaticAttribute.render]
    rw [hwritten, readProps_space, hread, placedAttributes, renderAttributes_cons]
    simp [PropsReading.cons, PropsReading.prepend, StaticAttribute.render]

/-! ## 4. Pieces -/

theorem exists_cons_of_startsName {cs : List Char} (h : startsName cs = true) :
    ∃ c rest, cs = c :: rest ∧ c.isAlpha = true := by
  cases cs with
  | nil => simp [startsName] at h
  | cons c rest => exact ⟨c, rest, rfl, by simpa [startsName] using h⟩

theorem ne_of_isAlpha {c d : Char} (h : c.isAlpha = true) (hd : d.isAlpha = false) : c ≠ d := by
  rintro rfl
  rw [h] at hd
  simp at hd

/-- The name of a tag ends where its attributes or the tag do. -/
theorem takeWhile_tagName {name : List Char} (h : IsTagName name) (as : List StaticAttribute)
    (rest : List Char) :
    (name ++ (renderAttributes as ++ '>' :: rest)).takeWhile isElementNamePart = name ∧
      (name ++ (renderAttributes as ++ '>' :: rest)).dropWhile isElementNamePart =
        renderAttributes as ++ '>' :: rest := by
  cases as with
  | nil => exact takeWhile_append_of_stop h.parts (by decide) rest
  | cons a as => exact takeWhile_append_of_stop h.parts (by decide) _

/-- **An opening tag.** -/
theorem readPiece_openTag {name : List Char} (h : IsTagName name) {as : List StaticAttribute}
    (has : ∀ a ∈ as, a.WellFormed) (pos : Nat) (rest : List Char) :
    readPiece pos '<' (name ++ (renderAttributes as ++ '>' :: rest)) =
      ⟨.openTag ⟨String.ofList name, ⟨pos + 1, pos + 1 + byteLength name⟩, none,
          placedAttributes (pos + 1 + byteLength name) as, false,
          ⟨pos, pos + byteLength (renderOpenTag name as)⟩⟩,
        renderOpenTag name as, rest⟩ := by
  obtain ⟨htake, hdrop⟩ := takeWhile_tagName h as rest
  obtain ⟨c, cs, hname, hc⟩ := exists_cons_of_startsName h.first
  have hbang := ne_of_isAlpha (d := '!') hc (by decide)
  have hslash := ne_of_isAlpha (d := '/') hc (by decide)
  rw [readPiece, if_neg (by simp [hname, Ne.symm hbang]), if_neg (by simp [hname, hslash]),
    if_pos (by simp [hname, startsName, hc]), readOpenTag]
  simp only [htake, hdrop, readProps_attributes has, renderOpenTag]

/-- **A closing tag.** -/
theorem readPiece_closeTag {name : List Char} (h : IsTagName name) (pos : Nat) (rest : List Char) :
    readPiece pos '<' ('/' :: (name ++ '>' :: rest)) =
      ⟨.closeTag (String.ofList name) ⟨pos + 2, pos + 2 + byteLength name⟩
          ⟨pos, pos + byteLength (renderCloseTag name)⟩,
        renderCloseTag name, rest⟩ := by
  have hstop : isElementNamePart '>' = false := by decide
  obtain ⟨htake, hdrop⟩ := takeWhile_append_of_stop h.parts hstop rest
  obtain ⟨c, cs, hname, hc⟩ := exists_cons_of_startsName h.first
  rw [readPiece, if_neg (by simp), if_pos (by simp [hname, startsName, hc]), readCloseTag]
  simp [htake, hdrop, cutAfter, renderCloseTag]

/-- A text without the needle, and with no start of it that could be completed behind, is passed whole. -/
theorem breakOn_append_of_not_infix {needle cs rest : List Char}
    (h : ∀ before after, cs = before ++ after → after ≠ [] → ¬ needle <+: after ++ rest)
    (hneedle : needle <+: rest) (hrest : rest ≠ []) : breakOn needle (cs ++ rest) = (cs, rest) := by
  induction cs with
  | nil =>
    cases rest with
    | nil => exact absurd rfl hrest
    | cons c cs => rw [List.nil_append, breakOn, if_pos (List.isPrefixOf_iff_prefix.2 hneedle)]
  | cons c cs ih =>
    have hhere : ¬ needle <+: c :: (cs ++ rest) := h [] (c :: cs) rfl (List.cons_ne_nil c cs)
    have hlater := ih fun before after heq hne => h (c :: before) after (by rw [heq, List.cons_append]) hne
    rw [List.cons_append, breakOn, if_neg (by rwa [List.isPrefixOf_iff_prefix]), hlater]

theorem byteLength_interpolation (content rest : List Char) :
    byteLength ('\x7b' :: '\x7b' :: (content ++ '\x7d' :: '\x7d' :: rest)) =
      4 + byteLength content + byteLength rest := by
  have hopen : '\x7b'.utf8Size = 1 := rfl
  have hclose : '\x7d'.utf8Size = 1 := rfl
  simp only [byteLength_cons, byteLength_append, hopen, hclose]
  omega

theorem byteLength_comment (content rest : List Char) :
    byteLength ('<' :: '!' :: '-' :: '-' :: (content ++ '-' :: '-' :: '>' :: rest)) =
      7 + byteLength content + byteLength rest := by
  have hlt : '<'.utf8Size = 1 := rfl
  have hbang : '!'.utf8Size = 1 := rfl
  have hdash : '-'.utf8Size = 1 := rfl
  have hgt : '>'.utf8Size = 1 := rfl
  simp only [byteLength_cons, byteLength_append, hlt, hbang, hdash, hgt]
  omega

/-- **An interpolation.** -/
theorem readPiece_interpolation {content : List Char} (h : '\x7d' ∉ content) (pos : Nat) (rest : List Char) :
    readPiece pos '\x7b' ('\x7b' :: (content ++ '\x7d' :: '\x7d' :: rest)) =
      ⟨.interpolation ⟨String.ofList content, ⟨pos + 2, pos + 2 + byteLength content⟩⟩
          ⟨pos, pos + 4 + byteLength content⟩,
        '\x7b' :: '\x7b' :: (content ++ ['\x7d', '\x7d']), rest⟩ := by
  have hbreak : breakOn ['\x7d', '\x7d'] (content ++ '\x7d' :: '\x7d' :: rest) =
      (content, '\x7d' :: '\x7d' :: rest) := by
    refine breakOn_append_of_not_infix ?_ ⟨rest, rfl⟩ (List.cons_ne_nil _ _)
    rintro before (_ | ⟨c, after⟩) rfl hne hprefix
    · exact hne rfl
    · rw [List.cons_append, List.cons_prefix_cons] at hprefix
      exact h (by simp [← hprefix.1])
  have hlength : pos + byteLength ('\x7b' :: '\x7b' :: (content ++ ['\x7d', '\x7d'])) =
      pos + 4 + byteLength content := by
    rw [byteLength_interpolation, byteLength_nil]
    omega
  rw [readPiece, if_neg (by simp), if_neg (by simp), if_neg (by simp), if_pos (by simp), ← hlength]
  simp [readInterpolation, hbreak]

/-- **A comment.** -/
theorem readPiece_comment {content : List Char} (h : ¬ ['-', '-', '>'] <:+: content) (pos : Nat)
    (rest : List Char) :
    readPiece pos '<' ('!' :: '-' :: '-' :: (content ++ '-' :: '-' :: '>' :: rest)) =
      ⟨.comment (String.ofList content) ⟨pos, pos + 7 + byteLength content⟩ true,
        '<' :: '!' :: '-' :: '-' :: (content ++ ['-', '-', '>']), rest⟩ := by
  have hbreak : breakOn ['-', '-', '>'] (content ++ '-' :: '-' :: '>' :: rest) =
      (content, '-' :: '-' :: '>' :: rest) := by
    refine breakOn_append_of_not_infix ?_ ⟨rest, rfl⟩ (List.cons_ne_nil _ _)
    rintro before after rfl hne hprefix
    match after with
    | [] => exact hne rfl
    | [c] => simp at hprefix
    | [c, d] => simp at hprefix
    | c :: d :: e :: after =>
      refine h ?_
      simp only [List.cons_append, List.cons_prefix_cons] at hprefix
      obtain ⟨rfl, rfl, rfl, -⟩ := hprefix
      exact ⟨before, after, by simp⟩
  have hlength : pos + byteLength ('<' :: '!' :: '-' :: '-' :: (content ++ ['-', '-', '>'])) =
      pos + 7 + byteLength content := by
    rw [byteLength_comment, byteLength_nil]
    omega
  rw [readPiece, if_pos (by simp [List.isPrefixOf]), ← hlength]
  simp [readComment, hbreak]

/-- Whether a text ends in front of the characters.  Two opening braces count only where the text sees
braces. -/
def StopsText (seesBraces : Bool) (rest : List Char) : Prop :=
  rest = [] ∨ (∃ cs, rest = '<' :: cs ∧ endsText cs = true) ∨
    (seesBraces = true ∧ ∃ cs, rest = '\x7b' :: '\x7b' :: cs)

theorem readText_of_stops {seesBraces : Bool} {rest : List Char} (h : StopsText seesBraces rest) :
    readText seesBraces rest = ([], rest) := by
  rcases h with rfl | ⟨cs, rfl, hends⟩ | ⟨rfl, cs, rfl⟩
  · rfl
  · simp [readText, hends]
  · simp [readText]

theorem readText_append_of_stops {seesBraces : Bool} {cs rest : List Char} (hlt : '<' ∉ cs)
    (hbrace : '\x7b' ∉ cs) (h : StopsText seesBraces rest) :
    readText seesBraces (cs ++ rest) = (cs, rest) := by
  induction cs with
  | nil => exact readText_of_stops h
  | cons c cs ih =>
    rw [List.mem_cons, not_or] at hlt hbrace
    rw [List.cons_append, readText, if_neg (by simp [Ne.symm hbrace.1]), if_neg (by simp [Ne.symm hlt.1]),
      ih hlt.2 hbrace.2]

/-- **A text.**  It is read as it is rendered if it ends in front of what follows. -/
theorem readPiece_text {c : Char} {cs rest : List Char} (hlt : '<' ∉ c :: cs) (hbrace : '\x7b' ∉ c :: cs)
    (h : StopsText (c.val < 0x80) rest) (pos : Nat) :
    readPiece pos c (cs ++ rest) =
      ⟨.text (String.ofList (c :: cs)) ⟨pos, pos + byteLength (c :: cs)⟩, c :: cs, rest⟩ := by
  rw [List.mem_cons, not_or] at hlt hbrace
  rw [readPiece, if_neg (by simp [Ne.symm hlt.1]), if_neg (by simp [Ne.symm hlt.1]),
    if_neg (by simp [Ne.symm hlt.1]), if_neg (by simp [Ne.symm hbrace.1])]
  simp only [readText_append_of_stops hlt.2 hbrace.2 h]

/-- A text that does not see braces takes those that follow it. -/
theorem mem_readText_of_braces {cs : List Char} (hlt : '<' ∉ cs) (rest : List Char) :
    '\x7b' ∈ (readText false (cs ++ '\x7b' :: rest)).1 := by
  induction cs with
  | nil => simp [readText]
  | cons c cs ih =>
    rw [List.mem_cons, not_or] at hlt
    rw [List.cons_append, readText, if_neg (by simp), if_neg (by simp [Ne.symm hlt.1])]
    exact List.mem_cons_of_mem c (ih hlt.2)

/-- **A text that takes in an interpolation.**  Behind a first character outside ASCII, the braces of an
interpolation are read as text. -/
theorem readPiece_text_of_braces {c : Char} {cs : List Char} (hc : 0x80 ≤ c.val) (hlt : '<' ∉ c :: cs)
    (hbrace : '\x7b' ∉ c :: cs) (pos : Nat) (rest : List Char) :
    ∃ content span, (readPiece pos c (cs ++ '\x7b' :: rest)).piece = .text content span ∧
      '\x7b' ∈ content.toList := by
  rw [List.mem_cons, not_or] at hlt hbrace
  have hwide : decide (c.val < 0x80) = false := by
    rw [decide_eq_false_iff_not, UInt32.not_lt]
    exact hc
  rw [readPiece, if_neg (by simp [Ne.symm hlt.1]), if_neg (by simp [Ne.symm hlt.1]),
    if_neg (by simp [Ne.symm hlt.1]), if_neg (by simp [Ne.symm hbrace.1]), hwide]
  refine ⟨_, _, rfl, ?_⟩
  rw [String.toList_ofList]
  exact List.mem_cons_of_mem c (mem_readText_of_braces hlt.2 rest)

end ComponentLens.Markup
