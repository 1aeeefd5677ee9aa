/-
# Code stands in places of its own

Interpolations, conditions, the parts of loops and the values of directives are code.  Each piece of code has
a place in the template, and so has the value of each attribute that is no directive.  `parse_places_separate`
says that no two of these places meet: at least one byte stands between them.  So a place tells the code that
it belongs to, even where the code is empty (`parse_spans_nodup`).

The pieces of a text hold their code and their values in the order of the text (section 3).  Nesting puts them
into another order and loses none (section 4).  Lifting may lose some and cuts loops into parts (sections 5
and 6).  What it makes of a list of places is a refinement of them (section 2): every new place lies in an old
one, so it stays clear of all that the old one was clear of.
-/
import ComponentLens.Proofs.Markup.Braces
import ComponentLens.Proofs.Markup.Parts

namespace ComponentLens.Markup

/-! ## 1. Sites -/

/-- The place of an expression, by its start and its text. -/
def Expression.extent (e : Expression) : Span :=
  ⟨e.span.start, e.span.start + byteLength e.content.toList⟩

theorem Expression.StandsIn.extent_eq {source : List Char} {e : Expression} (h : e.StandsIn source) :
    e.extent = e.span := by
  rw [Expression.extent, ← h.stop_eq]

/-- The code that is a part of its own: an interpolation, a condition or a part of a loop. -/
def Part.expressions : Part → List Expression
  | .code e => [e]
  | _ => []

/-- The code of a directive. -/
def Part.values : Part → List Expression
  | .prop (.directive d) => d.exp.toList
  | _ => []

/-- The value of an attribute that is no directive. -/
def Part.attrValues : Part → List AttrValue
  | .prop (.plain a) => a.value.toList
  | _ => []

/-- The places of the code in a part. -/
def Part.sites (part : Part) : List Span := (part.expressions ++ part.values).map (·.extent)

/-- The places of the code and of the attribute values in a part. -/
def Part.places (part : Part) : List Span := part.sites ++ part.attrValues.map (·.span)

@[simp] theorem Part.places_name (s : Span) : (Part.name s).places = [] := rfl

@[simp] theorem Part.places_code (e : Expression) : (Part.code e).places = [e.extent] := rfl

@[simp] theorem Part.places_directive (d : Directive) :
    (Part.prop (.directive d)).places = d.exp.toList.map (·.extent) := List.append_nil _

@[simp] theorem Part.places_plain (a : Attribute) :
    (Part.prop (.plain a)).places = a.value.toList.map (·.span) := rfl

/-- The interpolations, conditions and parts of loops among parts. -/
def expressions (parts : List Part) : List Expression := parts.flatMap Part.expressions

/-- The code of the directives among parts. -/
def values (parts : List Part) : List Expression := parts.flatMap Part.values

/-- The values of the attributes among parts. -/
def attrValues (parts : List Part) : List AttrValue := parts.flatMap Part.attrValues

/-- All places of code in parts. -/
def sites (parts : List Part) : List Span := parts.flatMap Part.sites

/-- All places of code and of attribute values in parts. -/
def places (parts : List Part) : List Span := parts.flatMap Part.places

@[simp] theorem places_nil : places [] = [] := rfl

@[simp] theorem places_cons (part : Part) (parts : List Part) :
    places (part :: parts) = part.places ++ places parts := rfl

@[simp] theorem places_append (parts more : List Part) :
    places (parts ++ more) = places parts ++ places more := by
  simp [places]

@[simp] theorem places_code (es : List Expression) : places (es.map .code) = es.map (·.extent) := by
  induction es with
  | nil => rfl
  | cons e es ih => simp [ih]

/-- Names are neither code nor values. -/
@[simp] theorem places_tag (tag : Tag) : places tag.parts = places (tag.props.map .prop) := by
  cases h : tag.endNameSpan <;> simp [Tag.parts, h]

theorem places_perm {parts more : List Part} (h : parts.Perm more) : (places parts).Perm (places more) :=
  h.flatMap_right _

/-- The places of code are among all places, in the same order. -/
theorem sites_sublist_places (parts : List Part) : (sites parts).Sublist (places parts) := by
  induction parts with
  | nil => exact .refl _
  | cons part parts ih => exact (List.sublist_append_left ..).append ih

/-- The places of attribute values are among all places, in the same order. -/
theorem attrValues_sublist_places (parts : List Part) :
    ((attrValues parts).map (·.span)).Sublist (places parts) := by
  induction parts with
  | nil => exact .refl _
  | cons part parts ih =>
    rw [attrValues, List.flatMap_cons, List.map_append, places_cons]
    exact (List.sublist_append_right ..).append ih

@[simp] theorem expressions_append (parts more : List Part) :
    expressions (parts ++ more) = expressions parts ++ expressions more := by
  simp [expressions]

@[simp] theorem expressions_cons_code (e : Expression) (parts : List Part) :
    expressions (.code e :: parts) = e :: expressions parts := rfl

@[simp] theorem expressions_code (es : List Expression) : expressions (es.map .code) = es := by
  induction es with
  | nil => rfl
  | cons e es ih => simp [ih]

/-- A tag holds code in its directives only. -/
@[simp] theorem expressions_tag (tag : Tag) : expressions tag.parts = [] := by
  cases h : tag.endNameSpan <;> simp [expressions, Part.expressions, Tag.parts, h]

@[simp] theorem values_append (parts more : List Part) :
    values (parts ++ more) = values parts ++ values more := by
  simp [values]

theorem nodeParts_append (nodes more : List Node) :
    nodeParts (nodes ++ more) = nodeParts nodes ++ nodeParts more := by
  induction nodes with
  | nil => rfl
  | cons node nodes ih => simp [nodeParts, ih]

/-- Siblings in another order hold the same code and the same values. -/
theorem places_reverse (nodes : List Node) :
    (places (nodeParts nodes.reverse)).Perm (places (nodeParts nodes)) := by
  induction nodes with
  | nil => rfl
  | cons node rest ih =>
    rw [List.reverse_cons, nodeParts_append]
    simp only [nodeParts, places_append, List.append_nil]
    exact (ih.append_right _).trans List.perm_append_comm

/-- A place of code belongs to an expression or to a directive. -/
theorem sites_perm_expressions (parts : List Part) :
    (sites parts).Perm ((expressions parts ++ values parts).map (·.extent)) := by
  induction parts with
  | nil => exact .refl _
  | cons part parts ih =>
    rw [List.perm_iff_count]
    intro s
    have hcount := ih.count_eq s
    have hcons : sites (part :: parts) = part.sites ++ sites parts := rfl
    simp only [List.map_append, List.count_append] at hcount
    simp only [hcons, hcount, expressions, values, Part.sites, List.flatMap_cons, List.map_append,
      List.count_append]
    omega

/-! ## 2. Separate places -/

/-- Something stands between the two. -/
def Clear (a b : Span) : Prop := a.stop < b.start ∨ b.stop < a.start

theorem Clear.symm {a b : Span} (h : Clear a b) : Clear b a := Or.symm h

/-- No place is inverted, and any two are clear of each other. -/
structure Separate (ss : List Span) : Prop where
  ordered : ∀ s ∈ ss, s.start ≤ s.stop
  clear : ss.Pairwise Clear

namespace Separate

variable {ss ts : List Span}

theorem perm (h : Separate ss) (hperm : ss.Perm ts) : Separate ts :=
  ⟨fun s hs => h.ordered s (hperm.mem_iff.2 hs), hperm.pairwise h.clear Clear.symm⟩

theorem sublist (h : Separate ss) (hsub : ts.Sublist ss) : Separate ts :=
  ⟨fun s hs => h.ordered s (hsub.subset hs), h.clear.sublist hsub⟩

/-- A place tells which one of them it is. -/
theorem nodup (h : Separate ss) : ss.Nodup := by
  refine h.clear.imp_of_mem ?_
  intro a b ha _ hclear heq
  subst heq
  have := h.ordered a ha
  rcases hclear with hlt | hlt <;> omega

end Separate

/-- Beside whatever places the old ones are separate, the new ones are so, too. -/
def Refines (old new : List Span) : Prop := ∀ beside, Separate (old ++ beside) → Separate (new ++ beside)

namespace Refines

variable {old mid new old' new' : List Span}

theorem of_perm (h : old.Perm new) : Refines old new := fun _ hold => hold.perm (h.append_right _)

theorem refl (old : List Span) : Refines old old := fun _ hold => hold

theorem of_sublist (h : new.Sublist old) : Refines old new := fun _ hold => hold.sublist (h.append_right _)

theorem trans (h : Refines old mid) (hnext : Refines mid new) : Refines old new :=
  fun beside hold => hnext beside (h beside hold)

/-- Each side of a list is refined beside the other. -/
theorem append (h : Refines old new) (h' : Refines old' new') : Refines (old ++ old') (new ++ new') := by
  intro beside hold
  rw [List.append_assoc] at hold
  have hleft : Separate (old' ++ (beside ++ new)) :=
    (h _ hold).perm (List.perm_iff_count.2 fun s => by simp only [List.count_append]; omega)
  exact (h' _ hleft).perm (List.perm_iff_count.2 fun s => by simp only [List.count_append]; omega)

/-- A place may be cut into places of its own. -/
theorem cut {outer : Span} (h : Separate new)
    (hinside : ∀ s ∈ new, outer.start ≤ s.start ∧ s.stop ≤ outer.stop) : Refines [outer] new := by
  intro beside hold
  obtain ⟨hfirst, hbeside⟩ := List.pairwise_cons.1 hold.clear
  refine ⟨?_, List.pairwise_append.2 ⟨h.clear, hbeside, ?_⟩⟩
  · intro s hs
    rcases List.mem_append.1 hs with hs | hs
    · exact h.ordered s hs
    · exact hold.ordered s (List.mem_cons_of_mem _ hs)
  · intro s hs other hother
    have hin := hinside s hs
    rcases hfirst other hother with hlt | hlt
    · exact .inl (by omega)
    · exact .inr (by omega)

theorem separate (h : Refines old new) (hold : Separate old) : Separate new := by
  simpa using h [] (by simpa using hold)

end Refines

/-- The places stand in this order between the two offsets, each clear of the next. -/
structure Between (lo hi : Nat) (ss : List Span) : Prop where
  inside : ∀ s ∈ ss, lo ≤ s.start ∧ s.start ≤ s.stop ∧ s.stop ≤ hi
  order : ss.Pairwise (·.stop < ·.start)

namespace Between

variable {lo mid mid' hi : Nat} {s : Span} {ss ts : List Span}

theorem nil : Between lo hi [] := ⟨by simp, .nil⟩

theorem single (hlo : lo ≤ s.start) (hs : s.start ≤ s.stop) (hhi : s.stop ≤ hi) : Between lo hi [s] :=
  ⟨by simpa using ⟨hlo, hs, hhi⟩, List.pairwise_singleton _ _⟩

theorem append (h : Between lo mid ss) (h' : Between mid' hi ts) (hmid : mid < mid') (hlo : lo ≤ mid')
    (hhi : mid ≤ hi) : Between lo hi (ss ++ ts) := by
  refine ⟨?_, List.pairwise_append.2 ⟨h.order, h'.order, ?_⟩⟩
  · intro s hs
    rcases List.mem_append.1 hs with hs | hs
    · have := h.inside s hs
      omega
    · have := h'.inside s hs
      omega
  · intro s hs t ht
    have := h.inside s hs
    have := h'.inside t ht
    omega

theorem mono {lo' hi' : Nat} (h : Between lo hi ss) (hlo : lo' ≤ lo) (hhi : hi ≤ hi') :
    Between lo' hi' ss := by
  refine ⟨?_, h.order⟩
  intro s hs
  have := h.inside s hs
  omega

theorem separate (h : Between lo hi ss) : Separate ss :=
  ⟨fun s hs => (h.inside s hs).2.1, h.order.imp .inl⟩

end Between

/-! ## 3. Pieces -/

/-- A value stands behind the name that it belongs to, with an equals sign in between. -/
theorem value_between (v : ValueReading) {pos : Nat} {name : List Char}
    (hname : 0 < byteLength name) :
    Between (pos + 1) (pos + byteLength name + byteLength v.passed) [v.span (pos + byteLength name)] := by
  refine .single ?_ ?_ ?_ <;> simp [ValueReading.span, ValueReading.passed] <;> omega

/-- The value of an attribute or a directive. -/
theorem TagProp.ofReading_places (pos : Nat) (name : List Char) (value : Option ValueReading)
    (hname : 0 < byteLength name) :
    Between (pos + 1) (pos + byteLength name + (value.map (byteLength ·.passed)).getD 0)
      (Part.prop (TagProp.ofReading pos name value)).places := by
  have hextent : ∀ v : ValueReading,
      Expression.extent ⟨String.ofList v.value, v.span (pos + byteLength name)⟩ =
        v.span (pos + byteLength name) := by
    intro v
    simp [Expression.extent, ValueReading.span]
  unfold TagProp.ofReading
  dsimp only
  split
  next =>
    cases value with
    | none => exact .nil
    | some v => simpa [Directive.ofName, hextent] using value_between v hname
  next =>
    cases value with
    | none => exact .nil
    | some v => exact value_between v hname

/-- The values of a tag stand in the text that is read, in their order. -/
theorem readProps_places (pos : Nat) (cs : List Char) :
    Between (pos + 1) (pos + byteLength (readProps pos cs).passed)
      (places ((readProps pos cs).props.map .prop)) := by
  fun_induction readProps pos cs with
  | case1 => exact .nil
  | case2 => exact .nil
  | case3 => exact .nil
  | case4 pos c cs _ _ _ ih =>
    simp only [PropsReading.prepend, byteLength_append, byteLength_cons, byteLength_nil]
    exact ih.mono (by omega) (by omega)
  | case5 pos c cs _ _ _ tail name _ v h _ ih =>
    have hname : 0 < byteLength name := Nat.add_pos_left c.utf8Size_pos _
    have hhead := TagProp.ofReading_places pos name (some v) hname
    simp only [Option.map_some, Option.getD_some] at hhead
    simp only [PropsReading.cons, PropsReading.prepend, List.map_cons, places_cons, byteLength_append]
    exact (hhead.append ih (by omega) (by omega) (by omega)).mono (by omega) (by omega)
  | case6 pos c cs _ _ _ tail name _ h ih =>
    have hname : 0 < byteLength name := Nat.add_pos_left c.utf8Size_pos _
    have hhead := TagProp.ofReading_places pos name none hname
    simp only [Option.map_none, Option.getD_none, Nat.add_zero] at hhead
    simp only [PropsReading.cons, PropsReading.prepend, List.map_cons, places_cons, byteLength_append]
    exact (hhead.append ih (by omega) (by omega) (by omega)).mono (by omega) (by omega)

/-- The code and values of a piece stand inside the piece, behind its first character. -/
theorem readPiece_places (pos : Nat) (c : Char) (cs : List Char) :
    Between (pos + 1) (pos + byteLength (readPiece pos c cs).passed)
      (places (readPiece pos c cs).piece.parts) := by
  unfold readPiece
  split
  · exact .nil
  split
  · exact .nil
  split
  · have hlt : '<'.utf8Size = 1 := rfl
    have hprops := readProps_places (pos + 1 + byteLength (cs.takeWhile isElementNamePart))
      (cs.dropWhile isElementNamePart)
    simp only [readOpenTag, Piece.parts, places_tag, byteLength_cons, byteLength_append]
    exact hprops.mono (by omega) (by omega)
  split
  · have hbrace : '\x7b'.utf8Size = 1 := rfl
    by_cases hclosed : (breakOn ['\x7d', '\x7d'] cs.tail).2.isEmpty
    · simp only [readInterpolation, hclosed, if_true]
      exact .nil
    · simp only [readInterpolation, hclosed, Bool.false_eq_true, if_false]
      refine .single ?_ ?_ ?_
      · simp [Expression.extent]
      · simp [Expression.extent]
      · simp [Expression.extent, hbrace]
        omega
  · exact .nil

/-- The code and values of a text stand in the order of the text. -/
theorem pieces_places (pos : Nat) (cs : List Char) :
    Between (pos + 1) (pos + byteLength cs) (places ((pieces pos cs).flatMap Piece.parts)) := by
  fun_induction pieces pos cs with
  | case1 => exact .nil
  | case2 pos c cs _ ih =>
    have hcs := congrArg byteLength (readPiece_append pos c cs)
    have hpassed : byteLength (readPiece pos c cs).passed ≠ 0 := fun h =>
      readPiece_passed_ne_nil pos c cs (eq_nil_of_byteLength_eq_zero h)
    simp only [byteLength_append] at hcs
    rw [List.flatMap_cons, places_append, ← hcs]
    exact ((readPiece_places pos c cs).append ih (by omega) (by omega) (by omega)).mono (by omega) (by omega)

/-! ## 4. Nesting -/

/-- The places of the code and values that a builder has taken in. -/
def Builder.places (b : Builder) : List Span :=
  Markup.places (nodeParts b.here) ++
    b.opened.flatMap fun o => Markup.places o.tag.parts ++ Markup.places (nodeParts o.siblings)

namespace Builder

variable {b : Builder}

theorem places_add (b : Builder) (node : Node) : (b.add node).places = Markup.places node.parts ++ b.places := by
  simp [places, add, nodeParts]

/-- Ending the innermost element moves its children into it. -/
theorem closeElement_places {o : OpenElement} {outer : List OpenElement} (hopened : b.opened = o :: outer)
    (endName : Option Span) (stop : Nat) :
    ({ b with here := b.closeElement o endName stop, opened := outer } : Builder).places.Perm b.places := by
  have hhere := places_reverse b.here
  simp only [places, closeElement, hopened, nodeParts, Node.parts, Markup.places_append, places_tag,
    List.flatMap_cons]
  rw [List.perm_iff_count]
  intro s
  have hcount := hhere.count_eq s
  simp only [List.count_append, hcount]
  omega

theorem abandon_places (b : Builder) (stop count : Nat) : (b.abandon stop count).places.Perm b.places := by
  induction count generalizing b with
  | zero => exact .refl _
  | succ count ih =>
    rw [abandon]
    split
    · exact .refl _
    next o outer hopened => exact (ih _).trans (closeElement_places (b := b.report _) hopened none stop)

theorem closeInnermost_places (b : Builder) (endName : Span) (stop : Nat) :
    (b.closeInnermost endName stop).places.Perm b.places := by
  rw [closeInnermost]
  split
  · exact .refl _
  next o outer hopened => exact closeElement_places hopened _ stop

/-- One more piece. -/
theorem addPiece_places (b : Builder) (piece : Piece) :
    (b.addPiece piece).places.Perm (Markup.places piece.parts ++ b.places) := by
  have hb : ((piece.fault?.map b.report).getD b).places = b.places := by cases piece.fault? <;> rfl
  unfold addPiece
  dsimp only
  generalize (piece.fault?.map b.report).getD b = b' at hb
  rw [← hb]
  cases piece with
  | comment => exact .of_eq (places_add ..)
  | text => exact .of_eq (places_add ..)
  | interpolation => exact .of_eq (places_add ..)
  | unclosedInterpolation => exact .of_eq (places_add ..)
  | openTag tag =>
    simp only
    split
    · exact .of_eq (by simp [places_add, Node.parts, nodeParts, Piece.parts])
    · rw [List.perm_iff_count]
      intro s
      simp only [places, nodeParts, Piece.parts, places_nil, List.flatMap_cons, List.count_append,
        List.count_nil]
      omega
  | closeTag name nameSpan span =>
    simp only
    split
    · exact .refl _
    · exact (closeInnermost_places ..).trans (abandon_places ..)

end Builder

/-- **Nesting loses no code and no value**, and finds none that is not in the text. -/
theorem build_places (source : List Char) :
    (places (nodeParts (build source).1)).Perm (places ((pieces 0 source).flatMap Piece.parts)) := by
  have hfold : ∀ (ps : List Piece) (b : Builder),
      (ps.foldl Builder.addPiece b).places.Perm (places (ps.flatMap Piece.parts) ++ b.places) := by
    intro ps
    induction ps with
    | nil => exact fun b => .refl _
    | cons p ps ih =>
      intro b
      refine (ih (b.addPiece p)).trans ?_
      rw [List.perm_iff_count]
      intro s
      have hcount := (b.addPiece_places p).count_eq s
      simp only [List.count_append] at hcount
      simp only [List.flatMap_cons, places_append, List.count_append, hcount]
      omega
  have hpieces := hfold (pieces 0 source) {}
  rw [build]
  dsimp only
  generalize (pieces 0 source).foldl Builder.addPiece {} = b at hpieces
  have hend := (b.abandon_places (byteLength source) b.opened.length).trans hpieces
  rw [Builder.places, b.opened_abandon] at hend
  exact (places_reverse _).trans (by simpa [Builder.places, nodeParts] using hend)

/-! ## 5. The parts of a loop -/

/-- A keyword takes something. -/
theorem readKeyword?_pos {cs keyword rest : List Char} (h : readKeyword? cs = some (keyword, rest)) :
    0 < byteLength keyword := by
  unfold readKeyword? at h
  split at h
  next a b after hdrop =>
    dsimp only at h
    split at h
    · cases h
      have := a.utf8Size_pos
      simp only [byteLength_append, byteLength_cons]
      omega
    · cases h
  · cases h

theorem breakAtKeyword?_pos {cs before keyword rest : List Char}
    (h : breakAtKeyword? cs = some (before, keyword, rest)) : 0 < byteLength keyword := by
  induction cs generalizing before with
  | nil => simp [breakAtKeyword?_nil] at h
  | cons c cs ih =>
    rw [breakAtKeyword?_cons] at h
    split at h
    next hkey =>
      cases h
      exact readKeyword?_pos hkey
    · obtain ⟨⟨front, rest'⟩, hcut, heq⟩ := Option.map_eq_some_iff.1 h
      cases heq
      exact ih hcut

/-- The keyword keeps the sides of a loop apart. -/
theorem loopSides?_clear {cs left right : List Char} {leftStart rightStart : Nat}
    (h : loopSides? cs = some ((leftStart, left), (rightStart, right))) :
    leftStart + byteLength left < rightStart := by
  unfold loopSides? at h
  dsimp only at h
  split at h
  next before keyword rest hcut =>
    have := breakAtKeyword?_pos hcut
    cases h
    omega
  next =>
    obtain ⟨last, hlast, h⟩ := Option.bind_eq_some_iff.1 h
    obtain ⟨⟨keyword, rest⟩, hkey, h⟩ := Option.bind_eq_some_iff.1 h
    have := readKeyword?_pos hkey
    cases h
    simpa using this

/-- The place of a name lies inside its part of the list. -/
theorem Expression.ofPart?_extent {pos : Nat} {part : List Char} {e : Expression}
    (h : Expression.ofPart? pos part = some e) : Between pos (pos + byteLength part) [e.extent] := by
  unfold Expression.ofPart? at h
  dsimp only at h
  split at h
  · cases h
  · cases h
    obtain ⟨blanks, hblanks⟩ := trimEnd_append (trimStart part)
    have hpart := congrArg byteLength (trimStart_append part)
    have htrim := congrArg byteLength hblanks
    simp only [byteLength_append] at hpart htrim
    refine .single ?_ ?_ ?_
    all_goals simp only [extent, String.toList_ofList, trim]; omega

/-- Commas keep the names of a list apart. -/
theorem aliasesFrom_extents (parts : List (List Char)) (pos : Nat) :
    Between pos (pos + byteLength ([','].intercalate parts))
      (((aliasesFrom pos parts).flatMap Option.toList).map (·.extent)) := by
  induction parts generalizing pos with
  | nil => exact .nil
  | cons part parts ih =>
    have hcomma : ','.utf8Size = 1 := rfl
    have hhead : Between pos (pos + byteLength part)
        (((Expression.ofPart? pos part).toList).map (·.extent)) := by
      cases h : Expression.ofPart? pos part with
      | none => exact .nil
      | some e => exact Expression.ofPart?_extent h
    rw [aliasesFrom, List.flatMap_cons, List.map_append]
    cases parts with
    | nil => simpa [aliasesFrom] using hhead
    | cons q parts =>
      have htail := ih (pos + byteLength part + 1)
      rw [List.intercalate_cons_cons]
      simp only [byteLength_append, byteLength_cons, byteLength_nil, hcomma]
      exact hhead.append (htail.mono (Nat.le_refl _) (by omega)) (by omega) (by omega) (by omega)

theorem aliases_extents (pos : Nat) (cs : List Char) :
    Between pos (pos + byteLength cs) (((aliases pos cs).flatMap Option.toList).map (·.extent)) := by
  unfold aliases
  split
  next rest =>
    split
    next hlast =>
      have hparen : '('.utf8Size = 1 := rfl
      obtain ⟨front, rfl⟩ := List.getLast?_eq_some_iff.1 (by simpa using hlast)
      have := aliasesFrom_extents (splitAliases 0 front) (pos + 1)
      rw [intercalate_splitAliases] at this
      rw [List.dropLast_concat]
      exact this.mono (by omega) (by simp; omega)
    · have := aliasesFrom_extents (splitAliases 0 ('(' :: rest)) pos
      rwa [intercalate_splitAliases] at this
  · have := aliasesFrom_extents (splitAliases 0 cs) pos
    rwa [intercalate_splitAliases] at this

/-- The first three names of a list are names of the list. -/
theorem firstNames_sublist {α : Type} (names : List (Option α)) :
    (names[0]?.join.toList ++ names[1]?.join.toList ++ names[2]?.join.toList).Sublist
      (names.flatMap Option.toList) := by
  match names with
  | [] => simp
  | [a] => simp
  | [a, b] => simp
  | a :: b :: c :: rest => simp

/-- A loop whose names and source stand apart inside some code, the source behind the names. -/
theorem Loop.refines_of_between {e source : Expression} {names : List (Option Expression)}
    (h : Between e.extent.start e.extent.stop
      ((names.flatMap Option.toList).map (·.extent) ++ [source.extent])) :
    Refines [e.extent]
      ((Loop.mk source names[0]?.join names[1]?.join names[2]?.join).expressions.map (·.extent)) := by
  have hsub := ((firstNames_sublist names).map Expression.extent).append_right [source.extent]
  -- the source stands behind the names and comes first in the list
  have hperm := List.perm_append_singleton source.extent
    ((names[0]?.join.toList ++ names[1]?.join.toList ++ names[2]?.join.toList).map Expression.extent)
  refine .cut ((h.separate.sublist hsub).perm hperm) ?_
  intro s hs
  have hin := h.inside s (hsub.subset (hperm.mem_iff.2 hs))
  exact ⟨hin.1, hin.2.2⟩

/-- **The parts of a loop refine its code.** -/
theorem Loop.ofExpression?_refines {e : Expression} {parts : Loop} (h : Loop.ofExpression? e = some parts) :
    Refines [e.extent] (parts.expressions.map (·.extent)) := by
  obtain ⟨⟨⟨leftStart, left⟩, ⟨rightStart, right⟩⟩, hsides, h⟩ := Option.bind_eq_some_iff.1 h
  have hclear := loopSides?_clear hsides
  have hstop := (loopSides?_reads hsides).2.isBoundary_stop.le_byteLength
  have hnames := aliases_extents (e.span.start + leftStart) left
  have hsource : Between (e.span.start + rightStart) e.extent.stop
      [Expression.extent ⟨String.ofList right, ⟨e.span.start + rightStart,
        e.span.start + rightStart + byteLength right⟩⟩] := by
    refine .single ?_ ?_ ?_
    all_goals simp only [Expression.extent, String.toList_ofList] at hstop ⊢; omega
  cases h
  have hnames : Between e.extent.start _ _ := hnames.mono (Nat.le_add_right ..) (Nat.le_refl _)
  exact Loop.refines_of_between
    (hnames.append hsource (by omega) (by simp only [Expression.extent]; omega)
      (by simp only [Expression.extent] at hstop ⊢; omega))

/-! ## 6. Lifting -/

/-- Taking a directive out of a tag loses no property. -/
theorem takeDirective?_perm {name : String} {props rest : List TagProp} {d : Directive}
    (h : takeDirective? name props = some (d, rest)) : props.Perm (.directive d :: rest) := by
  induction props generalizing rest d with
  | nil => simp [takeDirective?] at h
  | cons prop props ih =>
    have hnext : ∀ {d rest},
        (takeDirective? name props).map (fun taken => (taken.1, prop :: taken.2)) = some (d, rest) →
        (prop :: props).Perm (.directive d :: rest) := by
      intro d rest hmap
      obtain ⟨⟨d', rest'⟩, htake, heq⟩ := Option.map_eq_some_iff.1 hmap
      cases heq
      exact ((ih htake).cons prop).trans (.swap ..)
    unfold takeDirective? at h
    cases prop with
    | plain a => exact hnext h
    | directive d' =>
      dsimp only at h
      split at h
      · cases h
        exact .refl _
      · exact hnext h

/-- The places of a tag are those of a directive taken out of it and those that are left. -/
theorem Tag.take?_places {tag tag' : Tag} {name : String} {d : Directive}
    (h : tag.take? name = some (d, tag')) :
    (places tag.parts).Perm ((d.exp.toList.map (·.extent)) ++ places tag'.parts) := by
  obtain ⟨⟨d', rest⟩, htake, heq⟩ := Option.map_eq_some_iff.1 h
  cases heq
  rw [places_tag, places_tag]
  simpa using places_perm ((takeDirective?_perm htake).map Part.prop)

/-- The condition of a later branch, and what is left of the tag. -/
theorem Tag.takeElse?_refines {tag tag' : Tag} {condition : Option Expression}
    (h : tag.takeElse? = some (condition, tag')) :
    Refines (places tag.parts) (condition.toList.map (·.extent) ++ places tag'.parts) := by
  unfold Tag.takeElse? at h
  split at h
  next d tag'' htake =>
    cases h
    exact .of_perm (take?_places htake)
  · obtain ⟨⟨d, tag''⟩, htake, heq⟩ := Option.map_eq_some_iff.1 h
    cases heq
    exact (Refines.of_perm (take?_places htake)).trans (.of_sublist (List.sublist_append_right ..))

/-- The places in an element as a loop. -/
theorem liftLoop_refines (tag : Tag) (children : List Node) :
    Refines (places tag.parts ++ places (nodeParts children)) (places (liftLoop tag children).1.parts) := by
  unfold liftLoop
  split
  · exact .of_perm (.of_eq (by simp [Node.parts]))
  next d tag' htake =>
    have htag := Refines.of_perm (Tag.take?_places htake)
    split
    · have hdrop : Refines (places tag.parts) (places tag'.parts) :=
        htag.trans (.of_sublist (List.sublist_append_right ..))
      simpa [Node.parts] using hdrop.append (.refl (places (nodeParts children)))
    next parts hparts =>
      obtain ⟨e, hexp, hloop⟩ := Option.bind_eq_some_iff.1 hparts
      have hcut : Refines (d.exp.toList.map (·.extent) ++ places tag'.parts)
          (parts.expressions.map (·.extent) ++ places tag'.parts) := by
        simpa [hexp] using (Loop.ofExpression?_refines hloop).append (.refl (places tag'.parts))
      have hall := (htag.trans hcut).append (.refl (places (nodeParts children)))
      simp only [Node.parts, places_append, places_code]
      refine hall.trans ?_
      rw [List.append_assoc]
      refine (Refines.refl _).append ?_
      split
      · exact .of_sublist (List.sublist_append_right ..)
      · exact .of_perm (.of_eq (by simp [nodeParts, Node.parts]))

theorem branchChildren_refines (tag : Tag) (children : List Node) :
    Refines (places tag.parts ++ places (nodeParts children))
      (places (nodeParts (branchChildren tag children).1)) := by
  unfold branchChildren
  split
  · exact .of_sublist (List.sublist_append_right ..)
  · simpa [nodeParts] using liftLoop_refines tag children

theorem branch_places (condition : Option Expression) (children : List Node) (span : Span) :
    places (branchParts [.mk condition children span]) =
      condition.toList.map (·.extent) ++ places (nodeParts children) := by
  simp only [branchParts, places_append, places_code, List.append_nil]

/-- The places in a branch whose condition has been taken out of its tag. -/
theorem branch_refines {old : List Span} {condition : Option Expression} {tag : Tag} (children : List Node)
    (h : Refines old (condition.toList.map (·.extent) ++ places tag.parts)) :
    Refines (old ++ places (nodeParts children))
      (condition.toList.map (·.extent) ++ places (nodeParts (branchChildren tag children).1)) := by
  refine (h.append (.refl _)).trans ?_
  rw [List.append_assoc]
  exact (Refines.refl _).append (branchChildren_refines tag children)

namespace Lifting

/-- The places in the siblings lifted so far. -/
def places (s : Lifting) : List Span := Markup.places (nodeParts s.done) ++ Markup.places (nodeParts s.gap)

theorem places_nodes (s : Lifting) : (Markup.places (nodeParts s.nodes)).Perm s.places := by
  refine (places_reverse _).trans ?_
  rw [nodeParts_append, places_append]
  exact List.perm_append_comm

theorem places_add (s : Lifting) (node : Node) (faults : List Fault) :
    (s.add node faults).places.Perm (s.places ++ Markup.places node.parts) := by
  rw [List.perm_iff_count]
  intro span
  simp only [places, add, nodeParts, nodeParts_append, places_append, places_nil, List.count_append,
    List.count_nil]
  omega

variable {s : Lifting} {tag : Tag} {children : List Node}

theorem addElement_refines (s : Lifting) (tag : Tag) (children : List Node) :
    Refines (s.places ++ (Markup.places tag.parts ++ Markup.places (nodeParts children)))
      (s.addElement tag children).places := by
  unfold addElement
  split
  next d tag' htake =>
    have hbranch := branch_refines children (.of_perm (Tag.take?_places htake))
    refine ((Refines.refl _).append hbranch).trans (.of_perm ?_)
    rw [← branch_places _ _ tag'.span]
    exact (s.places_add (.chain [.mk d.exp (branchChildren tag' children).1 tag'.span] tag'.span) _).symm
  · exact ((Refines.refl _).append (liftLoop_refines tag children)).trans (.of_perm (s.places_add _ _).symm)

/-- A later branch joins the chain in front; any other node is added behind. -/
theorem addSibling_refines (s : Lifting) (node : Node) :
    Refines (s.places ++ Markup.places node.parts) (s.addSibling node).places := by
  unfold addSibling
  split
  next tag children =>
    rw [Node.parts, places_append]
    split
    · exact addElement_refines s tag children
    next condition tag' htake =>
      have htag := Tag.takeElse?_refines htake
      split
      next branches span before hdone =>
        refine ((Refines.refl _).append (branch_refines children htag)).trans ?_
        -- the gap in front of the branch is dropped
        refine Refines.trans (.of_sublist ((List.sublist_append_left _ _).append_right _)) (.of_perm ?_)
        rw [← branch_places _ _ tag'.span, hdone]
        rw [List.perm_iff_count]
        intro span
        simp only [places, nodeParts, Node.parts, branchParts_append, places_append, places_nil,
          List.count_append, List.count_nil]
        omega
      · have hdrop := htag.trans (.of_sublist (List.sublist_append_right ..))
        exact ((Refines.refl _).append (hdrop.append (.refl _))).trans (addElement_refines s tag' children)
  next =>
    split
    · refine .of_perm ?_
      rw [List.perm_iff_count]
      intro span
      simp only [places, nodeParts, places_append, List.count_append]
      omega
    · exact .of_perm (s.places_add node []).symm

end Lifting

mutual

theorem Node.liftInside_refines : ∀ node : Node, Refines (places node.parts) (places node.liftInside.1.parts)
  | .element tag children => by
    have hinside := (liftFrom_refines {} children).trans (.of_perm (Lifting.places_nodes _).symm)
    simp only [Node.liftInside, Node.parts, places_append]
    exact (Refines.refl _).append hinside
  | .text _ _ => .refl _
  | .comment _ _ => .refl _
  | .interpolation _ _ => .refl _
  | .chain _ _ => .refl _
  | .loop _ _ _ => .refl _

theorem liftFrom_refines : ∀ (s : Lifting) (nodes : List Node),
    Refines (s.places ++ places (nodeParts nodes)) (liftFrom s nodes).places
  | s, [] => by simpa [nodeParts, liftFrom] using Refines.refl s.places
  | s, node :: rest => by
    have hnode := Node.liftInside_refines node
    have hstep := Lifting.addSibling_refines { s with faults := s.faults ++ node.liftInside.2 }
      node.liftInside.1
    have hrest := liftFrom_refines
      (({ s with faults := s.faults ++ node.liftInside.2 } : Lifting).addSibling node.liftInside.1) rest
    rw [liftFrom, nodeParts, places_append, ← List.append_assoc]
    exact (((Refines.refl s.places).append hnode).trans hstep |>.append (.refl _)).trans hrest

end

/-! ## 7. The whole template -/

/-- **The code and the attribute values of a template stand apart.** -/
theorem parse_places_separate (source : String) : Separate (places (nodeParts (parse source).nodes)) := by
  have hpieces := (pieces_places 0 source.toList).separate
  have hbuild := hpieces.perm (build_places source.toList).symm
  exact ((liftFrom_refines {} _).trans (.of_perm (Lifting.places_nodes _).symm)).separate hbuild

/-- **The code of a template stands apart.** -/
theorem parse_separate (source : String) : Separate (sites (nodeParts (parse source).nodes)) :=
  (parse_places_separate source).sublist (sites_sublist_places _)

/-- **The attribute values of a template stand apart.** -/
theorem parse_attrValues_separate (source : String) :
    Separate ((attrValues (nodeParts (parse source).nodes)).map (·.span)) :=
  (parse_places_separate source).sublist (attrValues_sublist_places _)

/-- **A place tells the code.**  No two pieces of code of a template have one span. -/
theorem parse_spans_nodup (source : String) :
    ((expressions (nodeParts (parse source).nodes) ++ values (nodeParts (parse source).nodes)).map
      (·.span)).Nodup := by
  have hplaced := parse_placed source
  generalize hparts : nodeParts (parse source).nodes = parts at hplaced
  have hspan : ∀ e ∈ expressions parts ++ values parts, e.extent = e.span := by
    intro e he
    rcases List.mem_append.1 he with he | he
    · obtain ⟨part, hpart, he⟩ := List.mem_flatMap.1 he
      have hstands := hplaced part hpart
      unfold Part.expressions at he
      split at he
      · obtain rfl := List.mem_singleton.1 he
        exact Expression.StandsIn.extent_eq hstands
      · cases he
    · obtain ⟨part, hpart, he⟩ := List.mem_flatMap.1 he
      have hstands := hplaced part hpart
      unfold Part.values at he
      split at he
      · exact Expression.StandsIn.extent_eq (hstands.2.2 e (Option.mem_toList.1 he))
      · cases he
  have hsep := (hparts ▸ parse_separate source).perm (sites_perm_expressions parts)
  rw [← List.map_congr_left hspan]
  exact hsep.nodup

end ComponentLens.Markup
