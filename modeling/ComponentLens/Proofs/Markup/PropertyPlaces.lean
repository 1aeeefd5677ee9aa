/-
# The place of a property is its own

An attribute or directive is known by its place: no other part of a template tree has the same one, be it a name,
another property, an argument or a piece of code (`parse_props_apart`).

Empty code may stand at any offset, and one property may end where the next one starts, so places that merely
follow each other are not enough to tell this.  What carries the argument is that no property starts inside
anything else (`Quiet`): names and pieces of code stand between properties, and what stands in a property stands
behind its first character.  Being quiet goes over to parts of a place, hence from the code of a directive to the
parts of a loop (`inherited_traced`).  A property is not empty, so its own place is never quiet.
-/
import ComponentLens.Proofs.Markup.Sites
import ComponentLens.Proofs.Markup.WellPlaced
import Mathlib.Data.List.Pairwise

namespace ComponentLens.Markup

/-! ## 1. Parts in the order of the text -/

/-- The place of a part. -/
def Part.span : Part → Span
  | .name s => s
  | .prop p => p.span
  | .code e => e.span

/-- The parts of a text, as they are read. -/
def textParts (source : List Char) : List Part := (pieces 0 source).flatMap Piece.parts

section

variable {source : List Char}

/-- The parts of a piece line up inside it. -/
theorem Piece.WellPlaced.line : ∀ {piece : Piece}, piece.WellPlaced source →
    LinedUp piece.span.start piece.span.stop (piece.parts.map Part.span)
  | .comment _ _ _, _ => .nil
  | .text _ _, _ => .nil
  | .unclosedInterpolation _ _, _ => .nil
  | .interpolation e span, ⟨_, hstands, hinside⟩ => by
    simp only [Span.contains, Bool.and_eq_true, decide_eq_true_eq] at hinside
    exact .single hinside.1 (Span.Reads.start_le_stop hstands) hinside.2
  | .openTag tag, ⟨_, hfront, hend⟩ => by
    have hspans : tag.parts.map Part.span = tag.frontSpans := by
      simp [Tag.parts, Tag.frontSpans, hend, Part.span, Function.comp_def]
    rwa [Piece.parts, hspans]
  | .closeTag _ _ _, ⟨_, _, hline⟩ => hline

/-- Pieces that tile the text have their parts in its order. -/
theorem Tiles.line : ∀ {pos : Nat} {ps : List Piece}, Tiles source pos ps → pos ≤ byteLength source ∧
    LinedUp pos (byteLength source) ((ps.flatMap Piece.parts).map Part.span)
  | _, [], h => ⟨Nat.le_of_eq h, .nil⟩
  | _, piece :: ps, ⟨hpiece, hstart, hrest⟩ => by
    obtain ⟨inside, hreads⟩ := hpiece.liesIn
    have hle := hreads.start_le_stop
    obtain ⟨hstop, hline⟩ := hrest.line
    have hhead := hpiece.line
    rw [hstart] at hhead hle
    rw [List.flatMap_cons, List.map_append]
    exact ⟨Nat.le_trans hle hstop, hhead.append hline hle hstop⟩

theorem textParts_line (source : List Char) :
    LinedUp 0 (byteLength source) ((textParts source).map Part.span) :=
  (pieces_tile 0 source [] rfl).line.2

/-- Of two parts of the text that are not one, either stands in front of the other. -/
theorem textParts_apart {x y : Part} (hx : x ∈ textParts source) (hy : y ∈ textParts source) :
    x = y ∨ x.span.stop ≤ y.span.start ∨ y.span.stop ≤ x.span.start := by
  have horder : (textParts source).Pairwise fun x y => x.span.stop ≤ y.span.start ∨ y.span.stop ≤ x.span.start :=
    (List.pairwise_map.1 (textParts_line source).order).imp .inl
  have : Std.Symm fun x y : Part => x.span.stop ≤ y.span.start ∨ y.span.stop ≤ x.span.start := ⟨fun _ _ => Or.symm⟩
  by_cases h : x = y
  · exact .inl h
  · exact .inr (horder.forall hx hy h)

end

/-! ## 2. Inside a property -/

/-- The argument and the code of a property. -/
def TagProp.inner : TagProp → List Span
  | .plain _ => []
  | .directive d => d.arg.toList.map (·.span) ++ d.exp.toList.map (·.extent)

/-- The property is not empty, and its argument and its code stand behind its first character. -/
structure TagProp.Wraps (prop : TagProp) : Prop where
  start_lt_stop : prop.span.start < prop.span.stop
  inner : ∀ s ∈ prop.inner, prop.span.start < s.start ∧ s.stop ≤ prop.span.stop

/-- A name with an argument has something in front of it. -/
theorem DirectiveStart.mark_pos {raw : List Char} (h : (DirectiveStart.read raw).hasArg = true) :
    0 < byteLength (DirectiveStart.read raw).mark := by
  have hcons : ∀ (c : Char) (cs : List Char), 0 < byteLength (c :: cs) := by
    intro c cs
    have := c.utf8Size_pos
    rw [byteLength_cons]
    omega
  unfold DirectiveStart.read at h ⊢
  revert h
  split
  · exact fun _ => hcons _ _
  · exact fun _ => hcons _ _
  · exact fun _ => hcons _ _
  · exact fun _ => hcons _ _
  next =>
    dsimp only
    split
    · have := hcons ':' []
      simp only [byteLength_append]
      omega
    · intro h
      cases h

/-- The argument of a directive stands behind the mark in front of it. -/
theorem Directive.ofName_arg_inside (pos : Nat) (raw : List Char) (exp : Option Expression) (span : Span) :
    ∀ arg ∈ (Directive.ofName pos raw exp span).arg,
      pos < arg.span.start ∧ arg.span.stop ≤ pos + byteLength raw := by
  intro arg harg
  constructor
  · unfold Directive.ofName at harg
    dsimp only at harg
    split at harg
    next hasArg =>
      have hmark := DirectiveStart.mark_pos hasArg
      unfold readArg at harg
      dsimp only at harg
      split at harg
      · cases harg
        simp only
        omega
      · dsimp only at harg
        split at harg
        · cases harg
        · cases harg
          simp only
          omega
    · cases harg
  · obtain ⟨before, rfl⟩ : ∃ before : List Char, byteLength before = pos :=
      ⟨List.replicate pos ' ', byteLength_replicate_space pos⟩
    have hreads := Directive.ofName_arg before raw [] exp span arg harg
    simpa using hreads.isBoundary_stop.le_byteLength

theorem TagProp.ofReading_wraps (pos : Nat) {name : List Char} (hname : 0 < byteLength name)
    (value : Option ValueReading) : (TagProp.ofReading pos name value).Wraps := by
  have hplaces := TagProp.ofReading_places pos name value hname
  have hspan := TagProp.span_ofReading pos name value
  constructor
  · rw [hspan]
    simp only
    omega
  · rw [hspan]
    revert hplaces
    unfold TagProp.ofReading
    dsimp only
    split
    next =>
      intro hplaces s hs
      rcases List.mem_append.1 hs with hs | hs
      · obtain ⟨arg, harg, rfl⟩ := List.mem_map.1 hs
        have hinside := Directive.ofName_arg_inside pos name _ _ arg (Option.mem_toList.1 harg)
        omega
      · rw [Part.places_directive] at hplaces
        have hinside := hplaces.inside s hs
        omega
    next => simp [TagProp.inner]

theorem readProps_wraps (pos : Nat) (cs : List Char) : ∀ prop ∈ (readProps pos cs).props, prop.Wraps := by
  fun_induction readProps pos cs with
  | case1 => simp
  | case2 => simp
  | case3 => simp
  | case4 pos c cs _ _ _ ih => simpa [PropsReading.prepend] using ih
  | case5 pos c cs _ _ _ tail name _ v h _ ih =>
    have hname : 0 < byteLength name := Nat.add_pos_left c.utf8Size_pos _
    exact List.forall_mem_cons.2 ⟨TagProp.ofReading_wraps pos hname (some v), ih⟩
  | case6 pos c cs _ _ _ tail name _ h ih =>
    have hname : 0 < byteLength name := Nat.add_pos_left c.utf8Size_pos _
    exact List.forall_mem_cons.2 ⟨TagProp.ofReading_wraps pos hname none, ih⟩

theorem readPiece_wraps (pos : Nat) (c : Char) (cs : List Char) {prop : TagProp}
    (h : .prop prop ∈ (readPiece pos c cs).piece.parts) : prop.Wraps := by
  unfold readPiece at h
  split at h
  · simp [readComment, Piece.parts] at h
  split at h
  · simp [readCloseTag, Piece.parts] at h
  split at h
  · have hprop : prop ∈ (readProps (pos + 1 + byteLength (cs.takeWhile isElementNamePart))
        (cs.dropWhile isElementNamePart)).props := by
      simpa [readOpenTag, Piece.parts, Tag.parts] using h
    exact readProps_wraps _ _ prop hprop
  split at h
  · by_cases hclosed : (breakOn ['\x7d', '\x7d'] cs.tail).2.isEmpty <;>
      simp [readInterpolation, Piece.parts, hclosed] at h
  · simp [Piece.parts] at h

theorem pieces_wraps (pos : Nat) (cs : List Char) :
    ∀ prop, .prop prop ∈ (pieces pos cs).flatMap Piece.parts → prop.Wraps := by
  fun_induction pieces pos cs with
  | case1 => simp
  | case2 pos c cs _ ih =>
    intro prop h
    rw [List.flatMap_cons] at h
    rcases List.mem_append.1 h with h | h
    · exact readPiece_wraps pos c cs h
    · exact ih prop h

/-! ## 3. Quiet places -/

/-- No property of the text starts inside the place. -/
def Quiet (source : List Char) (s : Span) : Prop :=
  ∀ prop, .prop prop ∈ textParts source → s.start ≤ prop.span.start → s.stop ≤ prop.span.start

section

variable {source : List Char} {s t : Span}

theorem Quiet.mono (h : Quiet source s) (hstart : s.start ≤ t.start) (hstop : t.stop ≤ s.stop) :
    Quiet source t :=
  fun prop hprop hle => Nat.le_trans hstop (h prop hprop (Nat.le_trans hstart hle))

/-- The place of a property is not quiet. -/
theorem Quiet.ne_span (h : Quiet source s) {prop : TagProp} (hprop : .prop prop ∈ textParts source) :
    s ≠ prop.span := by
  rintro rfl
  have hlt := (pieces_wraps 0 source prop hprop).start_lt_stop
  have hle := h prop hprop (Nat.le_refl _)
  omega

/-- A part that is no property stands between the properties. -/
theorem quiet_of_mem {part : Part} (h : part ∈ textParts source) (hpart : ∀ prop, part ≠ .prop prop) :
    Quiet source part.span := by
  intro prop hprop hle
  have hlt := (pieces_wraps 0 source prop hprop).start_lt_stop
  obtain heq | hbefore | hbehind := textParts_apart h hprop
  · exact absurd heq (hpart prop)
  · exact hbefore
  · have hbehind : prop.span.stop ≤ part.span.start := hbehind
    omega

/-- What stands in a property stands between its start and the other properties. -/
theorem quiet_of_inner {prop : TagProp} (h : .prop prop ∈ textParts source) (hs : s ∈ prop.inner) :
    Quiet source s := by
  intro other hother hle
  have hin := (pieces_wraps 0 source prop h).inner s hs
  have hlt := (pieces_wraps 0 source other hother).start_lt_stop
  obtain heq | hbefore | hbehind := textParts_apart h hother
  · cases heq
    omega
  · simp only [Part.span] at hbefore
    omega
  · simp only [Part.span] at hbehind
    omega

end

/-! ## 4. Nesting and lifting -/

/-- What refines a place lies in it: beside a point outside of the place, it stays clear of the point. -/
theorem Refines.inside {outer : Span} {new : List Span} (h : Refines [outer] new)
    (houter : outer.start ≤ outer.stop) : ∀ s ∈ new, outer.start ≤ s.start ∧ s.stop ≤ outer.stop := by
  have hpoint : ∀ n, n < outer.start ∨ outer.stop < n → ∀ s ∈ new, s.start ≤ s.stop ∧ (s.stop < n ∨ n < s.start) := by
    intro n hn s hs
    have hold : Separate ([outer] ++ [⟨n, n⟩]) := by
      refine ⟨by simp [houter], List.pairwise_pair.2 ?_⟩
      rcases hn with hn | hn
      · exact .inr hn
      · exact .inl hn
    obtain ⟨hordered, hclear⟩ := h _ hold
    exact ⟨hordered s (by simp [hs]), (List.pairwise_append.1 hclear).2.2 s hs ⟨n, n⟩ (by simp)⟩
  intro s hs
  constructor
  · by_contra hlt
    have := hpoint s.start (.inl (by omega)) s hs
    omega
  · by_contra hlt
    have := hpoint s.stop (.inr (by omega)) s hs
    omega

/-- The part stands where a text has such a part: a property is one of the text, and all else is quiet. -/
def Traced (source : List Char) : Part → Prop
  | .name s => Quiet source s
  | .prop prop => .prop prop ∈ textParts source ∧ ∀ s ∈ prop.inner, Quiet source s
  | .code e => Quiet source e.extent

/-- A loop is cut out of the code of its directive. -/
theorem inherited_traced (source : List Char) : Inherited (Traced source) where
  exp := by
    intro d hd e he
    exact hd.2 e.extent (List.mem_append_right _ (List.mem_map_of_mem (Option.mem_toList.2 he)))
  loop := by
    intro e parts hloop he part hpart
    have hinside := (Loop.ofExpression?_refines hloop).inside (Nat.le_add_right _ _) part.extent
      (List.mem_map_of_mem hpart)
    exact Quiet.mono he hinside.1 hinside.2

theorem textParts_traced (source : List Char) : ∀ piece ∈ pieces 0 source, AllParts (Traced source) piece.parts := by
  intro piece hpiece part hpart
  have hmem : part ∈ textParts source := List.mem_flatMap.2 ⟨piece, hpiece, hpart⟩
  cases part with
  | name s => exact quiet_of_mem hmem (by simp)
  | prop prop => exact ⟨hmem, fun s hs => quiet_of_inner hmem hs⟩
  | code e =>
    have hstands : e.StandsIn source := pieces_placed 0 source [] rfl piece hpiece _ hpart
    rw [Traced, hstands.extent_eq]
    exact quiet_of_mem hmem (by simp)

theorem parse_traced (source : String) :
    AllParts (Traced source.toList) (nodeParts (parse source).nodes) := by
  have hempty : ({} : Lifting).Holds (Traced source.toList) := ⟨by simp [nodeParts], by simp [nodeParts]⟩
  exact ((inherited_traced source.toList).liftFrom {} _ hempty (build_parts (textParts_traced source.toList))).nodes

/-- **The place of a property is its own.**  No other part of the tree has it, and no argument of a directive. -/
theorem parse_props_apart (source : String) {prop : TagProp}
    (hprop : .prop prop ∈ nodeParts (parse source).nodes) :
    (∀ part ∈ nodeParts (parse source).nodes, part.span = prop.span → part = .prop prop) ∧
      ∀ d, .prop (.directive d) ∈ nodeParts (parse source).nodes → ∀ arg ∈ d.arg, arg.span ≠ prop.span := by
  have htraced := parse_traced source
  have hmem := (htraced _ hprop).1
  constructor
  · intro part hpart hspan
    cases part with
    | name s => exact absurd hspan (Quiet.ne_span (htraced _ hpart) hmem)
    | prop other =>
      have hlt := (pieces_wraps 0 source.toList prop hmem).start_lt_stop
      obtain heq | hapart := textParts_apart (htraced _ hpart).1 hmem
      · exact heq
      · rw [hspan] at hapart
        simp only [Part.span] at hapart
        omega
    | code e =>
      have hstands : e.StandsIn source.toList := parse_placed source _ hpart
      have hquiet : Quiet source.toList e.extent := htraced _ hpart
      rw [hstands.extent_eq] at hquiet
      exact absurd hspan (hquiet.ne_span hmem)
  · intro d hd arg harg
    refine Quiet.ne_span ((htraced _ hd).2 arg.span ?_) hmem
    exact List.mem_append_left _ (List.mem_map_of_mem (Option.mem_toList.2 harg))

end ComponentLens.Markup
