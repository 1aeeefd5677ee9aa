/-
# Parsing undoes rendering

`parse_render_iff`: a forest that is rendered and parsed comes back, each node with the place that it was
rendered at, exactly if every text stops where it was rendered (`Forest.TextsStop`).

The pieces of the rendered text are those of the forest (`pieces_render`), folding them into a tree puts the
nodes of the forest in front (`foldl_pieces`), and there is nothing to lift (`liftFrom_placed`).  The one
thing that can go wrong is a text that starts outside ASCII in front of an interpolation.  It takes the
braces in, so the tree has a text with a brace (`hasBraces_parse`), and a forest has none.
-/
import ComponentLens.Proofs.Markup.Braces
import ComponentLens.Proofs.Markup.Rendering

namespace ComponentLens.Markup

/-! ## 1. Pieces -/

theorem StopsText.mono {rest : List Char} (h : StopsText false rest) (seesBraces : Bool) :
    StopsText seesBraces rest := by
  rcases h with h | h | ⟨h, -⟩
  · exact .inl h
  · exact .inr (.inl h)
  · exact absurd h Bool.false_ne_true

theorem pieces_of_readPiece {pos : Nat} {c : Char} {cs passed rest : List Char} {piece : Piece}
    (h : readPiece pos c cs = ⟨piece, passed, rest⟩) :
    pieces pos (c :: cs) = piece :: pieces (pos + byteLength passed) rest := by
  rw [pieces, h]

theorem pieces_openTag {name : List Char} (h : IsTagName name) {as : List StaticAttribute}
    (has : ∀ a ∈ as, a.WellFormed) (pos : Nat) (rest : List Char) :
    pieces pos (renderOpenTag name as ++ rest) =
      .openTag ⟨String.ofList name, ⟨pos + 1, pos + 1 + byteLength name⟩, none,
          placedAttributes (pos + 1 + byteLength name) as, false,
          ⟨pos, pos + byteLength (renderOpenTag name as)⟩⟩ ::
        pieces (pos + byteLength (renderOpenTag name as)) rest := by
  rw [← pieces_of_readPiece (readPiece_openTag h has pos rest)]
  simp [renderOpenTag]

theorem pieces_closeTag {name : List Char} (h : IsTagName name) (pos : Nat) (rest : List Char) :
    pieces pos (renderCloseTag name ++ rest) =
      .closeTag (String.ofList name) ⟨pos + 2, pos + 2 + byteLength name⟩
          ⟨pos, pos + byteLength (renderCloseTag name)⟩ ::
        pieces (pos + byteLength (renderCloseTag name)) rest := by
  rw [← pieces_of_readPiece (readPiece_closeTag h pos rest)]
  simp [renderCloseTag]

theorem pieces_interpolation {content : List Char} (h : '\x7d' ∉ content) (pos : Nat) (rest : List Char) :
    pieces pos ('\x7b' :: '\x7b' :: (content ++ '\x7d' :: '\x7d' :: rest)) =
      .interpolation ⟨String.ofList content, ⟨pos + 2, pos + 2 + byteLength content⟩⟩
          ⟨pos, pos + 4 + byteLength content⟩ ::
        pieces (pos + 4 + byteLength content) rest := by
  have hlength : pos + byteLength ('\x7b' :: '\x7b' :: (content ++ ['\x7d', '\x7d'])) =
      pos + 4 + byteLength content := by
    rw [byteLength_interpolation, byteLength_nil]
    omega
  rw [pieces_of_readPiece (readPiece_interpolation h pos rest), hlength]

theorem pieces_comment {content : List Char} (h : ¬ ['-', '-', '>'] <:+: content) (pos : Nat)
    (rest : List Char) :
    pieces pos ('<' :: '!' :: '-' :: '-' :: (content ++ '-' :: '-' :: '>' :: rest)) =
      .comment (String.ofList content) ⟨pos, pos + 7 + byteLength content⟩ true ::
        pieces (pos + 7 + byteLength content) rest := by
  have hlength : pos + byteLength ('<' :: '!' :: '-' :: '-' :: (content ++ ['-', '-', '>'])) =
      pos + 7 + byteLength content := by
    rw [byteLength_comment, byteLength_nil]
    omega
  rw [pieces_of_readPiece (readPiece_comment h pos rest), hlength]

theorem pieces_text {content : List Char} (hne : content ≠ []) (hlt : '<' ∉ content) (hbrace : '\x7b' ∉ content)
    {rest : List Char} (h : ∀ c ∈ content.head?, StopsText (c.val < 0x80) rest) (pos : Nat) :
    pieces pos (content ++ rest) =
      .text (String.ofList content) ⟨pos, pos + byteLength content⟩ ::
        pieces (pos + byteLength content) rest := by
  obtain ⟨c, cs, rfl⟩ := List.exists_cons_of_ne_nil hne
  exact pieces_of_readPiece (readPiece_text hlt hbrace (h c rfl) pos)

/-- A text among the pieces holds an opening brace. -/
def HoldBrace (ps : List Piece) : Prop := ∃ content span, .text content span ∈ ps ∧ '\x7b' ∈ content.toList

theorem HoldBrace.mono {ps qs : List Piece} (h : HoldBrace ps) (hsubset : ps ⊆ qs) : HoldBrace qs := by
  obtain ⟨content, span, hmem, hbrace⟩ := h
  exact ⟨content, span, hsubset hmem, hbrace⟩

/-- A text takes in the braces of an interpolation that it does not see. -/
theorem pieces_holdBrace {content : List Char} (hwide : ∃ c ∈ content.head?, 0x80 ≤ c.val)
    (hlt : '<' ∉ content) (hbrace : '\x7b' ∉ content) (pos : Nat) (rest : List Char) :
    HoldBrace (pieces pos (content ++ '\x7b' :: rest)) := by
  obtain ⟨c, hc, hwide⟩ := hwide
  obtain ⟨cs, rfl⟩ := List.head?_eq_some_iff.1 hc
  obtain ⟨read, span, hread, hmem⟩ := readPiece_text_of_braces hwide hlt hbrace pos rest
  refine ⟨read, span, ?_, hmem⟩
  rw [List.cons_append, pieces, hread]
  exact List.mem_cons_self

/-! ## 2. Pieces of forests -/

/-- The pieces of a forest that is rendered from an offset on. -/
def Forest.pieces (pos : Nat) : Forest → List Piece
  | .nil => []
  | .element name attributes children next =>
    let nameStop := pos + 1 + byteLength name
    let inside := pos + byteLength (renderOpenTag name attributes)
    let close := inside + byteLength children.render
    let stop := close + byteLength (renderCloseTag name)
    .openTag ⟨String.ofList name, ⟨pos + 1, nameStop⟩, none, placedAttributes nameStop attributes, false,
        ⟨pos, inside⟩⟩ ::
      (children.pieces inside ++
        .closeTag (String.ofList name) ⟨close + 2, close + 2 + byteLength name⟩ ⟨close, stop⟩ ::
          next.pieces stop)
  | .text content next =>
    let stop := pos + byteLength content
    .text (String.ofList content) ⟨pos, stop⟩ :: next.pieces stop
  | .interpolation content next =>
    let stop := pos + 4 + byteLength content
    .interpolation ⟨String.ofList content, ⟨pos + 2, pos + 2 + byteLength content⟩⟩ ⟨pos, stop⟩ ::
      next.pieces stop
  | .comment content next =>
    let stop := pos + 7 + byteLength content
    .comment (String.ofList content) ⟨pos, stop⟩ true :: next.pieces stop

theorem stopsText_closeTag {name : List Char} (rest : List Char) :
    StopsText false (renderCloseTag name ++ rest) :=
  .inr (.inl ⟨_, rfl, by simp [endsText]⟩)

theorem endsText_tagName {name : List Char} (h : IsTagName name) (rest : List Char) :
    endsText (name ++ rest) = true := by
  obtain ⟨c, cs, rfl, hc⟩ := exists_cons_of_startsName h.first
  simp [endsText, hc]

/-- A text ends in front of all that is rendered behind it but an interpolation that it does not see. -/
theorem Forest.stopsText {next : Forest} (hnext : next.WellFormed) (htext : next.startsWithText = false)
    {seesBraces : Bool} (hbraces : next.startsWithInterpolation = true → seesBraces = true)
    {after : List Char} (hafter : next = .nil → StopsText seesBraces after) :
    StopsText seesBraces (next.render ++ after) := by
  cases next with
  | nil => exact hafter rfl
  | element name attributes children next =>
    rw [Forest.WellFormed] at hnext
    refine .inr (.inl ⟨name ++ (renderAttributes attributes ++ '>' :: (children.render ++
      (renderCloseTag name ++ (next.render ++ after)))), ?_, endsText_tagName hnext.1 _⟩)
    simp [Forest.render, renderOpenTag]
  | text content next => simp [startsWithText] at htext
  | interpolation content next => exact .inr (.inr ⟨hbraces rfl, by simp [Forest.render]⟩)
  | comment content next => exact .inr (.inl ⟨_, rfl, rfl⟩)

/-- A text of a forest is read as it was rendered, if it stops there. -/
theorem pieces_render_text {content : List Char} {next : Forest}
    (hf : (Forest.text content next).WellFormed)
    (hstops : (∃ c ∈ content.head?, 0x80 ≤ c.val) → next.startsWithInterpolation = false) (pos : Nat)
    {after : List Char} (hafter : next = .nil → StopsText false after) :
    Markup.pieces pos ((Forest.text content next).render ++ after) =
      .text (String.ofList content) ⟨pos, pos + byteLength content⟩ ::
        Markup.pieces (pos + byteLength content) (next.render ++ after) := by
  rw [Forest.WellFormed] at hf
  obtain ⟨hne, hlt, hbrace, htext, hnext⟩ := hf
  rw [Forest.render, List.append_assoc]
  refine pieces_text hne hlt hbrace ?_ pos
  intro c hc
  have hbraces : next.startsWithInterpolation = true → decide (c.val < 0x80) = true := by
    intro hstarts
    rw [decide_eq_true_iff, ← UInt32.not_le]
    intro hwide
    rw [hstops ⟨c, hc, hwide⟩] at hstarts
    exact Bool.noConfusion hstarts
  refine Forest.stopsText hnext htext hbraces fun hnil => ?_
  exact (hafter hnil).mono _

/-- **The pieces of what is rendered.**  A forest is read piece by piece as it was rendered, whatever comes
behind it, if that ends a text. -/
theorem pieces_render {f : Forest} (hf : f.WellFormed) (htexts : f.TextsStop) (pos : Nat) {after : List Char}
    (hafter : StopsText false after) :
    Markup.pieces pos (f.render ++ after) =
      f.pieces pos ++ Markup.pieces (pos + byteLength f.render) after := by
  induction f generalizing pos after with
  | nil => simp [Forest.render, Forest.pieces]
  | element name attributes children next ihchildren ihnext =>
    rw [Forest.WellFormed] at hf
    rw [Forest.TextsStop] at htexts
    obtain ⟨hname, hattributes, hchildren, hnext⟩ := hf
    simp only [Forest.render, List.append_assoc]
    rw [pieces_openTag hname hattributes, ihchildren hchildren htexts.1 _ (stopsText_closeTag _),
      pieces_closeTag hname, ihnext hnext htexts.2 _ hafter]
    simp [Forest.pieces, Nat.add_assoc]
  | text content next ihnext =>
    rw [Forest.TextsStop] at htexts
    have hnext := hf
    rw [Forest.WellFormed] at hnext
    obtain ⟨-, -, -, -, hnext⟩ := hnext
    rw [pieces_render_text hf htexts.1 _ fun _ => hafter, ihnext hnext htexts.2 _ hafter]
    simp [Forest.pieces, Forest.render, Nat.add_assoc]
  | interpolation content next ihnext =>
    rw [Forest.WellFormed] at hf
    rw [Forest.TextsStop] at htexts
    have hlength : pos + byteLength (Forest.interpolation content next).render =
        pos + 4 + byteLength content + byteLength next.render := by
      rw [Forest.render, byteLength_interpolation]
      omega
    rw [hlength]
    simp only [Forest.render, List.cons_append, List.append_assoc]
    rw [pieces_interpolation hf.1, ihnext hf.2 htexts _ hafter, Forest.pieces, List.cons_append]
  | comment content next ihnext =>
    rw [Forest.WellFormed] at hf
    rw [Forest.TextsStop] at htexts
    have hlength : pos + byteLength (Forest.comment content next).render =
        pos + 7 + byteLength content + byteLength next.render := by
      rw [Forest.render, byteLength_comment]
      omega
    rw [hlength]
    simp only [Forest.render, List.cons_append, List.append_assoc]
    rw [pieces_comment hf.1, ihnext hf.2 htexts _ hafter, Forest.pieces, List.cons_append]

/-- **A text that does not stop shows.**  If a text of the forest does not stop where it was rendered, a text
with a brace is read. -/
theorem pieces_render_holdBrace {f : Forest} (hf : f.WellFormed) (h : ¬ f.TextsStop) (pos : Nat)
    (after : List Char) : HoldBrace (Markup.pieces pos (f.render ++ after)) := by
  induction f generalizing pos after with
  | nil => exact absurd trivial h
  | element name attributes children next ihchildren ihnext =>
    rw [Forest.WellFormed] at hf
    rw [Forest.TextsStop, not_and_or] at h
    obtain ⟨hname, hattributes, hchildren, hnext⟩ := hf
    simp only [Forest.render, List.append_assoc]
    rw [pieces_openTag hname hattributes]
    refine HoldBrace.mono ?_ (List.subset_cons_self _ _)
    -- If all is well inside, the element is read to its closing tag, and what goes wrong stands behind it.
    by_cases hinside : children.TextsStop
    · rw [pieces_render hchildren hinside _ (stopsText_closeTag _), pieces_closeTag hname]
      have hlater : ¬ next.TextsStop := h.resolve_left (not_not_intro hinside)
      refine HoldBrace.mono ?_ (List.subset_append_right _ _)
      exact (ihnext hnext hlater _ after).mono (List.subset_cons_self _ _)
    · exact ihchildren hchildren hinside _ _
  | text content next ihnext =>
    by_cases hstops : (∃ c ∈ content.head?, 0x80 ≤ c.val) → next.startsWithInterpolation = false
    · have hlater : ¬ next.TextsStop := fun hnext => h ⟨hstops, hnext⟩
      have hnil : next = .nil → StopsText false after := by
        rintro rfl
        exact absurd trivial hlater
      rw [pieces_render_text hf hstops _ hnil]
      rw [Forest.WellFormed] at hf
      obtain ⟨-, -, -, -, hnext⟩ := hf
      exact (ihnext hnext hlater _ after).mono (List.subset_cons_self _ _)
    · rw [Classical.not_imp, Bool.not_eq_false] at hstops
      rw [Forest.WellFormed] at hf
      obtain ⟨-, hlt, hbrace, -, -⟩ := hf
      cases next with
      | interpolation inside next =>
        rw [Forest.render, List.append_assoc, Forest.render, List.cons_append]
        exact pieces_holdBrace hstops.1 hlt hbrace pos _
      | _ => exact absurd hstops.2 Bool.false_ne_true
  | interpolation content next ihnext =>
    rw [Forest.WellFormed] at hf
    rw [Forest.TextsStop] at h
    simp only [Forest.render, List.cons_append, List.append_assoc]
    rw [pieces_interpolation hf.1]
    exact (ihnext hf.2 h _ after).mono (List.subset_cons_self _ _)
  | comment content next ihnext =>
    rw [Forest.WellFormed] at hf
    rw [Forest.TextsStop] at h
    simp only [Forest.render, List.cons_append, List.append_assoc]
    rw [pieces_comment hf.1]
    exact (ihnext hf.2 h _ after).mono (List.subset_cons_self _ _)

/-! ## 3. Nesting -/

/-- The opening tag of an element that may hold something opens it. -/
theorem addPiece_openTag {tag : Tag} (h : tag.endsAtOnce = false) (b : Builder) :
    b.addPiece (.openTag tag) = { b with here := [], opened := ⟨tag, b.here⟩ :: b.opened } := by
  simp [Builder.addPiece, Piece.fault?, h]

/-- The closing tag of the innermost element ends it. -/
theorem addPiece_closeTag (here siblings : List Node) (tag : Tag) (outer : List OpenElement)
    (faults : List Fault) (nameSpan span : Span) :
    Builder.addPiece ⟨here, ⟨tag, siblings⟩ :: outer, faults⟩ (.closeTag tag.name nameSpan span) =
      ⟨.element { tag with endNameSpan := some nameSpan, span := ⟨tag.span.start, span.stop⟩ } here.reverse ::
        siblings, outer, faults⟩ := by
  have hfind : (OpenElement.mk tag siblings :: outer).findIdx? (·.tag.name.toLower == tag.name.toLower) =
      some 0 := by
    rw [List.findIdx?_cons, beq_self_eq_true, if_pos rfl]
  simp only [Builder.addPiece, Piece.fault?, Option.map_none, Option.getD_none, hfind, Builder.abandon,
    Builder.closeInnermost, Builder.closeElement]

/-- **Folding the pieces of a forest.**  Its nodes come in front of those that are there, and every element
that it opens is closed again. -/
theorem foldl_pieces {f : Forest} (hf : f.WellFormed) (pos : Nat) (b : Builder) :
    (f.pieces pos).foldl Builder.addPiece b = { b with here := (f.placed pos).reverse ++ b.here } := by
  induction f generalizing pos b with
  | nil => rfl
  | element name attributes children next ihchildren ihnext =>
    rw [Forest.WellFormed] at hf
    obtain ⟨hname, -, hchildren, hnext⟩ := hf
    have hopens : ∀ span props stop,
        Tag.endsAtOnce ⟨String.ofList name, span, none, props, false, stop⟩ = false := by
      intro span props stop
      rw [Tag.endsAtOnce, Bool.false_or]
      exact hname.holds
    have hcloses := addPiece_closeTag (children.placed (pos + byteLength (renderOpenTag name attributes))).reverse
      b.here ⟨String.ofList name, ⟨pos + 1, pos + 1 + byteLength name⟩, none,
        placedAttributes (pos + 1 + byteLength name) attributes, false,
        ⟨pos, pos + byteLength (renderOpenTag name attributes)⟩⟩ b.opened b.faults
    rw [Forest.pieces, List.foldl_cons, addPiece_openTag (hopens _ _ _), List.foldl_append,
      ihchildren hchildren, List.foldl_cons]
    dsimp only at hcloses ⊢
    rw [List.append_nil, hcloses, ihnext hnext, Forest.placed]
    simp
  | text content next ihnext =>
    rw [Forest.WellFormed] at hf
    obtain ⟨-, -, -, -, hnext⟩ := hf
    rw [Forest.pieces, List.foldl_cons, ihnext hnext, Forest.placed]
    simp [Builder.addPiece, Piece.fault?, Builder.add]
  | interpolation content next ihnext =>
    rw [Forest.WellFormed] at hf
    rw [Forest.pieces, List.foldl_cons, ihnext hf.2, Forest.placed]
    simp [Builder.addPiece, Piece.fault?, Builder.add]
  | comment content next ihnext =>
    rw [Forest.WellFormed] at hf
    rw [Forest.pieces, List.foldl_cons, ihnext hf.2, Forest.placed]
    simp [Builder.addPiece, Piece.fault?, Builder.add]

/-- The tree that is built, with nothing left open and no fault. -/
theorem build_render {f : Forest} (hf : f.WellFormed) (htexts : f.TextsStop) :
    build f.render = (f.placed 0, []) := by
  have hpieces : Markup.pieces 0 f.render = f.pieces 0 := by
    have h := pieces_render hf htexts 0 (.inl rfl : StopsText false [])
    rwa [List.append_nil, Markup.pieces, List.append_nil] at h
  rw [build, hpieces, foldl_pieces hf]
  simp [Builder.abandon]

/-! ## 4. Lifting -/

theorem takeDirective?_placedAttributes (name : String) (pos : Nat) (as : List StaticAttribute) :
    takeDirective? name (placedAttributes pos as) = none := by
  induction as generalizing pos with
  | nil => rfl
  | cons a as ih => simp [placedAttributes, StaticAttribute.placed, takeDirective?, ih]

/-- An element without directives and with nothing to lift inside stays as it is. -/
theorem liftFrom_element {tag : Tag} (h : ∀ name, takeDirective? name tag.props = none) {children : List Node}
    (hchildren : liftFrom {} children = ⟨children.reverse, [], []⟩) {s : Lifting} (hgap : s.gap = [])
    (rest : List Node) :
    liftFrom s (.element tag children :: rest) =
      liftFrom { s with done := .element tag children :: s.done } rest := by
  have htake : ∀ name, tag.take? name = none := by
    intro name
    rw [Tag.take?, h, Option.map_none]
  have hinside : (Node.element tag children).liftInside = (.element tag children, []) := by
    rw [Node.liftInside, hchildren]
    simp [Lifting.nodes]
  rw [liftFrom, hinside]
  simp [Lifting.addSibling, Tag.takeElse?, Lifting.addElement, liftLoop, Lifting.add, htake, hgap]

/-- Any other node stays as it is where no chain ends. -/
theorem liftFrom_of_not_element {node : Node} (hnode : ∀ tag children, node ≠ .element tag children)
    {s : Lifting} (hgap : s.gap = []) (hchain : s.endsInChain = false) (rest : List Node) :
    liftFrom s (node :: rest) = liftFrom { s with done := node :: s.done } rest := by
  have hadd : s.add node [] = { s with done := node :: s.done } := by simp [Lifting.add, hgap]
  rw [liftFrom]
  cases node with
  | element tag children => exact absurd rfl (hnode tag children)
  | _ =>
    rw [Node.liftInside]
    · dsimp only
      rw [List.append_nil, Lifting.addSibling, hchain, Bool.and_false, if_neg Bool.false_ne_true, hadd]
      exact hnode
    · exact hnode

/-- **There is nothing to lift.**  Without directives, every node stays what and where it is. -/
theorem liftFrom_placed (f : Forest) (pos : Nat) {s : Lifting} (hgap : s.gap = [])
    (hchain : s.endsInChain = false) :
    liftFrom s (f.placed pos) = { s with done := (f.placed pos).reverse ++ s.done } := by
  induction f generalizing pos s with
  | nil => rw [Forest.placed, liftFrom, List.reverse_nil, List.nil_append]
  | element name attributes children next ihchildren ihnext =>
    have hchildren := ihchildren (pos + byteLength (renderOpenTag name attributes)) (s := {}) rfl rfl
    rw [List.append_nil] at hchildren
    rw [Forest.placed, liftFrom_element (takeDirective?_placedAttributes · _ _) hchildren hgap, ihnext,
      List.reverse_cons, List.append_assoc, List.singleton_append]
    · exact hgap
    · rfl
  | text content next ihnext =>
    rw [Forest.placed, liftFrom_of_not_element (by simp) hgap hchain, ihnext,
      List.reverse_cons, List.append_assoc, List.singleton_append]
    · exact hgap
    · rfl
  | interpolation content next ihnext =>
    rw [Forest.placed, liftFrom_of_not_element (by simp) hgap hchain, ihnext,
      List.reverse_cons, List.append_assoc, List.singleton_append]
    · exact hgap
    · rfl
  | comment content next ihnext =>
    rw [Forest.placed, liftFrom_of_not_element (by simp) hgap hchain, ihnext,
      List.reverse_cons, List.append_assoc, List.singleton_append]
    · exact hgap
    · rfl

theorem lift_placed (f : Forest) (pos : Nat) : lift (f.placed pos) = (f.placed pos, []) := by
  rw [lift, liftFrom_placed f pos rfl rfl]
  simp [Lifting.nodes]

/-- **Parsing undoes rendering** where every text stops. -/
theorem parse_render {f : Forest} (hf : f.WellFormed) (htexts : f.TextsStop) :
    parse (String.ofList f.render) = ⟨f.placed 0, []⟩ := by
  rw [parse, String.toList_ofList, build_render hf htexts]
  simp [lift_placed]

/-! ## 5. Exactly where every text stops -/

/-- No text of a forest holds a brace. -/
theorem not_hasBraces_placed {f : Forest} (hf : f.WellFormed) (pos : Nat) : ¬ HasBraces (f.placed pos) := by
  induction f generalizing pos with
  | nil => exact not_hasBraces_nil
  | element name attributes children next ihchildren ihnext =>
    rw [Forest.WellFormed] at hf
    obtain ⟨-, -, hchildren, hnext⟩ := hf
    rw [Forest.placed, hasBraces_cons, Node.HasBrace]
    exact not_or_intro (ihchildren hchildren _) (ihnext hnext _)
  | text content next ihnext =>
    rw [Forest.WellFormed] at hf
    obtain ⟨-, -, hbrace, -, hnext⟩ := hf
    rw [Forest.placed, hasBraces_cons, Node.HasBrace, String.toList_ofList]
    exact not_or_intro hbrace (ihnext hnext _)
  | interpolation content next ihnext =>
    rw [Forest.WellFormed] at hf
    rw [Forest.placed, hasBraces_cons, Node.HasBrace]
    exact not_or_intro not_false (ihnext hf.2 _)
  | comment content next ihnext =>
    rw [Forest.WellFormed] at hf
    rw [Forest.placed, hasBraces_cons, Node.HasBrace]
    exact not_or_intro not_false (ihnext hf.2 _)

/-- Where a text does not stop, the tree has a text with a brace. -/
theorem hasBraces_parse_render {f : Forest} (hf : f.WellFormed) (h : ¬ f.TextsStop) :
    HasBraces (parse (String.ofList f.render)).nodes := by
  obtain ⟨content, span, hmem, hbrace⟩ := pieces_render_holdBrace hf h 0 []
  rw [List.append_nil, ← String.toList_ofList (l := f.render)] at hmem
  exact hasBraces_parse hbrace hmem

/-- **Parsing undoes rendering, exactly where every text stops.**  A forest that is rendered and parsed comes
back without a fault, every node with its kind, its parts and its place, if and only if no text that starts
outside ASCII stands directly in front of an interpolation. -/
theorem parse_render_iff {f : Forest} (hf : f.WellFormed) :
    parse (String.ofList f.render) = ⟨f.placed 0, []⟩ ↔ f.TextsStop := by
  constructor
  · intro hparse
    by_contra htexts
    have hbraces := hasBraces_parse_render hf htexts
    rw [hparse] at hbraces
    exact not_hasBraces_placed hf 0 hbraces
  · exact parse_render hf

/-- A paragraph that holds a text outside ASCII, and an interpolation behind the paragraph. -/
def paragraph : Forest :=
  .element ['p'] [⟨['i', 'd'], ['a']⟩] (.text ['é'] .nil) (.interpolation ['b'] .nil)

theorem wellFormed_paragraph : paragraph.WellFormed := by
  have htag : IsTagName ['p'] := isTagName_of_word (by decide) (by simp) (by decide +kernel)
  have hname : IsPlainName ['i', 'd'] :=
    isPlainName_of_word (by decide) (List.forall_mem_singleton.2 (by decide)) (by decide)
  refine ⟨htag, List.forall_mem_singleton.2 ⟨hname, by decide⟩, ?_, by decide, trivial⟩
  exact ⟨by decide, by decide, by decide, rfl, trivial⟩

/-- The text ends at the closing tag, so the paragraph comes back. -/
theorem parse_render_paragraph : paragraph.WellFormed ∧ paragraph.TextsStop ∧
    parse "<p id=\"a\">é</p>\x7b\x7bb\x7d\x7d" =
      ⟨[.element ⟨"p", ⟨1, 2⟩, some ⟨14, 15⟩, [.plain ⟨"id", ⟨3, 5⟩, some ⟨"a", ⟨7, 8⟩, ⟨6, 9⟩⟩, ⟨3, 9⟩⟩],
            false, ⟨0, 16⟩⟩ [.text "é" ⟨10, 12⟩],
          .interpolation ⟨"b", ⟨18, 19⟩⟩ ⟨16, 21⟩], []⟩ := by
  have htexts : paragraph.TextsStop := ⟨⟨fun _ => rfl, trivial⟩, trivial⟩
  exact ⟨wellFormed_paragraph, htexts, (parse_render_iff wellFormed_paragraph).2 htexts⟩

/-- A text outside ASCII in front of an interpolation. -/
def accented : Forest := .text ['é'] (.interpolation [' ', 'a', ' '] .nil)

theorem wellFormed_accented : accented.WellFormed :=
  ⟨by decide, by decide, by decide, rfl, by decide, trivial⟩

/-- The text takes the braces in. -/
theorem parse_accented : parse "é\x7b\x7b a \x7d\x7d" = ⟨[.text "é\x7b\x7b a \x7d\x7d" ⟨0, 9⟩], []⟩ := by
  have hread : readPiece 0 'é' ['\x7b', '\x7b', ' ', 'a', ' ', '\x7d', '\x7d'] =
      ⟨.text "é\x7b\x7b a \x7d\x7d" ⟨0, 9⟩, "é\x7b\x7b a \x7d\x7d".toList, []⟩ := rfl
  have hpieces : pieces 0 "é\x7b\x7b a \x7d\x7d".toList = [.text "é\x7b\x7b a \x7d\x7d" ⟨0, 9⟩] := by
    have h := pieces_of_readPiece hread
    rw [pieces] at h
    exact h
  have hbuild : build "é\x7b\x7b a \x7d\x7d".toList = ([.text "é\x7b\x7b a \x7d\x7d" ⟨0, 9⟩], []) := by
    rw [build, hpieces]
    rfl
  have hlift : lift [.text "é\x7b\x7b a \x7d\x7d" ⟨0, 9⟩] = ([.text "é\x7b\x7b a \x7d\x7d" ⟨0, 9⟩], []) := by
    rw [lift, liftFrom_of_not_element (by simp) rfl rfl, liftFrom]
    rfl
  rw [parse, hbuild]
  dsimp only
  rw [hlift, List.append_nil, List.mergeSort_nil]

/-- One node is read where two were rendered. -/
theorem parse_render_accented_ne : accented.WellFormed ∧
    String.ofList accented.render = "é\x7b\x7b a \x7d\x7d" ∧
    accented.placed 0 = [.text "é" ⟨0, 2⟩, .interpolation ⟨" a ", ⟨4, 7⟩⟩ ⟨2, 9⟩] ∧
    parse (String.ofList accented.render) ≠ ⟨accented.placed 0, []⟩ := by
  refine ⟨wellFormed_accented, rfl, rfl, ?_⟩
  intro h
  have hnodes := congrArg (·.nodes.length) (parse_accented.symm.trans h)
  exact absurd hnodes (by decide)

end ComponentLens.Markup
