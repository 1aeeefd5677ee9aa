/-
# Pieces in place

What it means for a tree to be nested as its text is, and why the pieces that it is built from are.

A node is well placed (`Node.WellPlaced`) if it lies in the text, if its children line up inside it, and if what
it records with a place is what the text holds there.  `LinedUp` says that places stand one behind the other
between two bounds.  A part of a line can be replaced by anything that lines up wherever that part does
(`LinedUp.replace`), which is all that later stages need to know of bounds.

The pieces of a text are well placed and tile it: each starts where the one before it ends (`pieces_tile`).
-/
import ComponentLens.Proofs.Markup.Parts

namespace ComponentLens.Markup

/-! ## 1. Places in a line -/

/-- The place lies in the text: its ends are in order, and none of them cuts a character. -/
def LiesIn (source : List Char) (s : Span) : Prop := ∃ inside, s.Reads source inside

theorem LiesIn.of_ends {source : List Char} {start stop : Nat} (hstart : IsBoundary source start)
    (hstop : IsBoundary source stop) (hle : start ≤ stop) : LiesIn source ⟨start, stop⟩ :=
  Span.exists_reads hstart hstop hle

/-- The places lie between the two offsets, and each ends before the next one starts. -/
structure LinedUp (lo hi : Nat) (ss : List Span) : Prop where
  inside : ∀ s ∈ ss, lo ≤ s.start ∧ s.start ≤ s.stop ∧ s.stop ≤ hi
  order : ss.Pairwise (·.stop ≤ ·.start)

namespace LinedUp

variable {lo mid hi : Nat} {s : Span} {ss ts : List Span}

@[simp] theorem nil : LinedUp lo hi [] := ⟨by simp, .nil⟩

theorem single (hlo : lo ≤ s.start) (hs : s.start ≤ s.stop) (hhi : s.stop ≤ hi) : LinedUp lo hi [s] :=
  ⟨by simpa using ⟨hlo, hs, hhi⟩, List.pairwise_singleton _ _⟩

theorem mono {lo' hi' : Nat} (h : LinedUp lo hi ss) (hlo : lo' ≤ lo) (hhi : hi ≤ hi') :
    LinedUp lo' hi' ss := by
  refine ⟨?_, h.order⟩
  intro s hs
  have := h.inside s hs
  omega

theorem sublist (h : LinedUp lo hi ss) (hsub : ts.Sublist ss) : LinedUp lo hi ts :=
  ⟨fun s hs => h.inside s (hsub.subset hs), h.order.sublist hsub⟩

theorem append (h : LinedUp lo mid ss) (h' : LinedUp mid hi ts) (hlo : lo ≤ mid) (hhi : mid ≤ hi) :
    LinedUp lo hi (ss ++ ts) := by
  refine ⟨?_, List.pairwise_append.2 ⟨h.order, h'.order, ?_⟩⟩
  · intro s hs
    rcases List.mem_append.1 hs with hs | hs
    · have := h.inside s hs
      omega
    · have := h'.inside s hs
      omega
  · intro s hs t ht
    have := h.inside s hs
    have := h'.inside t ht
    omega

/-- A place in front of the line. -/
theorem cons (hlo : lo ≤ s.start) (hs : s.start ≤ s.stop) (h : LinedUp s.stop hi ss) (hhi : s.stop ≤ hi) :
    LinedUp lo hi (s :: ss) :=
  (single hlo hs (Nat.le_refl _)).append h (Nat.le_trans hlo hs) hhi

/-- **A part of a line can be replaced** by what lines up wherever that part does. -/
theorem replace {front old new back : List Span} (h : LinedUp lo hi (front ++ (old ++ back)))
    (hnew : ∀ lo hi, LinedUp lo hi old → LinedUp lo hi new) : LinedUp lo hi (front ++ (new ++ back)) := by
  obtain ⟨hfront, hrest, hacross⟩ := List.pairwise_append.1 h.order
  obtain ⟨hold, hback, hbehind⟩ := List.pairwise_append.1 hrest
  have hmiddle : LinedUp lo hi old :=
    h.sublist ((List.sublist_append_left _ _).trans (List.sublist_append_right _ _))
  -- what stands in front of the old part bounds the new one as well
  have hafter : ∀ a ∈ front, LinedUp a.stop hi new := fun a ha => hnew _ _
    ⟨fun s hs => ⟨hacross a ha s (by simp [hs]), (hmiddle.inside s hs).2⟩, hold⟩
  have hbefore : ∀ b ∈ back, LinedUp lo b.start new := fun b hb => hnew _ _
    ⟨fun s hs => ⟨(hmiddle.inside s hs).1, (hmiddle.inside s hs).2.1, hbehind s hs b hb⟩, hold⟩
  refine ⟨?_, List.pairwise_append.2 ⟨hfront, List.pairwise_append.2 ⟨(hnew _ _ hmiddle).order, hback, ?_⟩, ?_⟩⟩
  · intro s hs
    rcases List.mem_append.1 hs with hs | hs
    · exact h.inside s (by simp [hs])
    · rcases List.mem_append.1 hs with hs | hs
      · exact (hnew _ _ hmiddle).inside s hs
      · exact h.inside s (by simp [hs])
  · exact fun s hs b hb => ((hbefore b hb).inside s hs).2.2
  · intro a ha s hs
    rcases List.mem_append.1 hs with hs | hs
    · exact ((hafter a ha).inside s hs).1
    · exact hacross a ha s (by simp [hs])

/-- Two places of a line and all between them can be made one. -/
theorem merge {a b : Span} {gap : List Span} (h : LinedUp lo hi (a :: (gap ++ [b]))) :
    LinedUp lo hi [⟨a.start, b.stop⟩] := by
  obtain ⟨hfirst, -⟩ := List.pairwise_cons.1 h.order
  have ha := h.inside a (by simp)
  have hb := h.inside b (by simp)
  have hab := hfirst b (by simp)
  exact single ha.1 (by simp only; omega) hb.2.2

end LinedUp

/-! ## 2. Nodes in place -/

/-- An attribute or directive lies in the text, with its name and value or its argument and code. -/
def TagProp.WellPlaced (source : List Char) : TagProp → Prop
  | .plain a => LiesIn source a.span ∧ a.nameSpan.Reads source a.name.toList ∧
      ∀ v ∈ a.value, v.span.Reads source v.content.toList
  | .directive d => LiesIn source d.span ∧
      (∀ arg ∈ d.arg, arg.span.Reads source arg.content.toList) ∧ ∀ e ∈ d.exp, e.StandsIn source

/-- A tag lies in the text with its name and all it holds.  The closing tag has the same name, letter case
aside. -/
structure Tag.WellPlaced (source : List Char) (tag : Tag) : Prop where
  span : LiesIn source tag.span
  name : tag.nameSpan.Reads source tag.name.toList
  endName : ∀ s ∈ tag.endNameSpan, ∃ name : String, s.Reads source name.toList ∧
    name.toLower = tag.name.toLower
  props : ∀ prop ∈ tag.props, prop.WellPlaced source

/-- The places of an opening tag: its name, and what it holds. -/
def Tag.frontSpans (tag : Tag) : List Span := tag.nameSpan :: tag.props.map TagProp.span

/-- A comment is its content between two marks.  Only where the text ends with it the second mark may lack. -/
def CommentReads (source content : List Char) (s : Span) : Prop :=
  s.Reads source ("<!--".toList ++ (content ++ "-->".toList)) ∨
    s.Reads source ("<!--".toList ++ content) ∧ s.stop = byteLength source

/-- An interpolation is its code between braces. -/
def InterpolationReads (source : List Char) (e : Expression) (s : Span) : Prop :=
  s.Reads source ("\x7b\x7b".toList ++ (e.content.toList ++ "\x7d\x7d".toList)) ∧
    e.StandsIn source ∧ s.contains e.span = true

/-- The place of a branch. -/
def Branch.span : Branch → Span
  | .mk _ _ span => span

mutual

/-- **The node lies in the text and holds what the text holds there**, its children line up inside it, and all
of them are well placed.  The children of an element stand between the opening and the closing tag. -/
def Node.WellPlaced (source : List Char) : Node → Prop
  | .element tag children => tag.WellPlaced source ∧
      LinedUp tag.span.start tag.span.stop
        (tag.frontSpans ++ (children.map Node.span ++ tag.endNameSpan.toList)) ∧
      nodesWellPlaced source children
  | .text content span => span.Reads source content.toList
  | .comment content span => CommentReads source content.toList span
  | .interpolation e span => InterpolationReads source e span
  | .chain branches span => LiesIn source span ∧
      LinedUp span.start span.stop (branches.map Branch.span) ∧ branchesWellPlaced source branches
  | .loop parts children span => LiesIn source span ∧
      LinedUp span.start span.stop (children.map Node.span) ∧
      (∀ e ∈ parts.expressions, e.StandsIn source) ∧ nodesWellPlaced source children

/-- All siblings are well placed. -/
def nodesWellPlaced (source : List Char) : List Node → Prop
  | [] => True
  | node :: rest => node.WellPlaced source ∧ nodesWellPlaced source rest

/-- All branches of a chain are well placed. -/
def branchesWellPlaced (source : List Char) : List Branch → Prop
  | [] => True
  | .mk condition children span :: rest => (LiesIn source span ∧
      LinedUp span.start span.stop (children.map Node.span) ∧
      (∀ e ∈ condition, e.StandsIn source) ∧ nodesWellPlaced source children) ∧
    branchesWellPlaced source rest

end

section

variable {source : List Char}

theorem nodesWellPlaced_iff {nodes : List Node} :
    nodesWellPlaced source nodes ↔ ∀ node ∈ nodes, node.WellPlaced source := by
  induction nodes with
  | nil => simp [nodesWellPlaced]
  | cons node rest ih => simp [nodesWellPlaced, ih]

theorem branchesWellPlaced_append {xs ys : List Branch} : branchesWellPlaced source (xs ++ ys) ↔
    branchesWellPlaced source xs ∧ branchesWellPlaced source ys := by
  induction xs with
  | nil => simp [branchesWellPlaced]
  | cons x xs ih =>
    obtain ⟨condition, children, span⟩ := x
    simp [branchesWellPlaced, ih, and_assoc]

theorem CommentReads.liesIn {content : List Char} {s : Span} (h : CommentReads source content s) :
    LiesIn source s := h.elim (⟨_, ·⟩) fun h => ⟨_, h.1⟩

/-- A node lies in the text. -/
theorem Node.WellPlaced.liesIn : ∀ {node : Node}, node.WellPlaced source → LiesIn source node.span
  | .element _ _, h => h.1.span
  | .text _ _, h => ⟨_, h⟩
  | .comment _ _, h => CommentReads.liesIn h
  | .interpolation _ _, h => ⟨_, h.1⟩
  | .chain _ _, h => h.1
  | .loop _ _ _, h => h.1

end

/-! ## 3. Pieces -/

/-- The place of a piece. -/
def Piece.span : Piece → Span
  | .comment _ span _ => span
  | .text _ span => span
  | .interpolation _ span => span
  | .unclosedInterpolation _ span => span
  | .openTag tag => tag.span
  | .closeTag _ _ span => span

/-- The piece lies in the text and holds what the text holds there. -/
def Piece.WellPlaced (source : List Char) : Piece → Prop
  | .comment content span _ => CommentReads source content.toList span
  | .text content span => span.Reads source content.toList
  | .interpolation e span => InterpolationReads source e span
  | .unclosedInterpolation content span => span.Reads source content.toList ∧
      "\x7b\x7b".toList <+: content.toList
  | .openTag tag => tag.WellPlaced source ∧ LinedUp tag.span.start tag.span.stop tag.frontSpans ∧
      tag.endNameSpan = none
  | .closeTag name nameSpan span => LiesIn source span ∧ nameSpan.Reads source name.toList ∧
      LinedUp span.start span.stop [nameSpan]

/-- The pieces stand one right behind the other, from the offset on to the end of the text. -/
def Tiles (source : List Char) (pos : Nat) : List Piece → Prop
  | [] => pos = byteLength source
  | piece :: rest => piece.WellPlaced source ∧ piece.span.start = pos ∧ Tiles source piece.span.stop rest

section

variable {source : List Char}

/-- A piece lies in the text. -/
theorem Piece.WellPlaced.liesIn : ∀ {piece : Piece}, piece.WellPlaced source → LiesIn source piece.span
  | .comment _ _ _, h => CommentReads.liesIn h
  | .text _ _, h => ⟨_, h⟩
  | .interpolation _ _, h => ⟨_, h.1⟩
  | .unclosedInterpolation _ _, h => ⟨_, h.1⟩
  | .openTag _, h => h.1.span
  | .closeTag _ _ _, h => h.1

/-- What is wrong with a piece is reported inside it. -/
theorem Piece.WellPlaced.fault {piece : Piece} (h : piece.WellPlaced source) :
    ∀ fault ∈ piece.fault?, LiesIn source fault.span := by
  intro fault hfault
  cases piece with
  | comment content span isClosed =>
    cases isClosed <;> simp only [Piece.fault?, reduceIte, Bool.false_eq_true] at hfault
    · cases hfault
      exact CommentReads.liesIn h
    · cases hfault
  | unclosedInterpolation content span =>
    cases hfault
    obtain ⟨hreads, rest, hrest⟩ := h
    rw [← hrest] at hreads
    obtain ⟨before, after, rfl, rfl⟩ := hreads
    exact ⟨"\x7b\x7b".toList, before, rest ++ after, by simp, rfl⟩
  | text => cases hfault
  | interpolation => cases hfault
  | openTag => cases hfault
  | closeTag => cases hfault

end

theorem TagProp.span_ofReading (pos : Nat) (raw : List Char) (value : Option ValueReading) :
    (TagProp.ofReading pos raw value).span =
      ⟨pos, pos + byteLength raw + (value.map (byteLength ·.passed)).getD 0⟩ := by
  unfold TagProp.ofReading
  dsimp only
  split <;> rfl

theorem Placed.bounds_span {source : List Char} {prop : TagProp} (h : Placed source (.prop prop)) :
    Bounds source prop.span := by
  cases prop with
  | plain a => exact h.1
  | directive d => exact h.1

/-- An attribute or directive is well placed in the text that it is read from. -/
theorem TagProp.ofReading_wellPlaced (before name rest : List Char) (value : Option ValueReading) :
    (TagProp.ofReading (byteLength before) name value).WellPlaced
      (before ++ (name ++ ((value.map (·.passed)).getD [] ++ rest))) := by
  have hplaced := TagProp.ofReading_placed before name rest value
  have hname := Span.reads_append before name ((value.map (·.passed)).getD [] ++ rest)
  have hspan : LiesIn (before ++ (name ++ ((value.map (·.passed)).getD [] ++ rest)))
      (TagProp.ofReading (byteLength before) name value).span := by
    have hends : Bounds _ (TagProp.ofReading (byteLength before) name value).span := hplaced.bounds_span
    rw [TagProp.span_ofReading] at hends ⊢
    exact .of_ends hends.1 hends.2 (by omega)
  revert hplaced hspan
  unfold TagProp.ofReading
  dsimp only
  split
  · exact fun hplaced hspan => ⟨hspan, hplaced.2⟩
  · exact fun hplaced hspan => ⟨hspan, by simpa using hname, hplaced.2.2⟩

/-- **The properties of a tag** are well placed and line up. -/
theorem readProps_wellPlaced (pos : Nat) (cs before : List Char) (hpos : byteLength before = pos) :
    (∀ prop ∈ (readProps pos cs).props, prop.WellPlaced (before ++ cs)) ∧
      LinedUp pos (pos + byteLength (readProps pos cs).passed)
        ((readProps pos cs).props.map TagProp.span) := by
  fun_induction readProps pos cs generalizing before with
  | case1 => simp
  | case2 => simp
  | case3 => simp
  | case4 pos c cs _ _ _ ih =>
    obtain ⟨hprops, hline⟩ := ih (before ++ [c]) (by simp [hpos])
    refine ⟨by simpa [PropsReading.prepend] using hprops, ?_⟩
    simp only [PropsReading.prepend, byteLength_append, byteLength_cons, byteLength_nil]
    exact hline.mono (by omega) (by omega)
  | case5 pos c cs _ _ _ tail name _ v h _ ih =>
    have hcs : c :: cs = name ++ (v.passed ++ v.rest) := by
      rw [readValue?_append h, List.cons_append, nameTail_append]
    have hhead := TagProp.ofReading_wellPlaced before name v.rest (some v)
    obtain ⟨hprops, hline⟩ := ih (before ++ (name ++ v.passed)) (by simp [hpos]; omega)
    simp only [Option.map_some, Option.getD_some] at hhead
    rw [hpos, ← hcs] at hhead
    rw [List.append_assoc, List.append_assoc, ← hcs] at hprops
    refine ⟨by simpa [PropsReading.cons, PropsReading.prepend] using ⟨hhead, hprops⟩, ?_⟩
    simp only [PropsReading.cons, PropsReading.prepend, List.map_cons, TagProp.span_ofReading,
      Option.map_some, Option.getD_some, byteLength_append]
    exact .cons (Nat.le_refl _) (by simp only; omega) (hline.mono (by simp only; omega) (by omega))
      (by simp only; omega)
  | case6 pos c cs _ _ _ tail name _ h ih =>
    have hcs : c :: cs = name ++ tail.2 := by rw [List.cons_append, nameTail_append]
    have hhead := TagProp.ofReading_wellPlaced before name tail.2 none
    obtain ⟨hprops, hline⟩ := ih (before ++ name) (by simp [hpos])
    simp only [Option.map_none, Option.getD_none, List.nil_append] at hhead
    rw [hpos, ← hcs] at hhead
    rw [List.append_assoc, ← hcs] at hprops
    refine ⟨by simpa [PropsReading.cons, PropsReading.prepend] using ⟨hhead, hprops⟩, ?_⟩
    simp only [PropsReading.cons, PropsReading.prepend, List.map_cons, TagProp.span_ofReading,
      Option.map_none, Option.getD_none, byteLength_append]
    exact .cons (Nat.le_refl _) (by simp only; omega) (hline.mono (by simp only; omega) (by omega))
      (by simp only; omega)

/-- What a reader of pieces hands out: a piece over all that it passed, well placed. -/
def PieceReading.InPlace (source : List Char) (pos : Nat) (r : PieceReading) : Prop :=
  r.piece.span = ⟨pos, pos + byteLength r.passed⟩ ∧ r.piece.WellPlaced source

/-- What a reader passed stands where it read. -/
theorem PieceReading.reads_passed {r : PieceReading} {cs : List Char} (h : r.passed ++ r.rest = cs)
    (before : List Char) :
    Span.Reads ⟨byteLength before, byteLength before + byteLength r.passed⟩ (before ++ cs) r.passed := by
  rw [← h]
  exact Span.reads_append before r.passed r.rest

theorem readComment_inPlace (before cs : List Char) :
    (readComment (byteLength before) cs).InPlace (before ++ '<' :: '!' :: '-' :: '-' :: cs)
      (byteLength before) := by
  have hreads := PieceReading.reads_passed (readComment_append (byteLength before) cs) before
  have happend := readComment_append (byteLength before) cs
  refine ⟨rfl, ?_⟩
  rcases breakOn_snd ['-', '-', '>'] cs with hnil | ⟨rest, hrest⟩
  · -- nothing closes the comment
    refine .inr ⟨by simpa [readComment, hnil] using hreads, ?_⟩
    have hwhole := congrArg byteLength happend
    simp only [readComment, hnil, List.take_nil, List.drop_nil, List.append_nil] at hwhole ⊢
    rw [byteLength_append, hwhole]
  · exact .inl (by simpa [readComment, ← hrest] using hreads)

theorem readCloseTag_inPlace (before cs : List Char) :
    (readCloseTag (byteLength before) cs).InPlace (before ++ '<' :: '/' :: cs) (byteLength before) := by
  have hlt : '<'.utf8Size = 1 := rfl
  have hslash : '/'.utf8Size = 1 := rfl
  have hreads := PieceReading.reads_passed (readCloseTag_append (byteLength before) cs) before
  have hname := Span.reads_append (before ++ ['<', '/']) (cs.takeWhile isElementNamePart)
    (cs.dropWhile isElementNamePart)
  rw [List.takeWhile_append_dropWhile] at hname
  refine ⟨rfl, ⟨_, hreads⟩, by simpa [hlt, hslash] using hname, ?_⟩
  refine .single (Nat.le_add_right _ _) (Nat.le_add_right _ _) ?_
  simp [hlt, hslash]
  omega

theorem readOpenTag_inPlace (before cs : List Char) :
    (readOpenTag (byteLength before) cs).InPlace (before ++ '<' :: cs) (byteLength before) := by
  have hlt : '<'.utf8Size = 1 := rfl
  have hreads := PieceReading.reads_passed (readOpenTag_append (byteLength before) cs) before
  have hname := Span.reads_append (before ++ ['<']) (cs.takeWhile isElementNamePart)
    (cs.dropWhile isElementNamePart)
  obtain ⟨hprops, hline⟩ := readProps_wellPlaced _ (cs.dropWhile isElementNamePart)
    (before ++ '<' :: cs.takeWhile isElementNamePart) rfl
  rw [List.takeWhile_append_dropWhile] at hname
  rw [List.append_assoc, List.cons_append, List.takeWhile_append_dropWhile] at hprops
  simp only [byteLength_append, byteLength_cons, hlt, ← Nat.add_assoc] at hprops hline
  refine ⟨rfl, ⟨⟨_, hreads⟩, by simpa [hlt] using hname, by simp, hprops⟩, ?_, rfl⟩
  refine .cons (Nat.le_add_right _ _) (Nat.le_add_right _ _) (hline.mono ?_ ?_) ?_
  · exact Nat.le_refl _
  · simp [hlt]
    omega
  · simp [hlt]
    omega

theorem readInterpolation_inPlace (before cs : List Char) :
    (readInterpolation (byteLength before) cs).InPlace (before ++ '\x7b' :: '\x7b' :: cs)
      (byteLength before) := by
  have hbrace : '\x7b'.utf8Size = 1 := rfl
  have hreads := PieceReading.reads_passed (readInterpolation_append (byteLength before) cs) before
  have hplaced := readInterpolation_placed before cs
  rcases breakOn_snd ['\x7d', '\x7d'] cs with hnil | ⟨rest, hrest⟩
  · simp only [readInterpolation, hnil, List.isEmpty_nil, if_true] at hreads ⊢
    exact ⟨rfl, by simpa using hreads, by simp⟩
  · have hclosed : (breakOn ['\x7d', '\x7d'] cs).2.isEmpty = false := by simp [← hrest]
    simp only [readInterpolation, hclosed, Bool.false_eq_true, if_false, Piece.parts, allParts_cons]
      at hreads hplaced ⊢
    refine ⟨rfl, by simpa [← hrest] using hreads, hplaced.1, ?_⟩
    simp [Span.contains, hbrace]
    omega

/-- **A piece** is well placed in the text that it is read from. -/
theorem readPiece_inPlace (before : List Char) (c : Char) (cs : List Char) :
    (readPiece (byteLength before) c cs).InPlace (before ++ c :: cs) (byteLength before) := by
  unfold readPiece
  split
  next h =>
    simp only [Bool.and_eq_true, beq_iff_eq, List.isPrefixOf_iff_prefix] at h
    obtain ⟨rfl, rest, rfl⟩ := h
    exact readComment_inPlace before rest
  split
  next h =>
    simp only [Bool.and_eq_true, beq_iff_eq, List.head?_eq_some_iff] at h
    obtain ⟨⟨rfl, rest, rfl⟩, -⟩ := h
    exact readCloseTag_inPlace before rest
  split
  next h =>
    simp only [Bool.and_eq_true, beq_iff_eq] at h
    obtain ⟨rfl, -⟩ := h
    exact readOpenTag_inPlace before cs
  split
  next h =>
    simp only [Bool.and_eq_true, beq_iff_eq, List.head?_eq_some_iff] at h
    obtain ⟨rfl, rest, rfl⟩ := h
    exact readInterpolation_inPlace before rest
  · have hreads := Span.reads_append before (c :: (readText (c.val < 0x80) cs).1)
      (readText (c.val < 0x80) cs).2
    rw [List.cons_append, readText_append] at hreads
    exact ⟨rfl, by simpa [Piece.WellPlaced] using hreads⟩

/-- **The pieces of a text tile it.** -/
theorem pieces_tile (pos : Nat) (cs before : List Char) (hpos : byteLength before = pos) :
    Tiles (before ++ cs) pos (pieces pos cs) := by
  fun_induction pieces pos cs generalizing before with
  | case1 => simp [Tiles, hpos]
  | case2 pos c cs _ ih =>
    obtain ⟨hspan, hplaced⟩ := readPiece_inPlace before c cs
    have hrest := ih (before ++ (readPiece pos c cs).passed) (by simp [hpos])
    rw [List.append_assoc, readPiece_append] at hrest
    rw [hpos] at hspan hplaced
    exact ⟨hplaced, by rw [hspan], by rwa [hspan]⟩

end ComponentLens.Markup
