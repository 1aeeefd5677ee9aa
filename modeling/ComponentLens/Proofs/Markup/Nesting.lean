/-
# A tree is nested as its text is

Every node of a template tree lies in its parent, siblings stand one behind the other, and what is recorded with
a place is what the text holds there.  This is so for every text: for elements that are never closed, closing tags
without an element, and comments, quotes and braces that run to the end.  `parse_wellPlaced` says it of the
tree and of the places of all faults.

A builder knows, of every element that is still open, where its content starts and how far its siblings reach
(`Builder.WellPlaced`).  Closing an element puts what was read inside it between its opening tag and its end,
wherever that end is.  Lifting moves no node: a loop and a branch have the place of their element, and a chain
spans its branches with what stood between them.  So what lines up before lifting lines up after it, between
the same bounds (`Node.liftInside_lifted`).
-/
import ComponentLens.Proofs.Markup.WellPlaced

namespace ComponentLens.Markup

/-! ## 1. Nesting -/

/-- Where the content of the innermost open element starts. -/
def contentStart : List OpenElement → Nat
  | [] => 0
  | o :: _ => o.tag.span.stop

/-- An open element and its siblings in front of it, which start behind the offset. -/
structure OpenElement.WellPlaced (source : List Char) (start : Nat) (o : OpenElement) : Prop where
  tag : o.tag.WellPlaced source
  front : LinedUp o.tag.span.start o.tag.span.stop o.tag.frontSpans
  start_le : start ≤ o.tag.span.start
  siblings : LinedUp start o.tag.span.start (o.siblings.reverse.map Node.span)
  siblings_wellPlaced : ∀ node ∈ o.siblings, node.WellPlaced source

/-- Each open element stands in the content of the next. -/
def openWellPlaced (source : List Char) : List OpenElement → Prop
  | [] => True
  | o :: outer => o.WellPlaced source (contentStart outer) ∧ openWellPlaced source outer

/-- **What holds of a builder** that has read the text up to the offset. -/
structure Builder.WellPlaced (source : List Char) (pos : Nat) (b : Builder) : Prop where
  boundary : IsBoundary source pos
  start_le : contentStart b.opened ≤ pos
  here : LinedUp (contentStart b.opened) pos (b.here.reverse.map Node.span)
  here_wellPlaced : ∀ node ∈ b.here, node.WellPlaced source
  opened : openWellPlaced source b.opened
  faults : ∀ fault ∈ b.faults, LiesIn source fault.span

namespace Builder.WellPlaced

variable {source : List Char} {pos stop : Nat} {b : Builder}

theorem report (h : b.WellPlaced source pos) (fault : Fault) (hfault : LiesIn source fault.span) :
    (b.report fault).WellPlaced source pos :=
  { h with faults := by simpa [Builder.report, or_imp, forall_and] using ⟨h.faults, hfault⟩ }

/-- Reading on. -/
theorem advance (h : b.WellPlaced source pos) (hstop : IsBoundary source stop) (hle : pos ≤ stop) :
    b.WellPlaced source stop :=
  { h with
    boundary := hstop
    start_le := Nat.le_trans h.start_le hle
    here := h.here.mono (Nat.le_refl _) hle }

/-- One more node, right behind what has been read. -/
theorem add (h : b.WellPlaced source pos) (node : Node) (hnode : node.WellPlaced source)
    (hstart : node.span.start = pos) : (b.add node).WellPlaced source node.span.stop := by
  obtain ⟨inside, hreads⟩ := hnode.liesIn
  have hle := hreads.start_le_stop
  refine ⟨hreads.isBoundary_stop, ?_, ?_, ?_, h.opened, h.faults⟩
  · exact Nat.le_trans h.start_le (hstart ▸ hle)
  · have hline := h.here.append (.single (Nat.le_of_eq hstart.symm) hle (Nat.le_refl _)) h.start_le
      (hstart ▸ hle)
    simpa [Builder.add] using hline
  · simpa [Builder.add] using ⟨hnode, h.here_wellPlaced⟩

/-- **Closing an element.**  What was read since its opening tag comes to stand between that tag and its end;
the name of a closing tag stands behind it. -/
theorem close (h : b.WellPlaced source pos) {o : OpenElement} {outer : List OpenElement}
    (hopened : b.opened = o :: outer) (hstop : IsBoundary source stop) (hle : pos ≤ stop)
    {endName : Option Span} (hname : ∀ s ∈ endName, ∃ name : String, s.Reads source name.toList ∧
      name.toLower = o.tag.name.toLower) (hend : LinedUp pos stop endName.toList) :
    ({ b with here := b.closeElement o endName stop, opened := outer } : Builder).WellPlaced source stop := by
  have hall := h.opened
  have hstart := h.start_le
  have hhere := h.here
  rw [hopened] at hall hstart hhere
  obtain ⟨ho, houter⟩ := hall
  obtain ⟨inside, hreads⟩ := ho.tag.span
  have hwide : o.tag.span.start ≤ o.tag.span.stop := hreads.start_le_stop
  have hfrom : contentStart outer ≤ o.tag.span.start := ho.start_le
  have hstart : o.tag.span.stop ≤ pos := hstart
  have hself : LinedUp o.tag.span.start stop [⟨o.tag.span.start, stop⟩] :=
    .single (Nat.le_refl _) (by simp only; omega) (Nat.le_refl _)
  have helement : (Node.element { o.tag with endNameSpan := endName, span := ⟨o.tag.span.start, stop⟩ }
      b.here.reverse).WellPlaced source := by
    refine ⟨⟨.of_ends hreads.isBoundary_start hstop (by omega), ho.tag.name, hname, ho.tag.props⟩, ?_, ?_⟩
    · exact ho.front.append (hhere.append hend hstart hle) hwide (Nat.le_trans hstart hle)
    · rw [nodesWellPlaced_iff]
      exact fun node hnode => h.here_wellPlaced node (List.mem_reverse.1 hnode)
  refine ⟨hstop, by simp only; omega, ?_, ?_, houter, h.faults⟩
  · have hline := ho.siblings.append hself hfrom (by omega)
    simpa [Builder.closeElement, Node.span] using hline
  · simpa [Builder.closeElement] using ⟨helement, ho.siblings_wellPlaced⟩

/-- Elements without a closing tag end where the text has been read to. -/
theorem abandon (h : b.WellPlaced source pos) (count : Nat) : (b.abandon pos count).WellPlaced source pos := by
  induction count generalizing b with
  | zero => exact h
  | succ count ih =>
    rw [Builder.abandon]
    split
    · exact h
    next o outer hopened =>
      have hall := h.opened
      rw [hopened] at hall
      have hreport := h.report ⟨.unclosedElement o.tag.name, o.tag.nameSpan⟩ ⟨_, hall.1.tag.name⟩
      exact ih (hreport.close hopened h.boundary (Nat.le_refl _) (by simp) (by simp))

end Builder.WellPlaced

/-- Ending elements leaves the outer ones open. -/
theorem Builder.opened_abandon_eq_drop (b : Builder) (stop count : Nat) :
    (b.abandon stop count).opened = b.opened.drop count := by
  induction count generalizing b with
  | zero => rfl
  | succ count ih =>
    rw [Builder.abandon]
    split
    next hnil => simp [hnil]
    next o outer hopened => rw [ih, hopened, List.drop_succ_cons]

/-- **One piece**, right behind what has been read. -/
theorem Builder.WellPlaced.addPiece {source : List Char} {pos : Nat} {b : Builder}
    (h : b.WellPlaced source pos) {piece : Piece} (hpiece : piece.WellPlaced source)
    (hstart : piece.span.start = pos) : (b.addPiece piece).WellPlaced source piece.span.stop := by
  have hb : ((piece.fault?.map b.report).getD b).WellPlaced source pos := by
    cases hfault : piece.fault? with
    | none => exact h
    | some fault => exact h.report fault (hpiece.fault fault hfault)
  unfold Builder.addPiece
  dsimp only
  generalize (piece.fault?.map b.report).getD b = b' at hb
  cases piece with
  | comment content span isClosed => exact hb.add (.comment content span) hpiece hstart
  | text content span => exact hb.add (.text content span) hpiece hstart
  | interpolation e span => exact hb.add (.interpolation e span) hpiece hstart
  | unclosedInterpolation content span => exact hb.add (.text content span) hpiece.1 hstart
  | openTag tag =>
    obtain ⟨htag, hfront, hend⟩ := hpiece
    simp only
    split
    · refine hb.add (.element tag []) ⟨htag, ?_, trivial⟩ hstart
      simpa [hend] using hfront
    · obtain ⟨inside, hreads⟩ := htag.span
      have hstart : tag.span.start = pos := hstart
      subst hstart
      exact ⟨hreads.isBoundary_stop, Nat.le_refl _, by simp, by simp,
        ⟨⟨htag, hfront, hb.start_le, hb.here, hb.here_wellPlaced⟩, hb.opened⟩, hb.faults⟩
  | closeTag name nameSpan span =>
    obtain ⟨⟨inside, hreads⟩, hname, hline⟩ := hpiece
    have hstart : span.start = pos := hstart
    subst hstart
    have hle := hreads.start_le_stop
    simp only
    split
    · exact (hb.report _ ⟨inside, hreads⟩).advance hreads.isBoundary_stop hle
    next depth hdepth =>
      obtain ⟨hlt, hsame, -⟩ := List.findIdx?_eq_some_iff_getElem.1 hdepth
      have hsame : b'.opened[depth].tag.name.toLower = name.toLower := by simpa using hsame
      have hopened : (b'.abandon span.start depth).opened = b'.opened[depth] :: b'.opened.drop (depth + 1) := by
        rw [Builder.opened_abandon_eq_drop, List.drop_eq_getElem_cons hlt]
      unfold Builder.closeInnermost
      rw [hopened]
      exact (hb.abandon depth).close hopened hreads.isBoundary_stop hle
        (by simpa using ⟨name, hname, hsame.symm⟩) hline

/-- **The tree of a text** lines up in it. -/
theorem build_wellPlaced (source : List Char) :
    LinedUp 0 (byteLength source) ((build source).1.map Node.span) ∧
      (∀ node ∈ (build source).1, node.WellPlaced source) ∧
      ∀ fault ∈ (build source).2, LiesIn source fault.span := by
  have hfold : ∀ (ps : List Piece) (pos : Nat) (b : Builder), Tiles source pos ps →
      b.WellPlaced source pos → (ps.foldl Builder.addPiece b).WellPlaced source (byteLength source) := by
    intro ps
    induction ps with
    | nil =>
      rintro pos b rfl hb
      exact hb
    | cons p ps ih =>
      rintro pos b ⟨hp, hstart, hrest⟩ hb
      exact ih _ _ hrest (hb.addPiece hp hstart)
  have hempty : ({} : Builder).WellPlaced source 0 :=
    ⟨isBoundary_zero source, Nat.le_refl _, by simp, by simp, trivial, by simp⟩
  have hread := hfold _ 0 {} (pieces_tile 0 source [] rfl) hempty
  have hend := hread.abandon ((pieces 0 source).foldl Builder.addPiece {}).opened.length
  have hhere := hend.here
  rw [Builder.opened_abandon_eq_drop, List.drop_length] at hhere
  exact ⟨hhere, fun node hnode => hend.here_wellPlaced node (List.mem_reverse.1 hnode), hend.faults⟩

/-! ## 2. Lifting -/

theorem takeDirective?_sublist {name : String} {props rest : List TagProp} {d : Directive}
    (h : takeDirective? name props = some (d, rest)) : rest.Sublist props := by
  induction props generalizing rest d with
  | nil => simp [takeDirective?] at h
  | cons prop props ih =>
    have hnext : ∀ {d rest},
        (takeDirective? name props).map (fun taken => (taken.1, prop :: taken.2)) = some (d, rest) →
        rest.Sublist (prop :: props) := by
      intro d rest hmap
      obtain ⟨⟨d', rest'⟩, htake, heq⟩ := Option.map_eq_some_iff.1 hmap
      cases heq
      exact (ih htake).cons_cons prop
    unfold takeDirective? at h
    cases prop with
    | plain a => exact hnext h
    | directive d' =>
      dsimp only at h
      split at h
      · cases h
        exact List.sublist_cons_self _ _
      · exact hnext h

/-- A node that stands for the given place, and what was found wrong with it. -/
structure Lifted (source : List Char) (span : Span) (r : Node × List Fault) : Prop where
  node : r.1.WellPlaced source
  span : r.1.span = span
  faults : ∀ fault ∈ r.2, LiesIn source fault.span

/-- What stands inside a place, and what was found wrong with it. -/
structure LiftedInside (source : List Char) (span : Span) (r : List Node × List Fault) : Prop where
  line : LinedUp span.start span.stop (r.1.map Node.span)
  nodes : nodesWellPlaced source r.1
  faults : ∀ fault ∈ r.2, LiesIn source fault.span

section

variable {source : List Char} {tag tag' : Tag} {children : List Node}

/-- The children of an element line up inside it. -/
theorem Node.WellPlaced.line (h : (Node.element tag children).WellPlaced source) :
    LinedUp tag.span.start tag.span.stop (children.map Node.span) :=
  h.2.1.sublist ((List.sublist_append_left _ _).trans (List.sublist_append_right _ _))

/-- A node fills its own place. -/
theorem Node.WellPlaced.linedUp_self {node : Node} (h : node.WellPlaced source) :
    LinedUp node.span.start node.span.stop [node.span] := by
  obtain ⟨inside, hreads⟩ := h.liesIn
  exact .single (Nat.le_refl _) hreads.start_le_stop (Nat.le_refl _)

/-- An element stays well placed when a directive is taken from it. -/
theorem Node.WellPlaced.take? {name : String} {d : Directive}
    (h : (Node.element tag children).WellPlaced source) (htake : tag.take? name = some (d, tag')) :
    (TagProp.directive d).WellPlaced source ∧ (Node.element tag' children).WellPlaced source ∧
      tag'.span = tag.span := by
  obtain ⟨⟨d', rest⟩, hprops, heq⟩ := Option.map_eq_some_iff.1 htake
  cases heq
  obtain ⟨htag, hline, hchildren⟩ := h
  obtain ⟨hd, hrest⟩ := takeDirective?_mem hprops
  refine ⟨htag.props _ hd, ⟨⟨htag.span, htag.name, htag.endName, fun prop hprop => ?_⟩, ?_, hchildren⟩, rfl⟩
  · exact htag.props prop (hrest hprop)
  · have hfront := ((takeDirective?_sublist hprops).map TagProp.span).cons_cons tag.nameSpan
    exact hline.sublist (hfront.append (List.Sublist.refl _))

theorem Node.WellPlaced.takeElse? {condition : Option Expression}
    (h : (Node.element tag children).WellPlaced source) (htake : tag.takeElse? = some (condition, tag')) :
    (∀ e ∈ condition, e.StandsIn source) ∧ (Node.element tag' children).WellPlaced source ∧
      tag'.span = tag.span := by
  unfold Tag.takeElse? at htake
  split at htake
  next d tag'' htake' =>
    cases htake
    obtain ⟨hd, htag⟩ := h.take? htake'
    exact ⟨hd.2.2, htag⟩
  · obtain ⟨⟨d, tag''⟩, htake', heq⟩ := Option.map_eq_some_iff.1 htake
    cases heq
    exact ⟨by simp, (h.take? htake').2⟩

/-- **A loop** has the place of its element. -/
theorem liftLoop_lifted (h : (Node.element tag children).WellPlaced source) :
    Lifted source tag.span (liftLoop tag children) := by
  unfold liftLoop
  split
  · exact ⟨h, rfl, by simp⟩
  next d tag' htake =>
    obtain ⟨⟨hspan, -, hexp⟩, htag', hsame⟩ := h.take? htake
    split
    · refine ⟨htag', hsame, ?_⟩
      simp only [List.mem_singleton, forall_eq]
      cases hd : d.exp with
      | none => exact hspan
      | some e => exact ⟨_, hexp e hd⟩
    next parts hparts =>
      obtain ⟨e, he, hloop⟩ := Option.bind_eq_some_iff.1 hparts
      have hline : LinedUp tag'.span.start tag'.span.stop
          ((if tag'.isGroup then children else [.element tag' children]).map Node.span) := by
        split
        · exact htag'.line
        · exact htag'.linedUp_self
      have hchildren : nodesWellPlaced source (if tag'.isGroup then children else [.element tag' children]) := by
        split
        · exact htag'.2.2
        · exact ⟨htag', trivial⟩
      exact ⟨⟨htag'.liesIn, hline, Loop.ofExpression?_expressions (hexp e he) hloop, hchildren⟩, hsame, by simp⟩

/-- **What a branch holds** lines up inside its element. -/
theorem branchChildren_lifted (h : (Node.element tag children).WellPlaced source) :
    LiftedInside source tag.span (branchChildren tag children) := by
  unfold branchChildren
  split
  · exact ⟨h.line, h.2.2, by simp⟩
  · have hloop := liftLoop_lifted h
    have hline := hloop.node.linedUp_self
    rw [hloop.span] at hline
    exact ⟨by simpa [hloop.span] using hline, ⟨hloop.node, trivial⟩, hloop.faults⟩

end

/-- What holds of the siblings lifted so far. -/
structure Lifting.WellPlaced (source : List Char) (s : Lifting) : Prop where
  nodes : ∀ node ∈ s.nodes, node.WellPlaced source
  faults : ∀ fault ∈ s.faults, LiesIn source fault.span

namespace Lifting

variable {source : List Char} {s : Lifting} {tag : Tag} {children rest : List Node} {lo hi : Nat}

@[simp] theorem nodes_add (s : Lifting) (node : Node) (faults : List Fault) :
    (s.add node faults).nodes = s.nodes ++ [node] := by
  simp [add, nodes]

/-- The siblings lifted so far and the others, in order, line up. -/
def LinesUpWith (lo hi : Nat) (s : Lifting) (rest : List Node) : Prop :=
  LinedUp lo hi ((s.nodes ++ rest).map Node.span)

theorem WellPlaced.add (h : s.WellPlaced source) {span : Span} {r : Node × List Fault}
    (hr : Lifted source span r) : (s.add r.1 r.2).WellPlaced source := by
  refine ⟨?_, ?_⟩
  · simpa [or_imp, forall_and] using ⟨h.nodes, hr.node⟩
  · simpa [Lifting.add, or_imp, forall_and] using ⟨h.faults, hr.faults⟩

/-- A node takes the place of the sibling that it is made from. -/
theorem LinesUpWith.add {node : Node} (h : LinesUpWith lo hi s (node :: rest)) (node' : Node)
    (hspan : node'.span = node.span) (faults : List Fault) : LinesUpWith lo hi (s.add node' faults) rest := by
  simpa [LinesUpWith, hspan] using h

/-- An element that starts a chain or belongs to none. -/
theorem WellPlaced.addElement (h : s.WellPlaced source)
    (helement : (Node.element tag children).WellPlaced source) :
    (s.addElement tag children).WellPlaced source ∧ ∀ {lo hi rest},
      LinesUpWith lo hi s (.element tag children :: rest) → LinesUpWith lo hi (s.addElement tag children) rest := by
  unfold Lifting.addElement
  split
  next d tag' htake =>
    obtain ⟨⟨-, -, hexp⟩, htag', hsame⟩ := helement.take? htake
    have hinside := branchChildren_lifted htag'
    have hbranch : Lifted source tag'.span
        (.chain [.mk d.exp (branchChildren tag' children).1 tag'.span] tag'.span,
          (branchChildren tag' children).2) := by
      refine ⟨⟨htag'.liesIn, htag'.linedUp_self, ?_⟩, rfl, hinside.faults⟩
      exact ⟨⟨htag'.liesIn, hinside.line, hexp, hinside.nodes⟩, trivial⟩
    exact ⟨h.add hbranch, fun hline => hline.add (.chain _ _) hsame _⟩
  · have hloop := liftLoop_lifted helement
    exact ⟨h.add hloop, fun hline => hline.add _ hloop.span _⟩

/-- A chain with one more branch behind it spans all its branches. -/
theorem WellPlaced.extend (h : s.WellPlaced source) {before : List Node} {branches : List Branch} {span : Span}
    (hnodes : s.nodes = before.reverse ++ .chain branches span :: s.gap.reverse)
    (hchain : (Node.chain branches span).WellPlaced source)
    (helement : (Node.element tag children).WellPlaced source) (hbehind : span.stop ≤ tag.span.start)
    {condition : Option Expression} (hcondition : ∀ e ∈ condition, e.StandsIn source)
    {r : List Node × List Fault} (hinside : LiftedInside source tag.span r) :
    ({ done := .chain (branches ++ [.mk condition r.1 tag.span]) ⟨span.start, tag.span.stop⟩ :: before
       gap := []
       faults := s.faults ++ r.2 } : Lifting).WellPlaced source := by
  obtain ⟨⟨inside, hreads⟩, hbranches, hplaced⟩ := hchain
  obtain ⟨inside', hreads'⟩ := helement.liesIn
  have hle := hreads.start_le_stop
  have hle' : tag.span.start ≤ tag.span.stop := hreads'.start_le_stop
  have hlong : (Node.chain (branches ++ [.mk condition r.1 tag.span])
      ⟨span.start, tag.span.stop⟩).WellPlaced source := by
    refine ⟨.of_ends hreads.isBoundary_start hreads'.isBoundary_stop (by omega), ?_, ?_⟩
    · have hline := hbranches.append (.single hbehind hle' (Nat.le_refl _)) hle (by omega)
      simpa [Branch.span] using hline
    · exact branchesWellPlaced_append.2
        ⟨hplaced, ⟨helement.liesIn, hinside.line, hcondition, hinside.nodes⟩, trivial⟩
  refine ⟨?_, by simpa [or_imp, forall_and] using ⟨h.faults, hinside.faults⟩⟩
  intro node hnode
  rcases List.mem_append.1 (show node ∈ before.reverse ++ [_] by simpa [Lifting.nodes] using hnode)
    with hnode | hnode
  · exact h.nodes node (by rw [hnodes]; simp [List.mem_reverse.1 hnode])
  · rw [List.mem_singleton.1 hnode]
    exact hlong

/-- **The next sibling.**  A later branch makes one place of the chain, the gap and its element; anything else
keeps its own. -/
theorem WellPlaced.addSibling (h : s.WellPlaced source) {node : Node} (hnode : node.WellPlaced source)
    (hline : LinesUpWith lo hi s (node :: rest)) :
    (s.addSibling node).WellPlaced source ∧ LinesUpWith lo hi (s.addSibling node) rest := by
  unfold Lifting.addSibling
  split
  next tag children =>
    split
    · obtain ⟨hplaced, hkeeps⟩ := h.addElement hnode
      exact ⟨hplaced, hkeeps hline⟩
    next condition tag' htake =>
      obtain ⟨hcondition, htag', hsame⟩ := hnode.takeElse? htake
      split
      next branches span before hdone =>
        have hnodes : s.nodes = before.reverse ++ .chain branches span :: s.gap.reverse := by
          simp [Lifting.nodes, hdone]
        have hchain := h.nodes (.chain branches span) (by simp [hnodes])
        have hinside := branchChildren_lifted htag'
        have hwhole : LinedUp lo hi (before.reverse.map Node.span ++
            ((span :: (s.gap.reverse.map Node.span ++ [tag'.span])) ++ rest.map Node.span)) := by
          simpa [LinesUpWith, hnodes, Node.span, hsame] using hline
        have hmiddle := hwhole.sublist ((List.sublist_append_left _ _).trans (List.sublist_append_right _ _))
        refine ⟨h.extend hnodes hchain htag' ?_ hcondition hinside, ?_⟩
        · exact (List.pairwise_cons.1 hmiddle.order).1 _ (by simp)
        · simpa [LinesUpWith, Lifting.nodes, Node.span] using hwhole.replace fun _ _ => LinedUp.merge
      · obtain ⟨hplaced, hkeeps⟩ := h.addElement htag'
        refine ⟨hplaced, hkeeps ?_⟩
        simpa [LinesUpWith, Node.span, hsame] using hline
  next _ _ =>
    split
    · have hnodes : ({ s with gap := node :: s.gap } : Lifting).nodes = s.nodes ++ [node] := by
        simp [Lifting.nodes]
      refine ⟨⟨?_, h.faults⟩, by simpa [LinesUpWith, hnodes] using hline⟩
      rw [hnodes]
      simpa [or_imp, forall_and] using ⟨h.nodes, hnode⟩
    · have hself : Lifted source node.span (node, []) := ⟨hnode, rfl, by simp⟩
      exact ⟨h.add hself, hline.add _ rfl _⟩

end Lifting

mutual

/-- **A node with its children lifted** keeps its place. -/
theorem Node.liftInside_lifted (source : List Char) : ∀ node : Node, node.WellPlaced source →
    Lifted source node.span node.liftInside
  | .element tag children, h => by
    have hinside := h.line
    obtain ⟨htag, hline, hchildren⟩ := h
    have hlift : ∀ lo hi, LinedUp lo hi (children.map Node.span) →
        (liftFrom {} children).WellPlaced source ∧
          LinedUp lo hi ((liftFrom {} children).nodes.map Node.span) := by
      intro lo hi hspans
      have hlines : Lifting.LinesUpWith lo hi {} children := by
        simpa [Lifting.LinesUpWith, Lifting.nodes] using hspans
      have hs := liftFrom_wellPlaced source {} children ⟨by simp [Lifting.nodes], by simp⟩ hchildren hlines
      exact ⟨hs.1, by simpa [Lifting.LinesUpWith] using hs.2⟩
    obtain ⟨hnodes, hfaults⟩ := (hlift _ _ hinside).1
    exact ⟨⟨htag, hline.replace fun lo hi hold => (hlift lo hi hold).2, nodesWellPlaced_iff.2 hnodes⟩, rfl,
      hfaults⟩
  | .text _ _, h => ⟨h, rfl, by simp [Node.liftInside]⟩
  | .comment _ _, h => ⟨h, rfl, by simp [Node.liftInside]⟩
  | .interpolation _ _, h => ⟨h, rfl, by simp [Node.liftInside]⟩
  | .chain _ _, h => ⟨h, rfl, by simp [Node.liftInside]⟩
  | .loop _ _ _, h => ⟨h, rfl, by simp [Node.liftInside]⟩

/-- **Siblings** that line up still do when all of them are lifted. -/
theorem liftFrom_wellPlaced (source : List Char) : ∀ (s : Lifting) (nodes : List Node), s.WellPlaced source →
    nodesWellPlaced source nodes → ∀ {lo hi : Nat}, s.LinesUpWith lo hi nodes →
    (liftFrom s nodes).WellPlaced source ∧ (liftFrom s nodes).LinesUpWith lo hi []
  | s, [], hs, _, _, _, hline => ⟨hs, hline⟩
  | s, node :: rest, hs, h, lo, hi, hline => by
    obtain ⟨hnode, hspan, hfaults⟩ := Node.liftInside_lifted source node h.1
    have hs' : Lifting.WellPlaced source { s with faults := s.faults ++ node.liftInside.2 } :=
      ⟨hs.nodes, by simpa [or_imp, forall_and] using ⟨hs.faults, hfaults⟩⟩
    have hline' : Lifting.LinesUpWith lo hi { s with faults := s.faults ++ node.liftInside.2 }
        (node.liftInside.1 :: rest) := by
      simpa [Lifting.LinesUpWith, Lifting.nodes, hspan] using hline
    obtain ⟨hadd, hrest⟩ := hs'.addSibling hnode hline'
    exact liftFrom_wellPlaced source _ rest hadd h.2 hrest

end

/-! ## 3. Whole templates -/

/-- **The tree of a template is nested as its text is.**  For every text the nodes line up in it, and inside each
node its name, its properties and its children do.  Every node, branch, property and fault lies in the text.  The
names of tags and attributes, values, arguments, code, text and comments are what the text holds at their
places. -/
theorem parse_wellPlaced (source : String) :
    LinedUp 0 (byteLength source.toList) ((parse source).nodes.map Node.span) ∧
      nodesWellPlaced source.toList (parse source).nodes ∧
      ∀ fault ∈ (parse source).faults, LiesIn source.toList fault.span := by
  obtain ⟨hline, hnodes, hfaults⟩ := build_wellPlaced source.toList
  have hlines : Lifting.LinesUpWith 0 (byteLength source.toList) {} (build source.toList).1 := by
    simpa [Lifting.LinesUpWith, Lifting.nodes] using hline
  obtain ⟨hlifted, hend⟩ := liftFrom_wellPlaced source.toList {} (build source.toList).1
    ⟨by simp [Lifting.nodes], by simp⟩ (nodesWellPlaced_iff.2 hnodes) hlines
  have hspans : LinedUp 0 (byteLength source.toList)
      ((liftFrom {} (build source.toList).1).nodes.map Node.span) := by
    simpa [Lifting.LinesUpWith] using hend
  refine ⟨hspans, nodesWellPlaced_iff.2 hlifted.nodes, ?_⟩
  intro fault hfault
  rcases List.mem_append.1 (List.mem_mergeSort.1 hfault) with hfault | hfault
  · exact hfaults fault hfault
  · exact hlifted.faults fault hfault

end ComponentLens.Markup
