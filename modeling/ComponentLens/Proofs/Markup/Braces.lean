/-
# Texts with braces stay in the tree

Building and lifting move nodes about, and lifting drops what stands between two branches of a chain.  It
drops blank text and comments only, so a text with an opening brace, once read, is somewhere in the tree
(`hasBraces_parse`).  That is how a tree shows that an interpolation was read as text.
-/
import ComponentLens.Markup.Parse
import Mathlib.Data.List.TakeWhile

namespace ComponentLens.Markup

/-! ## 1. Texts with braces -/

mutual

/-- A text in the node holds an opening brace. -/
def Node.HasBrace : Node → Prop
  | .element _ children => HasBraces children
  | .text content _ => '\x7b' ∈ content.toList
  | .comment _ _ => False
  | .interpolation _ _ => False
  | .chain branches _ => BranchesHaveBrace branches
  | .loop _ children _ => HasBraces children

/-- A text in one of the nodes holds an opening brace. -/
def HasBraces : List Node → Prop
  | [] => False
  | node :: nodes => node.HasBrace ∨ HasBraces nodes

/-- A text in one of the branches holds an opening brace. -/
def BranchesHaveBrace : List Branch → Prop
  | [] => False
  | .mk _ children _ :: branches => HasBraces children ∨ BranchesHaveBrace branches

end

@[simp] theorem not_hasBraces_nil : ¬ HasBraces [] := by simp [HasBraces]

@[simp] theorem hasBraces_cons (node : Node) (nodes : List Node) :
    HasBraces (node :: nodes) ↔ node.HasBrace ∨ HasBraces nodes := by rw [HasBraces]

@[simp] theorem hasBraces_append (xs ys : List Node) :
    HasBraces (xs ++ ys) ↔ HasBraces xs ∨ HasBraces ys := by
  induction xs with
  | nil => simp
  | cons x xs ih => simp [ih, or_assoc]

@[simp] theorem hasBraces_reverse (nodes : List Node) : HasBraces nodes.reverse ↔ HasBraces nodes := by
  induction nodes with
  | nil => simp
  | cons node nodes ih => simp [ih, or_comm]

@[simp] theorem branchesHaveBrace_append (xs ys : List Branch) :
    BranchesHaveBrace (xs ++ ys) ↔ BranchesHaveBrace xs ∨ BranchesHaveBrace ys := by
  induction xs with
  | nil => simp [BranchesHaveBrace]
  | cons x xs ih =>
    obtain ⟨condition, children, span⟩ := x
    simp [BranchesHaveBrace, ih, or_assoc]

/-! ## 2. Building -/

namespace Builder

/-- A text read so far holds an opening brace. -/
def HasBraces (b : Builder) : Prop :=
  Markup.HasBraces b.here ∨ ∃ element ∈ b.opened, Markup.HasBraces element.siblings

theorem HasBraces.report {b : Builder} (h : b.HasBraces) (fault : Fault) : (b.report fault).HasBraces := h

theorem HasBraces.add {b : Builder} (h : b.HasBraces) (node : Node) : (b.add node).HasBraces :=
  h.imp_left fun here => (hasBraces_cons node b.here).2 (.inr here)

/-- Closing an element keeps its children and the nodes before it. -/
theorem HasBraces.closeElement {b : Builder} {element : OpenElement} {outer : List OpenElement}
    (h : b.HasBraces) (hopened : b.opened = element :: outer) (endName : Option Span) (stop : Nat) :
    { b with here := b.closeElement element endName stop, opened := outer : Builder }.HasBraces := by
  rcases h with here | ⟨e, he, hsiblings⟩
  · exact .inl ((hasBraces_cons _ _).2 (.inl (by simpa [Node.HasBrace] using here)))
  · rw [hopened, List.mem_cons] at he
    rcases he with rfl | he
    · exact .inl ((hasBraces_cons _ _).2 (.inr hsiblings))
    · exact .inr ⟨e, he, hsiblings⟩

theorem HasBraces.closeInnermost {b : Builder} (h : b.HasBraces) (endName : Span) (stop : Nat) :
    (b.closeInnermost endName stop).HasBraces := by
  unfold Builder.closeInnermost
  split
  · exact h
  next element outer hopened => exact h.closeElement hopened (some endName) stop

theorem HasBraces.abandon {b : Builder} (h : b.HasBraces) (stop count : Nat) :
    (b.abandon stop count).HasBraces := by
  induction count generalizing b with
  | zero => exact h
  | succ count ih =>
    rw [Builder.abandon]
    split
    · exact h
    next element outer hopened => exact ih ((h.report _).closeElement hopened none stop)

/-- All open elements are ended. -/
theorem opened_abandon (b : Builder) (stop : Nat) : (b.abandon stop b.opened.length).opened = [] := by
  generalize hcount : b.opened.length = count
  induction count generalizing b with
  | zero => exact List.length_eq_zero_iff.1 hcount
  | succ count ih =>
    rw [Builder.abandon]
    split
    next hnil => exact hnil
    next element outer hopened =>
      refine ih _ ?_
      rw [hopened, List.length_cons] at hcount
      exact Nat.succ.inj hcount

theorem HasBraces.fault {b : Builder} (h : b.HasBraces) (piece : Piece) :
    ((piece.fault?.map b.report).getD b).HasBraces := by
  cases piece.fault? with
  | none => exact h
  | some fault => exact h.report fault

/-- No piece takes a text away. -/
theorem HasBraces.addPiece {b : Builder} (h : b.HasBraces) (piece : Piece) : (b.addPiece piece).HasBraces := by
  have hb := h.fault piece
  unfold Builder.addPiece
  generalize (piece.fault?.map b.report).getD b = b' at hb
  cases piece with
  | comment content span isClosed => exact hb.add _
  | text content span => exact hb.add _
  | interpolation content span => exact hb.add _
  | unclosedInterpolation content span => exact hb.add _
  | openTag tag =>
    dsimp only
    split
    · exact hb.add _
    · rcases hb with here | ⟨e, he, hsiblings⟩
      · exact .inr ⟨_, List.mem_cons_self, here⟩
      · exact .inr ⟨e, List.mem_cons_of_mem _ he, hsiblings⟩
  | closeTag name nameSpan span =>
    dsimp only
    split
    · exact hb.report _
    · exact (hb.abandon _ _).closeInnermost _ _

/-- A text with a brace is added. -/
theorem hasBraces_addPiece {content : String} (h : '\x7b' ∈ content.toList) (b : Builder) (span : Span) :
    (b.addPiece (.text content span)).HasBraces :=
  .inl ((hasBraces_cons _ _).2 (.inl (by simpa [Node.HasBrace] using h)))

theorem HasBraces.foldl {b : Builder} (h : b.HasBraces) (pieces : List Piece) :
    (pieces.foldl Builder.addPiece b).HasBraces := by
  induction pieces generalizing b with
  | nil => exact h
  | cons piece pieces ih => exact ih (h.addPiece piece)

theorem hasBraces_foldl {content : String} {span : Span} (h : '\x7b' ∈ content.toList) {pieces : List Piece}
    (hmem : .text content span ∈ pieces) (b : Builder) : (pieces.foldl addPiece b).HasBraces := by
  induction pieces generalizing b with
  | nil => simp at hmem
  | cons piece pieces ih =>
    rcases List.mem_cons.1 hmem with rfl | hmem
    · exact (hasBraces_addPiece h b span).foldl pieces
    · exact ih hmem _

end Builder

/-- **A text with a brace is in the tree that is built.** -/
theorem hasBraces_build {content : String} {span : Span} (h : '\x7b' ∈ content.toList) {source : List Char}
    (hmem : .text content span ∈ pieces 0 source) : HasBraces (build source).1 := by
  have hfold := Builder.hasBraces_foldl h hmem {}
  generalize hb : (pieces 0 source).foldl Builder.addPiece {} = b at hfold
  have hend := hfold.abandon (byteLength source) b.opened.length
  rw [Builder.HasBraces, b.opened_abandon] at hend
  have hhere : HasBraces (b.abandon (byteLength source) b.opened.length).here :=
    hend.resolve_right (by simp)
  simpa [build, hb] using hhere

/-! ## 3. Lifting -/

theorem isBlank_of_trim_eq_nil {cs : List Char} (h : trim cs = []) : ∀ c ∈ cs, isBlank c = true := by
  have hend : ∀ xs : List Char, trimEnd xs = [] → ∀ c ∈ xs, isBlank c = true := by
    intro xs hxs c hc
    rw [trimEnd, List.reverse_eq_nil_iff, List.dropWhile_eq_nil_iff] at hxs
    exact hxs c (List.mem_reverse.2 hc)
  intro c hc
  rw [← List.takeWhile_append_dropWhile (p := isBlank) (l := cs)] at hc
  rcases List.mem_append.1 hc with hc | hc
  · exact List.all_eq_true.1 List.all_takeWhile c hc
  · exact hend _ h c hc

/-- What may be dropped between two branches holds no brace. -/
theorem Node.not_hasBrace_of_isGap {node : Node} (h : node.isGap = true) : ¬ node.HasBrace := by
  cases node with
  | text content span =>
    rw [Node.HasBrace]
    intro hbrace
    have hblank := isBlank_of_trim_eq_nil (List.isEmpty_iff.1 h) _ hbrace
    exact absurd hblank (by decide)
  | comment content span => simp [Node.HasBrace]
  | element => simp [Node.isGap] at h
  | interpolation => simp [Node.isGap] at h
  | chain => simp [Node.isGap] at h
  | loop => simp [Node.isGap] at h

theorem liftLoop_hasBrace {tag : Tag} {children : List Node} (h : HasBraces children) :
    (liftLoop tag children).1.HasBrace := by
  unfold liftLoop
  split
  · rwa [Node.HasBrace]
  · split
    · rwa [Node.HasBrace]
    · rw [Node.HasBrace]
      split
      · exact h
      · exact (hasBraces_cons _ _).2 (.inl (by rwa [Node.HasBrace]))

theorem branchChildren_hasBraces {tag : Tag} {children : List Node} (h : HasBraces children) :
    HasBraces (branchChildren tag children).1 := by
  unfold branchChildren
  split
  · exact h
  · exact (hasBraces_cons _ _).2 (.inl (liftLoop_hasBrace h))

namespace Lifting

/-- A text lifted so far holds an opening brace. -/
def HasBraces (s : Lifting) : Prop := Markup.HasBraces s.done

theorem HasBraces.nodes {s : Lifting} (h : s.HasBraces) : Markup.HasBraces s.nodes := by
  rw [Lifting.nodes, hasBraces_reverse, hasBraces_append]
  exact .inr h

/-- The gap holds nothing but blank text and comments. -/
def GapIsBlank (s : Lifting) : Prop := ∀ node ∈ s.gap, node.isGap = true

theorem gapIsBlank_add (s : Lifting) (node : Node) (faults : List Fault) : (s.add node faults).GapIsBlank := by
  simp [add, GapIsBlank]

theorem hasBraces_add {s : Lifting} {node : Node} (h : s.HasBraces ∨ node.HasBrace) (faults : List Fault) :
    (s.add node faults).HasBraces := by
  rw [HasBraces, add, hasBraces_cons, hasBraces_append]
  rcases h with h | h
  · exact .inr (.inr h)
  · exact .inl h

/-- An element with its children is added whatever its directives are. -/
theorem addElement_spec (s : Lifting) (tag : Tag) (children : List Node) :
    (s.addElement tag children).GapIsBlank ∧
      (s.HasBraces ∨ Markup.HasBraces children → (s.addElement tag children).HasBraces) := by
  unfold addElement
  split
  next d tag' _ =>
    refine ⟨gapIsBlank_add _ _ _, fun h => hasBraces_add (h.imp_right fun h => ?_) _⟩
    rw [Node.HasBrace, BranchesHaveBrace]
    exact .inl (branchChildren_hasBraces h)
  next => exact ⟨gapIsBlank_add _ _ _, fun h => hasBraces_add (h.imp_right liftLoop_hasBrace) _⟩

/-- A sibling is added, and what is dropped for it is blank. -/
theorem addSibling_spec {s : Lifting} (hgap : s.GapIsBlank) (node : Node) :
    (s.addSibling node).GapIsBlank ∧ (s.HasBraces ∨ node.HasBrace → (s.addSibling node).HasBraces) := by
  have hother : ∀ {node : Node},
      (if node.isGap && s.endsInChain then { s with gap := node :: s.gap } else s.add node []).GapIsBlank ∧
        (s.HasBraces ∨ node.HasBrace →
          (if node.isGap && s.endsInChain then { s with gap := node :: s.gap }
            else s.add node []).HasBraces) := by
    intro node
    split
    next h =>
      rw [Bool.and_eq_true] at h
      refine ⟨List.forall_mem_cons.2 ⟨h.1, hgap⟩, fun hbrace => ?_⟩
      exact hbrace.resolve_right (Node.not_hasBrace_of_isGap h.1)
    next => exact ⟨gapIsBlank_add _ _ _, fun hbrace => hasBraces_add hbrace _⟩
  cases node with
  | element tag children =>
    rw [Node.HasBrace]
    unfold addSibling
    dsimp only
    split
    · exact addElement_spec s tag children
    next condition tag' _ =>
      split
      next branches span before hdone =>
        refine ⟨by simp [GapIsBlank], fun h => ?_⟩
        rw [HasBraces, hdone, hasBraces_cons, Node.HasBrace] at h
        rw [HasBraces, hasBraces_cons, Node.HasBrace, branchesHaveBrace_append]
        rcases h with (h | h) | h
        · exact .inl (.inl h)
        · exact .inr h
        · exact .inl (.inr (by simpa [BranchesHaveBrace] using branchChildren_hasBraces h))
      next => exact addElement_spec s tag' children
  | text content span => exact hother
  | comment content span => exact hother
  | interpolation content span => exact hother
  | chain branches span => exact hother
  | loop parts children span => exact hother

end Lifting

mutual

theorem Node.liftInside_hasBrace : ∀ node : Node, node.HasBrace → node.liftInside.1.HasBrace
  | .element tag children, h => by
    rw [Node.HasBrace] at h
    rw [Node.liftInside, Node.HasBrace]
    have hs := liftFrom_hasBraces {} children (by simp [Lifting.GapIsBlank]) (.inr h)
    exact hs.nodes
  | .text content span, h => by simpa [Node.liftInside] using h
  | .comment content span, h => by simpa [Node.liftInside] using h
  | .interpolation content span, h => by simpa [Node.liftInside] using h
  | .chain branches span, h => by simpa [Node.liftInside] using h
  | .loop parts children span, h => by simpa [Node.liftInside] using h

/-- **Lifting keeps every text with a brace.** -/
theorem liftFrom_hasBraces : ∀ (s : Lifting) (nodes : List Node), s.GapIsBlank →
    s.HasBraces ∨ HasBraces nodes → (liftFrom s nodes).HasBraces
  | s, [], hgap, h => by
    rw [liftFrom]
    exact h.resolve_right not_hasBraces_nil
  | s, node :: rest, hgap, h => by
    rw [liftFrom]
    have hstep := Lifting.addSibling_spec
      (s := { s with faults := s.faults ++ node.liftInside.2 }) hgap node.liftInside.1
    refine liftFrom_hasBraces _ rest hstep.1 ?_
    rw [hasBraces_cons] at h
    rcases h with h | h | h
    · exact .inl (hstep.2 (.inl h))
    · exact .inl (hstep.2 (.inr (Node.liftInside_hasBrace node h)))
    · exact .inr h

end

/-- **A text with a brace stays in the tree.** -/
theorem hasBraces_parse {content : String} {span : Span} (h : '\x7b' ∈ content.toList) {source : String}
    (hmem : .text content span ∈ pieces 0 source.toList) : HasBraces (parse source).nodes := by
  have hbuild := hasBraces_build h hmem
  have hlift := liftFrom_hasBraces {} (build source.toList).1 (by simp [Lifting.GapIsBlank]) (.inr hbuild)
  exact hlift.nodes

end ComponentLens.Markup
