/-
# Every expression is copied once

The body of the template document copies the expressions of the template, so that a checker sees them and a
request finds its way back.  `expressions_copied` says how often: an interpolation, a condition or a part of a
loop is copied exactly once, unless it is dropped.

What is dropped is a loop without a name for its turns, with all that stands inside it (`Node.dropped`).  The
walk writes such a loop as nothing, where it could leave out the one line that names the turn.
`not_copied_unnamed` shows a template that loses its only interpolation in this way.

The argument counts.  The statements of an element copy values of its directives only (section 2), and no such
value shares its place with an expression (`parse_spans_nodup`).  So the count of a place goes up with every
expression that the walk writes, and with nothing else (section 4).
-/
import ComponentLens.Proofs.Markup.Sites
import ComponentLens.Proofs.Virtual.TemplatePieces
import Mathlib.Data.List.Nodup

namespace ComponentLens.Virtual

open Markup

/-! ## 1. Copies -/

/-- Whether the mapping is that of a copied expression: place by place, and with all that an expression
serves. -/
def IsCopy (m : Mapping CodeData) : Prop := m.mode = .offset ∧ m.data.capabilities = .expression

instance (m : Mapping CodeData) : Decidable (IsCopy m) := inferInstanceAs (Decidable (_ ∧ _))

/-- The places that code copies expressions from. -/
def copies (code : Code) : List Span := (code.mappings.filter (IsCopy ·)).map (·.source)

@[simp] theorem copies_plain (text : String) : copies (.plain text) = [] := rfl

@[simp] theorem copies_raw (text : String) : copies (raw text) = [] := rfl

@[simp] theorem copies_expression (e : Expression) : copies (expression e) = [e.span] := by
  simp [copies, expression, MappedText.mapped, IsCopy, templateData]

@[simp] theorem copies_expression_setup (e : Expression) : copies (expression e .scriptSetup) = [e.span] :=
  copies_expression e

/-- A reference serves less than an expression. -/
theorem copies_reference (e : Expression) : copies (expression e .referencesOnly) = [] := by
  simp [copies, expression, MappedText.mapped, IsCopy, templateData]
  decide

@[simp] theorem copies_gate (code : String) (span : Span) (data : CodeData) :
    copies (.mapped code span .gate data) = [] := by
  simp [copies, MappedText.mapped, IsCopy]

theorem copies_ahead (code : String) (span : Span) (data : CodeData) :
    copies (.ahead code span .gate data) = [] := by
  simp [copies, MappedText.ahead, IsCopy]

theorem copies_covering (code : Code) (span : Span) (data : CodeData) :
    copies (code.covering span .gate data) = copies code := by
  simp [copies, MappedText.covering, MappedText.push, IsCopy]

/-- A name serves no semantic tokens, and an expression does. -/
theorem copies_bare {use : NameUse} (h : use.capabilities.has .semanticTokens = false) :
    copies use.bare = [] := by
  have hcapabilities : use.capabilities ≠ .expression := by
    intro heq
    rw [heq] at h
    exact absurd h (by decide)
  simp [copies, NameUse.bare, MappedText.mapped, IsCopy, NameUse.data, templateData, hcapabilities]

theorem copies_mappingsFrom (pos : Nat) (codes : List Code) :
    ((MappedText.mappingsFrom pos codes).filter (IsCopy ·)).map (·.source) = codes.flatMap copies := by
  induction codes generalizing pos with
  | nil => rfl
  | cons code codes ih =>
    have hshift : (code.mappings.map (·.shiftTarget pos)).filter (IsCopy ·) =
        (code.mappings.filter (IsCopy ·)).map (·.shiftTarget pos) := by
      rw [List.filter_map]
      rfl
    rw [MappedText.mappingsFrom, List.filter_append, List.map_append, ih, hshift, List.map_map]
    rfl

/-- Joined code copies what its pieces copy. -/
theorem copies_concat (codes : List Code) : copies (.concat codes) = codes.flatMap copies :=
  copies_mappingsFrom 0 codes

/-! ## 2. Elements -/

/-- The code copies from the places of the list only. -/
def CopiesIn (places : List Span) (code : Code) : Prop := copies code ⊆ places

theorem copiesIn_of_eq_nil {places : List Span} {code : Code} (h : copies code = []) :
    CopiesIn places code := by
  simp [CopiesIn, h]

/-- Code may be copied from the places of the list, and all else goes. -/
def copyGround (places : List Span) : Ground where
  copied e := e.span ∈ places
  referred _ := True
  named _ := True
  words _ _ _ _ _ := trivial

/-- The one kind of piece that counts is a copied expression. -/
theorem copiesIn_closed (places : List Span) : ElementClosed (copyGround places) (CopiesIn places) where
  plain text := copiesIn_of_eq_nil (copies_plain text)
  concat codes h := by
    intro s hs
    rw [copies_concat] at hs
    obtain ⟨code, hcode, hs⟩ := List.mem_flatMap.1 hs
    exact h code hcode hs
  copied e h := by
    rw [CopiesIn, copies_expression]
    exact List.cons_subset.2 ⟨h, List.nil_subset _⟩
  referred v _ := copiesIn_of_eq_nil (copies_reference _)
  bare use h _ := copiesIn_of_eq_nil (copies_bare h)
  gate code span data _ _ := copiesIn_of_eq_nil (copies_gate code span data)
  ahead code span data _ _ := copiesIn_of_eq_nil (copies_ahead code span data)
  covering code span data h _ _ := by
    rw [CopiesIn, copies_covering]
    exact h

/-- **An element copies the code of its own directives only.** -/
theorem copiesIn_elementStatements (tag : Tag) (scope : TemplateScope) (ancestors : List String)
    (next : Nat) : AllCode (CopiesIn ((values tag.parts).map (·.span)))
      (elementStatements scope ancestors next tag).pieces := by
  have hholds : AllParts (copyGround ((values tag.parts).map (·.span))).Holds tag.parts := by
    refine allParts_tag.2 ⟨trivial, fun _ _ => trivial, ?_⟩
    intro prop hprop
    cases prop with
    | plain a => exact ⟨trivial, trivial, fun _ _ => trivial⟩
    | directive d =>
      refine ⟨trivial, fun _ _ => trivial, ?_⟩
      intro e he
      refine List.mem_map_of_mem (List.mem_flatMap.2 ⟨.prop (.directive d), ?_, Option.mem_toList.2 he⟩)
      simp [Tag.parts, hprop]
  exact ((copiesIn_closed _).elementStatements hholds scope ancestors next).1

/-! ## 3. Dropped expressions -/

mutual

/-- The expressions of a node that are dropped: those of every loop without a name for its turns, and of all
that stands inside it. -/
def Node.dropped : Node → List Expression
  | .element _ children => nodesDropped children
  | .chain branches _ => branchesDropped branches
  | .loop parts children _ =>
    if parts.value.isSome then nodesDropped children
    else Markup.expressions (parts.expressions.map .code ++ nodeParts children)
  | _ => []

/-- The expressions of siblings that are dropped. -/
def nodesDropped : List Node → List Expression
  | [] => []
  | node :: rest => Node.dropped node ++ nodesDropped rest

/-- The expressions of branches that are dropped. -/
def branchesDropped : List Branch → List Expression
  | [] => []
  | .mk _ children _ :: rest => nodesDropped children ++ branchesDropped rest

end

mutual

/-- The loops of a node. -/
def Node.loops : Node → List Loop
  | .element _ children => nodesLoops children
  | .chain branches _ => branchesLoops branches
  | .loop parts children _ => parts :: nodesLoops children
  | _ => []

/-- The loops of siblings. -/
def nodesLoops : List Node → List Loop
  | [] => []
  | node :: rest => Node.loops node ++ nodesLoops rest

/-- The loops of branches. -/
def branchesLoops : List Branch → List Loop
  | [] => []
  | .mk _ children _ :: rest => nodesLoops children ++ branchesLoops rest

end

/-! ## 4. Counting -/

/-- How often code copies from a place. -/
def copyCount (codes : List Code) (s : Span) : Nat := (codes.flatMap copies).count s

/-- How many of the expressions stand at a place. -/
def placeCount (es : List Expression) (s : Span) : Nat := (es.map (·.span)).count s

section

variable (s : Span)

@[simp] theorem copyCount_nil : copyCount [] s = 0 := rfl

@[simp] theorem copyCount_cons (code : Code) (codes : List Code) :
    copyCount (code :: codes) s = (copies code).count s + copyCount codes s := by
  simp [copyCount]

@[simp] theorem copyCount_append (codes more : List Code) :
    copyCount (codes ++ more) s = copyCount codes s + copyCount more s := by
  simp [copyCount]

@[simp] theorem placeCount_nil : placeCount [] s = 0 := rfl

@[simp] theorem placeCount_cons (e : Expression) (es : List Expression) :
    placeCount (e :: es) s = [e.span].count s + placeCount es s := by
  simp [placeCount, List.count_cons, Nat.add_comm]

@[simp] theorem placeCount_append (es more : List Expression) :
    placeCount (es ++ more) s = placeCount es s + placeCount more s := by
  simp [placeCount]

variable {s}

theorem copyCount_eq_zero {places : List Span} {codes : List Code} (h : AllCode (CopiesIn places) codes)
    (hs : s ∉ places) : copyCount codes s = 0 := by
  refine List.count_eq_zero.2 ?_
  intro hmem
  obtain ⟨code, hcode, hmem⟩ := List.mem_flatMap.1 hmem
  exact hs (h code hcode hmem)

end

/-- A loop with a name for its turns copies each of its parts. -/
theorem copyCount_loopHead {parts : Loop} {value : Expression} (variable_ : String)
    (hvalue : parts.value = some value) (s : Span) :
    copyCount (loopHead parts value variable_) s = placeCount parts.expressions s := by
  unfold loopHead
  cases hkey : parts.key <;> cases hindex : parts.index <;>
    simp [Loop.expressions, hvalue, hkey, hindex]

/-- The statements of an element copy from no place beside the code of its directives. -/
theorem copyCount_elementStatements {tag : Tag} {s : Span} (h : s ∉ (values tag.parts).map (·.span))
    (scope : TemplateScope) (ancestors : List String) (next : Nat) :
    copyCount (elementStatements scope ancestors next tag).pieces s = 0 :=
  copyCount_eq_zero (copiesIn_elementStatements tag scope ancestors next) h

section

variable {s : Span} (scope : TemplateScope)

mutual

/-- What the walk writes of a node, and what it drops, make up the expressions of the node. -/
theorem copyCount_walkNode : ∀ (ancestors : List String) (next : Nat) (node : Node),
    s ∉ (values node.parts).map (·.span) →
    copyCount (walkNode scope ancestors next node).pieces s + placeCount (Node.dropped node) s =
      placeCount (expressions node.parts) s
  | ancestors, next, .element tag children, h => by
    simp only [Node.parts, values_append, List.map_append, List.mem_append, not_or] at h
    have hown := copyCount_elementStatements h.1 scope (tag.name :: ancestors) next
    have hinside := copyCount_walkNodes (tag.name :: ancestors)
      (elementStatements scope (tag.name :: ancestors) next tag).next children h.2
    simp [walkNode, Node.dropped, Node.parts, hown, hinside]
  | ancestors, next, .interpolation e _, _ => by
    simp [walkNode, Node.dropped, Node.parts, expressions, Part.expressions]
  | ancestors, next, .chain branches _, h => copyCount_walkBranches ancestors next true branches h
  | ancestors, next, .loop parts children _, h => by
    simp only [Node.parts, values_append, List.map_append, List.mem_append, not_or] at h
    have hinside := copyCount_walkNodes ancestors (next + 1) children h.2
    rw [walkNode]
    cases hvalue : parts.value with
    | none => simp [Node.dropped, Node.parts, hvalue]
    | some value =>
      simp [Node.dropped, Node.parts, hvalue, copyCount_loopHead _ hvalue]
      omega
  | _, _, .text _ _, _ => rfl
  | _, _, .comment _ _, _ => rfl

theorem copyCount_walkNodes : ∀ (ancestors : List String) (next : Nat) (nodes : List Node),
    s ∉ (values (nodeParts nodes)).map (·.span) →
    copyCount (walkNodes scope ancestors next nodes).pieces s + placeCount (nodesDropped nodes) s =
      placeCount (expressions (nodeParts nodes)) s
  | _, _, [], _ => rfl
  | ancestors, next, node :: rest, h => by
    simp only [nodeParts, values_append, List.map_append, List.mem_append, not_or] at h
    have hhead := copyCount_walkNode ancestors next node h.1
    have htail := copyCount_walkNodes ancestors (walkNode scope ancestors next node).next rest h.2
    simp only [walkNodes, nodesDropped, nodeParts, expressions_append, copyCount_append, placeCount_append]
    omega

theorem copyCount_walkBranches : ∀ (ancestors : List String) (next : Nat) (first : Bool)
    (branches : List Branch), s ∉ (values (branchParts branches)).map (·.span) →
    copyCount (walkBranches scope ancestors next first branches).pieces s +
      placeCount (branchesDropped branches) s = placeCount (expressions (branchParts branches)) s
  | _, _, _, [], _ => rfl
  | ancestors, next, first, .mk condition children _ :: rest, h => by
    simp only [branchParts, values_append, List.map_append, List.mem_append, not_or] at h
    have hinside := copyCount_walkNodes ancestors next children h.1.2
    have htail := copyCount_walkBranches ancestors (walkNodes scope ancestors next children).next
      (first && condition.isNone) rest h.2
    cases condition with
    | none =>
      simp [walkBranches, branchesDropped, branchParts] at htail ⊢
      omega
    | some e =>
      have hopening : copies (if first then "if (\n(" else "else if (\n(") = [] := by split <;> rfl
      simp [walkBranches, branchesDropped, branchParts, hopening] at htail ⊢
      omega

end

/-- The top-level nodes are walked like siblings. -/
theorem copyCount_walkRoots (next : Nat) {nodes : List Node}
    (h : s ∉ (values (nodeParts nodes)).map (·.span)) :
    copyCount (walkRoots scope next nodes).pieces s + placeCount (nodesDropped nodes) s =
      placeCount (expressions (nodeParts nodes)) s := by
  induction nodes generalizing next with
  | nil => rfl
  | cons node rest ih =>
    simp only [nodeParts, values_append, List.map_append, List.mem_append, not_or] at h
    have hhead := copyCount_walkNode scope [] next node h.1
    have htail := ih (walkNode scope [] next node).next h.2
    simp [walkRoots, nodesDropped, nodeParts]
    omega

/-- The names of slots are no expressions. -/
theorem copyCount_slotExports (slots : List SlotExport) : copyCount (slotExports slots) s = 0 :=
  copyCount_eq_zero ((copiesIn_closed []).slotExports fun _ _ => trivial) List.not_mem_nil

/-- The body copies an expression once for every time that it stands in the tree and is not dropped. -/
theorem count_copies_templateBody {nodes : List Node} (h : s ∉ (values (nodeParts nodes)).map (·.span)) :
    (copies (templateBody scope nodes)).count s + placeCount (nodesDropped nodes) s =
      placeCount (expressions (nodeParts nodes)) s := by
  have hwalk := copyCount_walkRoots scope 0 h
  have hslots := copyCount_slotExports (s := s) (walkRoots scope 0 nodes).slots
  rw [templateBody, copies_concat]
  change copyCount _ s + _ = _
  rw [copyCount_append]
  omega

end

/-! ## 5. What is dropped -/

mutual

/-- What is dropped of a node are expressions of the node. -/
theorem dropped_subset : ∀ node : Node, Node.dropped node ⊆ expressions node.parts
  | .element _ children => by
    simpa [Node.dropped, Node.parts] using nodesDropped_subset children
  | .chain branches _ => branchesDropped_subset branches
  | .loop parts children _ => by
    rw [Node.dropped]
    split
    · simpa [Node.parts] using List.subset_append_of_subset_right _ (nodesDropped_subset children)
    · exact List.Subset.refl _
  | .interpolation _ _ => List.nil_subset _
  | .text _ _ => List.nil_subset _
  | .comment _ _ => List.nil_subset _

theorem nodesDropped_subset : ∀ nodes : List Node, nodesDropped nodes ⊆ expressions (nodeParts nodes)
  | [] => List.nil_subset _
  | node :: rest => by
    rw [nodesDropped, nodeParts, expressions_append]
    exact List.append_subset.2 ⟨List.subset_append_of_subset_left _ (dropped_subset node),
      List.subset_append_of_subset_right _ (nodesDropped_subset rest)⟩

theorem branchesDropped_subset : ∀ branches : List Branch,
    branchesDropped branches ⊆ expressions (branchParts branches)
  | [] => List.nil_subset _
  | .mk condition children _ :: rest => by
    rw [branchesDropped, branchParts, expressions_append, expressions_append]
    refine List.append_subset.2 ⟨?_, List.subset_append_of_subset_right _ (branchesDropped_subset rest)⟩
    exact List.subset_append_of_subset_left _
      (List.subset_append_of_subset_right _ (nodesDropped_subset children))

end

mutual

/-- Nothing of a node is dropped as long as each of its loops has a name for its turns. -/
theorem dropped_eq_nil_iff : ∀ node : Node,
    Node.dropped node = [] ↔ ∀ parts ∈ Node.loops node, parts.value.isSome
  | .element _ children => by simpa [Node.dropped, Node.loops] using nodesDropped_eq_nil_iff children
  | .chain branches _ => by simpa [Node.dropped, Node.loops] using branchesDropped_eq_nil_iff branches
  | .loop parts children _ => by
    have hinside := nodesDropped_eq_nil_iff children
    cases hvalue : parts.value with
    | none => simp [Node.dropped, Node.loops, hvalue, Loop.expressions]
    | some value => simpa [Node.dropped, Node.loops, hvalue] using hinside
  | .interpolation _ _ => by simp [Node.dropped, Node.loops]
  | .text _ _ => by simp [Node.dropped, Node.loops]
  | .comment _ _ => by simp [Node.dropped, Node.loops]

theorem nodesDropped_eq_nil_iff : ∀ nodes : List Node,
    nodesDropped nodes = [] ↔ ∀ parts ∈ nodesLoops nodes, parts.value.isSome
  | [] => by simp [nodesDropped, nodesLoops]
  | node :: rest => by
    have hhead := dropped_eq_nil_iff node
    have htail := nodesDropped_eq_nil_iff rest
    simp only [nodesDropped, nodesLoops, List.append_eq_nil_iff, List.mem_append, or_imp, forall_and]
    exact and_congr hhead htail

theorem branchesDropped_eq_nil_iff : ∀ branches : List Branch,
    branchesDropped branches = [] ↔ ∀ parts ∈ branchesLoops branches, parts.value.isSome
  | [] => by simp [branchesDropped, branchesLoops]
  | .mk _ children _ :: rest => by
    have hinside := nodesDropped_eq_nil_iff children
    have htail := branchesDropped_eq_nil_iff rest
    simp only [branchesDropped, branchesLoops, List.append_eq_nil_iff, List.mem_append, or_imp, forall_and]
    exact and_congr hinside htail

end

/-! ## 6. The whole template -/

/-- Among expressions at places of their own, an expression stands once at its place. -/
theorem placeCount_eq_one {es : List Expression} (h : (es.map (·.span)).Nodup) {e : Expression}
    (he : e ∈ es) : placeCount es e.span = 1 :=
  List.count_eq_one_of_mem h (List.mem_map_of_mem he)

/-- Of expressions at places of their own, the place of one tells whether it is picked. -/
theorem placeCount_pos_iff {es picked : List Expression} (h : (es.map (·.span)).Nodup) (hsub : picked ⊆ es)
    {e : Expression} (he : e ∈ es) : 0 < placeCount picked e.span ↔ e ∈ picked := by
  rw [placeCount, List.count_pos_iff]
  constructor
  · intro hmem
    obtain ⟨e', he', hspan⟩ := List.mem_map.1 hmem
    exact List.inj_on_of_nodup_map h (hsub he') he hspan ▸ he'
  · exact List.mem_map_of_mem

/-- **Every expression of a template is copied exactly once, unless it is dropped**, and nothing is dropped
exactly if every loop has a name for its turns. -/
theorem expressions_copied (source : String) (scope : TemplateScope) :
    (∀ e ∈ expressions (nodeParts (parse source).nodes),
      (copies (templateBody scope (parse source).nodes)).count e.span =
        if e ∈ nodesDropped (parse source).nodes then 0 else 1) ∧
    ((∀ e ∈ expressions (nodeParts (parse source).nodes),
      (copies (templateBody scope (parse source).nodes)).count e.span = 1) ↔
      ∀ parts ∈ nodesLoops (parse source).nodes, parts.value.isSome) := by
  have hnodup := parse_spans_nodup source
  generalize (parse source).nodes = nodes at hnodup
  rw [List.map_append, List.nodup_append] at hnodup
  obtain ⟨hnodup, -, happart⟩ := hnodup
  have hsub := nodesDropped_subset nodes
  have hcount : ∀ e ∈ expressions (nodeParts nodes), (copies (templateBody scope nodes)).count e.span =
      if e ∈ nodesDropped nodes then 0 else 1 := by
    intro e he
    have hvalue : e.span ∉ (values (nodeParts nodes)).map (·.span) := fun hvalue =>
      happart _ (List.mem_map_of_mem he) _ hvalue rfl
    have hall := count_copies_templateBody scope hvalue
    have hone := placeCount_eq_one hnodup he
    have hpos := placeCount_pos_iff hnodup hsub he
    split
    next hdropped =>
      have := hpos.2 hdropped
      omega
    next hdropped =>
      have := mt hpos.1 hdropped
      omega
  refine ⟨hcount, ?_⟩
  rw [← nodesDropped_eq_nil_iff, List.eq_nil_iff_forall_not_mem]
  constructor
  · intro h e hdropped
    have := (hcount e (hsub hdropped)).symm.trans (h e (hsub hdropped))
    simp [hdropped] at this
  · intro h e he
    simp [hcount e he, h e]

/-- A loop without a name for its turns is dropped with the interpolation inside it. -/
theorem not_copied_unnamed : ¬ ∀ (source : String) (scope : TemplateScope),
    ∀ e ∈ expressions (nodeParts (parse source).nodes),
      (copies (templateBody scope (parse source).nodes)).count e.span = 1 := by
  intro h
  have hcopied := h "<li v-for=\"(, i) in xs\">\x7b\x7b i \x7d\x7d</li>" ⟨[], [], false⟩ ⟨" i ", ⟨26, 29⟩⟩
    (by decide +kernel)
  revert hcopied
  decide +kernel

end ComponentLens.Virtual
