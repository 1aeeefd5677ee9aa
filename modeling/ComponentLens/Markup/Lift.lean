/-
# Lifting conditions and loops

Directives that decide whether and how often an element stands are lifted out of it: elements with `v-if`,
`v-else-if` and `v-else` become the branches of one chain, and an element with `v-for` becomes a loop
around it. A bare `template` element that carries them disappears.
-/
import ComponentLens.Fault
import ComponentLens.Markup.Loop
import ComponentLens.Text.Whitespace

namespace ComponentLens.Markup

/-! ## 1. Single elements -/

/-- The first directive of a name, and the properties without it. -/
def takeDirective? (name : String) : List TagProp → Option (Directive × List TagProp)
  | [] => none
  | prop :: props =>
    let next := (takeDirective? name props).map fun (d, props) => (d, prop :: props)
    match prop with
    | .directive d => if d.name == name then some (d, props) else next
    | .plain _ => next

/-- The first directive of a name, and the tag without it. -/
def Tag.take? (tag : Tag) (name : String) : Option (Directive × Tag) :=
  (takeDirective? name tag.props).map fun (d, props) => (d, { tag with props })

/-- Whether the element only groups its children: a `template` that is not the content of a slot. -/
def Tag.isGroup (tag : Tag) : Bool := tag.name == "template" && (tag.directive? "slot").isNone

/-- The element as a loop, if it has the directive for one. A loop that cannot be read is a fault, and the
element stays without it. -/
def liftLoop (tag : Tag) (children : List Node) : Node × List Fault :=
  match tag.take? "for" with
  | none => (.element tag children, [])
  | some (d, tag) =>
    match d.exp.bind Loop.ofExpression? with
    | none => (.element tag children, [⟨.invalidLoop, (d.exp.map (·.span)).getD d.span⟩])
    | some parts =>
      (.loop parts (if tag.isGroup then children else [.element tag children]) tag.span, [])

/-- What a branch holds, given the element without the directive of the branch. -/
def branchChildren (tag : Tag) (children : List Node) : List Node × List Fault :=
  if (tag.directive? "for").isNone && tag.isGroup then (children, [])
  else
    let (node, faults) := liftLoop tag children
    ([node], faults)

/-- What makes an element a later branch of a chain: its condition, absent for the last branch, and the tag
without the directive. -/
def Tag.takeElse? (tag : Tag) : Option (Option Expression × Tag) :=
  match tag.take? "else-if" with
  | some (d, tag) => some (d.exp, tag)
  | none => (tag.take? "else").map fun (_, tag) => (none, tag)

/-! ## 2. Siblings -/

/-- The siblings lifted so far. -/
structure Lifting where
  /-- The nodes, the last one first. -/
  done : List Node := []
  /-- Comments and blank text behind a chain, the last one first. They are dropped if the chain goes on. -/
  gap : List Node := []
  faults : List Fault := []

/-- Whether the node may stand between two branches of a chain. -/
def Node.isGap : Node → Bool
  | .text content _ => (trim content.toList).isEmpty
  | .comment _ _ => true
  | _ => false

namespace Lifting

/-- Whether a chain may go on here. -/
def endsInChain (s : Lifting) : Bool :=
  match s.done with
  | .chain _ _ :: _ => true
  | _ => false

/-- Adds a node behind the gap. -/
def add (s : Lifting) (node : Node) (faults : List Fault) : Lifting :=
  { done := node :: (s.gap ++ s.done), gap := [], faults := s.faults ++ faults }

/-- Adds an element that starts a chain or belongs to none. -/
def addElement (s : Lifting) (tag : Tag) (children : List Node) : Lifting :=
  match tag.take? "if" with
  | some (d, tag) =>
    let (inside, faults) := branchChildren tag children
    s.add (.chain [.mk d.exp inside tag.span] tag.span) faults
  | none =>
    let (node, faults) := liftLoop tag children
    s.add node faults

/-- Adds the next sibling, whose own children are lifted already. -/
def addSibling (s : Lifting) (node : Node) : Lifting :=
  match node with
  | .element tag children =>
    match tag.takeElse? with
    | none => s.addElement tag children
    | some (condition, tag) =>
      match s.done with
      | .chain branches span :: before =>
        let (inside, faults) := branchChildren tag children
        let branch := Branch.mk condition inside tag.span
        { done := .chain (branches ++ [branch]) ⟨span.start, tag.span.stop⟩ :: before
          gap := []
          faults := s.faults ++ faults }
      | _ => s.addElement tag children
  | node =>
    if node.isGap && s.endsInChain then { s with gap := node :: s.gap } else s.add node []

/-- The nodes, in order. -/
def nodes (s : Lifting) : List Node := (s.gap ++ s.done).reverse

end Lifting

/-! ## 3. Whole trees -/

mutual

/-- The node with its children lifted. -/
def Node.liftInside : Node → Node × List Fault
  | .element tag children =>
    let s := liftFrom {} children
    (.element tag s.nodes, s.faults)
  | node => (node, [])

/-- Lifts the siblings from the given node on. -/
def liftFrom (s : Lifting) : List Node → Lifting
  | [] => s
  | node :: rest =>
    let (node, faults) := node.liftInside
    liftFrom ({ s with faults := s.faults ++ faults }.addSibling node) rest

end

/-- The tree with all conditions and loops lifted, and the faults found. -/
def lift (nodes : List Node) : List Node × List Fault :=
  let s := liftFrom {} nodes
  (s.nodes, s.faults)

end ComponentLens.Markup
