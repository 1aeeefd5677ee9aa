/-
# Links between two spellings of one symbol

A generated document may spell one symbol twice: the key of the object that a setup function returns
and the variable it holds, or a variable and its `$` handle. A `LinkMap` relates such spellings within
the document, so that a request can go on from one to the other.
-/
import ComponentLens.Mapping.Payload
import ComponentLens.Mapping.SpanMap

namespace ComponentLens

/-! ## 1. Who may follow a link -/

/-- Which requests may follow a link, by the region that they started in. -/
inductive LinkDirection where
  /-- Each end leads to the other. -/
  | sibling
  /-- Forward for requests that started in code, backward for those that started in markup. -/
  | scriptToTemplate
  deriving DecidableEq, Repr

/-- The kinds of request that follow a link, one bit each. -/
structure LinkCapabilities where
  bits : BitVec 3
  deriving DecidableEq, Repr

namespace LinkCapabilities

def references : LinkCapabilities := ⟨1⟩
def definitions : LinkCapabilities := ⟨2⟩
def rename : LinkCapabilities := ⟨4⟩

/-- Every kind of request. -/
def all : LinkCapabilities := ⟨7⟩

instance : OrOp LinkCapabilities := ⟨fun a b => ⟨a.bits ||| b.bits⟩⟩

/-- Whether every kind of `wanted` is in the set. -/
def has (a wanted : LinkCapabilities) : Bool := a.bits &&& wanted.bits == wanted.bits

end LinkCapabilities

/-- The data of a link. -/
structure LinkData where
  direction : LinkDirection
  capabilities : LinkCapabilities
  /-- Whether the link leads to a further place of use rather than to the symbol itself. -/
  isAdditionalReference : Bool := false
  /-- How a new name is spelled at the target, and at the source. -/
  nameToTarget : Option NameTransform := none
  nameToSource : Option NameTransform := none
  deriving DecidableEq, Repr

/-- Whether a request that started in `origin` may go from source to target. -/
def LinkData.allowsForward (d : LinkData) (origin : Region) : Bool :=
  match d.direction with
  | .sibling => true
  | .scriptToTemplate => origin.isScript

/-- Whether a request that started in `origin` may go from target to source. -/
def LinkData.allowsBackward (d : LinkData) (origin : Region) : Bool :=
  match d.direction with
  | .sibling => true
  | .scriptToTemplate => origin == .template

/-! ## 2. Following links -/

/-- The far end of a link. -/
structure LinkEnd where
  range : Span
  data : LinkData
  /-- How a new name is spelled at this end. -/
  nameTransform : Option NameTransform
  deriving DecidableEq, Repr

/-- A new name as it is spelled after a transformation, if there is one. -/
def respell (transform : Option NameTransform) (name : String) : String :=
  match transform with
  | some t => t.apply name
  | none => name

/-- The links of one document: a map from the document to itself. -/
structure LinkMap where
  map : SpanMap LinkData := {}
  deriving DecidableEq, Repr

namespace LinkMap

/-- The map with one more link. -/
def push (m : LinkMap) (link : Mapping LinkData) : LinkMap := ⟨m.map.push link⟩

/-- The number of links. -/
def size (m : LinkMap) : Nat := m.map.size

/-- The ends reached from source to target. -/
def forward (m : LinkMap) (range : Span) (origin : Region) : List LinkEnd :=
  ((m.map.toTargets range).filter (·.data.allowsForward origin)).map fun hit =>
    ⟨hit.range, hit.data, hit.data.nameToTarget⟩

/-- The ends reached from target to source. -/
def backward (m : LinkMap) (range : Span) (origin : Region) : List LinkEnd :=
  ((m.map.toSources range).filter (·.data.allowsBackward origin)).map fun hit =>
    ⟨hit.range, hit.data, hit.data.nameToSource⟩

/-- Every end that a request from `origin` reaches, the forward ones first. -/
def ends (m : LinkMap) (range : Span) (origin : Region) : List LinkEnd :=
  m.forward range origin ++ m.backward range origin

end LinkMap

end ComponentLens
