/-
# What a mapping of a code document knows

A mapping of a code document says which region of the component file it leads to, which requests may
use it, and how a new name changes on the way of a rename.
-/
import ComponentLens.Text.Naming

namespace ComponentLens

/-! ## 1. Regions -/

/-- The part of a component file that a mapping leads to. -/
inductive Region where
  | template
  | script
  | scriptSetup
  | style
  /-- The `src` attribute of a script block. -/
  | scriptSource
  deriving DecidableEq, Repr, Inhabited

/-- Whether the region holds code of the component itself. -/
def Region.isScript : Region → Bool
  | .script | .scriptSetup => true
  | _ => false

/-! ## 2. Capabilities -/

/-- A set of the kinds of request that a mapping serves, one bit each. -/
structure Capabilities where
  bits : BitVec 12
  deriving DecidableEq, Repr, Inhabited

namespace Capabilities

/-- No request. -/
def none : Capabilities := ⟨0⟩

/-- The kinds of either set. -/
def union (a b : Capabilities) : Capabilities := ⟨a.bits ||| b.bits⟩

instance : OrOp Capabilities := ⟨union⟩

/-- The kinds of `a` that `b` lacks. -/
def without (a b : Capabilities) : Capabilities := ⟨a.bits &&& ~~~b.bits⟩

/-- Whether every kind of `wanted` is in the set. -/
def has (a wanted : Capabilities) : Bool := a.bits &&& wanted.bits == wanted.bits

/-- Hovering and other requests about a position alone. -/
def basic : Capabilities := ⟨1⟩
def references : Capabilities := ⟨2⟩
def definitions : Capabilities := ⟨4⟩
def diagnostic : Capabilities := ⟨8⟩
def formatting : Capabilities := ⟨16⟩
/-- A rename may start here. -/
def renameIn : Capabilities := ⟨32⟩
/-- An edit of a rename may land here. -/
def renameOut : Capabilities := ⟨64⟩
def completion : Capabilities := ⟨128⟩
def semanticTokens : Capabilities := ⟨256⟩
def foldingRanges : Capabilities := ⟨512⟩
def referencesCodeLens : Capabilities := ⟨1024⟩
def displayWithLink : Capabilities := ⟨2048⟩

/-- Both ends of a rename. -/
def rename : Capabilities := renameIn ||| renameOut

/-- Code of a setup block, copied: everything that does not depend on its layout. -/
def scriptSetup : Capabilities :=
  basic ||| references ||| definitions ||| diagnostic ||| rename ||| completion ||| semanticTokens

/-- Code of a script block, copied: its layout counts as well. -/
def script : Capabilities := scriptSetup ||| formatting ||| foldingRanges

/-- Expressions of markup. -/
def expression : Capabilities := scriptSetup

/-- Stand-ins for a source span, for faults and completion alone. -/
def diagnosticOnly : Capabilities := diagnostic ||| completion

/-- Tag and attribute names. -/
def tagOrAttribute : Capabilities :=
  basic ||| diagnostic ||| references ||| definitions ||| rename

/-- Class names used in markup. -/
def className : Capabilities := basic ||| references ||| definitions ||| rename

/-- Slot names used in markup. -/
def slotName : Capabilities := basic ||| diagnostic ||| references ||| definitions

/-- Slot names that a component declares. -/
def slotNameExport : Capabilities := slotName ||| referencesCodeLens

/-- Names of the options object. -/
def options : Capabilities := references ||| definitions ||| rename

/-- Places that only find a name. -/
def referencesOnly : Capabilities := references ||| definitions

/-- Class names declared by a style block. -/
def styleClass : Capabilities :=
  basic ||| references ||| definitions ||| rename ||| diagnostic ||| completion

end Capabilities

/-! ## 3. Names on the way of a rename -/

/-- How a new name is spelled on the other side of a mapping. -/
inductive NameTransform where
  | stripDollar
  | addDollar
  deriving DecidableEq, Repr

/-- The new name on the other side. -/
def NameTransform.apply (t : NameTransform) (name : String) : String :=
  match t with
  | .stripDollar => Naming.dropDollar name
  | .addDollar => "$" ++ name

/-- How an edit is spelled where it lands. -/
inductive EditTransform where
  /-- A name that was hyphenated stays hyphenated. -/
  | keepHyphenation
  deriving DecidableEq, Repr

/-- The spelling of an edit that replaces `old`. -/
def EditTransform.apply (t : EditTransform) (old new : String) : String :=
  match t with
  | .keepHyphenation => if Naming.hyphenate old = old then Naming.hyphenate new else new

/-! ## 4. The payload -/

/-- The data of a mapping between a component file and a code document. -/
structure CodeData where
  region : Region
  capabilities : Capabilities
  /-- What happens to the new name of a rename that starts here. -/
  beforeRename : Option NameTransform := .none
  /-- What happens to an edit of a rename that lands here. -/
  onEdit : Option EditTransform := .none
  deriving DecidableEq, Repr

end ComponentLens
