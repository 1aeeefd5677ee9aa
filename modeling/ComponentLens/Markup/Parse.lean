/-
# Reading a template

`parse` reads the content of a template block into a tree. It accepts every text; what is wrong with the
text is reported beside the tree.
-/
import ComponentLens.Markup.Build
import ComponentLens.Markup.Lift

namespace ComponentLens.Markup

/-- A tree, and the faults of its text, in the order of the text. -/
structure Template where
  nodes : List Node
  faults : List Fault

/-- Reads markup. -/
def parse (source : String) : Template :=
  let (raw, faults) := build source.toList
  let (nodes, more) := lift raw
  ⟨nodes, (faults ++ more).mergeSort fun a b => a.span.start ≤ b.span.start⟩

end ComponentLens.Markup
