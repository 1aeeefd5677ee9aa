/-
# Names that imports bind

An import clause binds a default name, a namespace name behind `* as`, and the names of a braced list.
Names imported as types bind nothing that a template could use.
-/
import ComponentLens.Script.Bracket

namespace ComponentLens.Script

/-- The name that a part of a braced list binds: its last word, unless the part is marked as a type. -/
def specifierName? (specifier : List Token) : Option Span :=
  if headIsIdent specifier "type" && specifier.length > 1 then none
  else specifier.getLast?.map (·.span)

/-- The names that an import clause binds, up to the word `from`. -/
def clauseNames : List Token → List Span
  | [] => []
  | t :: ts =>
    if t.isIdent "from" then []
    else if t.isPunct "\x7b" then
      have := unit_rest_le t ts
      let group := (unit t ts).1
      (splitAt "," (group.tail.dropLast)).filterMap specifierName? ++ clauseNames (unit t ts).2
    else if t.isPunct "*" && headIsIdent ts "as" then
      (ts[1]?.map (·.span)).toList ++ clauseNames (ts.drop 2)
    else if t.kind == .ident then t.span :: clauseNames ts
    else clauseNames ts
termination_by ts => ts.length
decreasing_by all_goals simp <;> omega

/-- The names that an import statement binds, given what follows the word `import`. A statement that
imports types only binds none; `type` in front of a comma or of `from` is itself a name. -/
def importNames (ts : List Token) : List Span :=
  if headIsIdent ts "type" && !headIsPunct ts.tail "," && !headIsIdent ts.tail "from" then []
  else clauseNames ts

end ComponentLens.Script
