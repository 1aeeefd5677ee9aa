/-
# Loop expressions

A loop is written `names in source` or `names of source`. The names are up to three patterns between
commas, perhaps in parentheses.
-/
import ComponentLens.Markup.Node
import ComponentLens.Text.Whitespace

namespace ComponentLens.Markup

/-! ## 1. The keyword -/

/-- White space, the word `in` or `of`, and white space again, if they stand in front of something: the text
passed, and what follows. -/
def readKeyword? (cs : List Char) : Option (List Char × List Char) :=
  let gap := cs.takeWhile isBlank
  match cs.dropWhile isBlank with
  | a :: b :: after =>
    let isKeyword := (a == 'i' && b == 'n') || (a == 'o' && b == 'f')
    let gap2 := after.takeWhile isBlank
    let rest := after.dropWhile isBlank
    if !gap.isEmpty && isKeyword && !gap2.isEmpty && !rest.isEmpty then
      some (gap ++ a :: b :: gap2, rest)
    else none
  | _ => none

/-- The text before the first keyword, the keyword, and what follows. -/
def breakAtKeyword? : List Char → Option (List Char × List Char × List Char)
  | [] => none
  | c :: cs =>
    match readKeyword? (c :: cs) with
    | some (keyword, rest) => some ([], keyword, rest)
    | none => (breakAtKeyword? cs).map fun (before, r) => (c :: before, r)

/-- The two sides of a loop, each with its offset. White space at the two ends is left out. The left side
may be empty only if white space stands before the keyword. -/
def loopSides? (cs : List Char) : Option ((Nat × List Char) × (Nat × List Char)) :=
  let lead := cs.takeWhile isBlank
  let body := cs.dropWhile isBlank
  match breakAtKeyword? body with
  | some (left, keyword, right) =>
    let start := byteLength lead
    some ((start, left), (start + byteLength left + byteLength keyword, trimEnd right))
  | none => do
    let last ← lead.getLast?
    let (keyword, right) ← readKeyword? (last :: body)
    let start := byteLength lead.dropLast
    return ((start, []), (start + byteLength keyword, trimEnd right))

/-! ## 2. The names -/

/-- The parts between commas outside brackets. `depth` brackets are open; it goes below zero where a bracket
closes that was not opened. -/
def splitAliases (depth : Int) : List Char → List (List Char)
  | [] => [[]]
  | c :: cs =>
    if c == ',' && depth == 0 then [] :: splitAliases depth cs
    else
      let depth :=
        if c == '(' || c == '[' || c == '\x7b' then depth + 1
        else if c == ')' || c == ']' || c == '\x7d' then depth - 1
        else depth
      match splitAliases depth cs with
      | [] => [[c]]
      | part :: parts => (c :: part) :: parts

/-- The text of a part at offset `pos` without the white space around it, if any is left. -/
def Expression.ofPart? (pos : Nat) (part : List Char) : Option Expression :=
  let content := trim part
  let start := pos + byteLength (part.takeWhile isBlank)
  if content.isEmpty then none
  else some ⟨String.ofList content, ⟨start, start + byteLength content⟩⟩

/-- The parts as expressions. The first starts at offset `pos`, and a comma stands behind each. -/
def aliasesFrom (pos : Nat) : List (List Char) → List (Option Expression)
  | [] => []
  | part :: parts => Expression.ofPart? pos part :: aliasesFrom (pos + byteLength part + 1) parts

/-- The names of a loop, whose text starts at offset `pos`. -/
def aliases (pos : Nat) : List Char → List (Option Expression)
  | '(' :: cs =>
    if cs.getLast? == some ')' then aliasesFrom (pos + 1) (splitAliases 0 cs.dropLast)
    else aliasesFrom pos (splitAliases 0 ('(' :: cs))
  | cs => aliasesFrom pos (splitAliases 0 cs)

/-! ## 3. The loop -/

/-- The loop that an expression describes. -/
def Loop.ofExpression? (exp : Expression) : Option Loop := do
  let ((leftStart, left), (rightStart, right)) ← loopSides? exp.content.toList
  let base := exp.span.start
  let names := aliases (base + leftStart) left
  let start := base + rightStart
  return {
    source := ⟨String.ofList right, ⟨start, start + byteLength right⟩⟩
    value := names[0]?.join
    key := names[1]?.join
    index := names[2]?.join }

end ComponentLens.Markup
