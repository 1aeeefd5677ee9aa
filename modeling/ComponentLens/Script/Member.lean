/-
# Members of object literals

A member starts behind a comma or a semicolon, or on a new line that does not continue the one before,
so the same reader serves object literals and type literals.
-/
import ComponentLens.Script.Statement

namespace ComponentLens.Script

/-! ## 1. One member -/

/-- The words that may stand in front of a key. -/
def keyModifiers : List String := ["readonly", "get", "set", "async"]

/-- The member without the modifiers in front of its key. A modifier in front of nothing that can be a key
is itself the key. -/
def dropModifiers : List Token → List Token
  | t :: next :: ts =>
    if keyModifiers.contains t.text && (next.kind == .ident || next.kind == .string) then
      dropModifiers (next :: ts)
    else t :: next :: ts
  | ts => ts

/-- A key, and what follows the colon behind it. -/
structure Member where
  key : String
  value : Option (List Token)

/-- The member that starts in front. A key is followed by a colon, an argument list, type parameters, a
comma or the end of the literal, with a question mark in between if it is optional. -/
def Member.read? (ts : List Token) : Option Member :=
  match dropModifiers ts with
  | [] => none
  | key :: rest =>
    if key.kind == .ident || key.kind == .string then
      let rest := if headIsPunct rest "?" then rest.tail else rest
      if headIsPunct rest ":" then some ⟨unquote key.text, some rest.tail⟩
      else if rest.isEmpty || headIsPunct rest "(" || headIsPunct rest "," || headIsPunct rest "<" then
        some ⟨unquote key.text, none⟩
      else none
    else none

/-! ## 2. All members -/

/-- The members of the rest of a literal. `previous` is the token in front of it, and `starting` tells
whether a member starts here. -/
def membersFrom (previous : Option Token) (starting : Bool) : List Token → List Member
  | [] => []
  | t :: ts =>
    if t.isPunct "," || t.isPunct ";" then membersFrom (some t) true ts
    else
      have := unit_rest_le t ts
      let starts := starting || (t.newlineBefore && !previous.any (continues · t))
      let member := if starts then (Member.read? (t :: ts)).toList else []
      member ++ membersFrom (unit t ts).1.getLast? false (unit t ts).2
termination_by ts => ts.length
decreasing_by all_goals simp <;> omega

/-- The members of a literal, given what stands between its braces. -/
def members (inside : List Token) : List Member := membersFrom none true inside

/-- The members of the literal in front, if there is one. -/
def leadingMembers? : List Token → Option (List Member)
  | [] => none
  | t :: ts =>
    if t.isPunct "\x7b" then some (((splitGroup? 0 ts).map (members ·.1)).getD []) else none

/-- The names that a value lists: the keys of an object literal, or the strings of an array literal. -/
def listedNames (value : List Token) : List String :=
  match leadingMembers? value with
  | some entries => entries.map (·.key)
  | none =>
    match value with
    | [] => []
    | t :: ts =>
      if t.isPunct "[" then
        (((splitGroup? 0 ts).map (·.1)).getD []).filter (·.kind == .string) |>.map (unquote ·.text)
      else []

end ComponentLens.Script
