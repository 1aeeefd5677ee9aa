/-
# Declaring calls

A setup block declares its inputs with `defineProps` and its events with `defineEmit` or `defineEmits`,
by a type argument or by a value.
-/
import ComponentLens.Script.Facts
import ComponentLens.Script.Member

namespace ComponentLens.Script

/-! ## 1. Type arguments -/

/-- What stands before the angle bracket that closes around the front, that bracket, and what follows.
`depth` counts the inner angle brackets that are open. A semicolon ends the search. -/
def splitAngle? (depth : Nat) : List Token → Option (List Token × Token × List Token)
  | [] => none
  | t :: ts =>
    have := unit_rest_le t ts
    let next (depth : Nat) := (splitAngle? depth (unit t ts).2).map fun (inside, r) =>
      ((unit t ts).1 ++ inside, r)
    if t.text == "<" then next (depth + 1)
    else if t.text == ">" then
      match depth with
      | 0 => some ([], t, ts)
      | depth + 1 => next depth
    else if t.text == ";" then none
    else next depth
termination_by ts => ts.length
decreasing_by all_goals (simp; omega)

/-! ## 2. The call -/

/-- The arguments of a declaring call. -/
structure DefineArgs where
  call : DefineCall
  /-- The tokens of the type argument. -/
  typeTokens : List Token
  /-- The tokens of the first argument. -/
  argTokens : List Token

/-- The call with the given type argument, if an argument list stands in front. -/
def DefineArgs.readList? (name : Token) (typeArgs : Option Span) (typeTokens : List Token) :
    List Token → Option DefineArgs
  | [] => none
  | t :: ts =>
    if t.isPunct "(" then
      (splitGroup? 0 ts).map fun (inside, closer, _) =>
        let first := ((splitAt "," inside).head?).getD []
        let args := if first.isEmpty then none else some (spanOf first 0)
        ⟨⟨⟨name.span.start, closer.span.stop⟩, args, typeArgs⟩, typeTokens, first⟩
    else none

/-- The call of the given name, if what follows the name calls it. -/
def DefineArgs.read? (name : Token) (ts : List Token) : Option DefineArgs :=
  if headIsPunct ts "<" then do
    let (inside, closer, rest) ← splitAngle? 0 ts.tail
    DefineArgs.readList? name (some (spanOf inside closer.span.start)) inside rest
  else DefineArgs.readList? name none [] ts

/-- The names that the call declares. A type literal goes before a value. -/
def DefineArgs.names (args : DefineArgs) : List String :=
  match leadingMembers? args.typeTokens with
  | some entries => entries.map (·.key)
  | none => listedNames args.argTokens

/-! ## 3. Searching a block -/

/-- The first call of one of the given names that has an argument list. A name behind a dot belongs to
something else. -/
def findDefine? (names : List String) (previous : Option Token) : List Token → Option DefineArgs
  | [] => none
  | t :: ts =>
    let isMember := previous.any fun p => p.text == "." || p.text == "?."
    if t.kind == .ident && names.contains t.text && !isMember then
      (DefineArgs.read? t ts).or (findDefine? names (some t) ts)
    else findDefine? names (some t) ts

end ComponentLens.Script
