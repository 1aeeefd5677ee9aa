/-
# Labels that declare reactive variables

A statement labelled `ref` may stand at any depth. `ref` followed by a colon is a label only where a
statement can start: elsewhere it is a key of an object literal.
-/
import ComponentLens.Script.Pattern
import ComponentLens.Script.Statement

namespace ComponentLens.Script

/-! ## 1. Where a statement can start

Both questions look at the tokens before a place, the nearest one first. -/

/-- The tokens in front of a brace that make it open a block of statements. -/
def blockIntroducers : List String :=
  [")", "=>", ";", "\x7d", "\x7b", "else", "try", "finally", "do"]

/-- Whether an opening brace behind the given tokens opens a block of statements. -/
def opensBlock : List Token → Bool
  | [] => true
  | t :: before => blockIntroducers.contains t.text && !(t.text == "\x7b" && !opensBlock before)

/-- Whether a statement can start with the token `next` behind the given tokens. -/
def startsStatement (next : Token) : List Token → Bool
  | [] => true
  | t :: before =>
    if t.text == ";" || t.text == "\x7d" then true
    else if t.text == "\x7b" then opensBlock before
    else next.newlineBefore && !continues t next

/-- How many brackets are open behind the given tokens. -/
def nesting : List Token → Nat
  | [] => 0
  | t :: before =>
    if t.isOpener then nesting before + 1
    else if t.isCloser then nesting before - 1
    else nesting before

/-! ## 2. Bindings -/

/-- The bindings that one part of a labelled statement makes. `parent` is the outermost pair of
parentheses around it. -/
def labelBindings (parent : Option Span) (inRoot : Bool) (ts : List Token) : List LabelBinding :=
  match h : group? "(" ts with
  | some inside =>
    let parent := parent.getD (spanOf ts 0)
    (splitAt "," inside).attach.flatMap fun ⟨part, hp⟩ =>
      have := group?_length h
      have := mem_splitAt_length_le hp
      labelBindings (some parent) inRoot part
  | none =>
    match breakAt "=" ts with
    | (left, some right) =>
      let start := (ts.head?.map (·.span.start)).getD 0
      [⟨parent.getD (spanOf ts 0), spanOf left start,
        if right.isEmpty then none else some (spanOf right 0), labelVars inRoot left⟩]
    | (_, none) =>
      match singleIdent? ts with
      | some name => [⟨name.span, name.span, none, [.ofToken false inRoot name]⟩]
      | none => []
termination_by ts.length
decreasing_by omega

/-! ## 3. Labels -/

/-- The labelled statement that starts with the token `ref` and a colon, if one does. `before` are the
tokens before it, the nearest first. -/
def RefLabel.read? (before : List Token) : List Token → Option RefLabel
  | ref :: colon :: ts =>
    if ref.isIdent "ref" && colon.isPunct ":" && startsStatement ref before then
      let statement := (splitStatement none ts).1
      let parts := splitAt "," (withoutSemicolon statement)
      some ⟨spanOf (ref :: colon :: statement) 0, ref.span,
        parts.flatMap (labelBindings none (nesting before == 0))⟩
    else none
  | _ => none

/-- The labelled statements that start in the given tokens, behind the tokens `before`. -/
def refLabelsFrom (before : List Token) : List Token → List RefLabel
  | [] => []
  | t :: ts => (RefLabel.read? before (t :: ts)).toList ++ refLabelsFrom (t :: before) ts

/-- The labelled statements of a block, at every depth. -/
def refLabels (ts : List Token) : List RefLabel := refLabelsFrom [] ts

end ComponentLens.Script
