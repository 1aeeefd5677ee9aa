/-
# Class selectors of a stylesheet

Class names are looked for only in front of the braces that open rules, so a dot inside a declaration, as
in a file name, names no class. Comments and strings are blanked first, byte by byte, which keeps every
offset.
-/
import ComponentLens.Text.Span

namespace ComponentLens.Style

/-! ## 1. Blanking -/

/-- As many spaces as the character has bytes. -/
def blank (c : Char) : List Char := List.replicate c.utf8Size ' '

/-- Where a stylesheet is being read. -/
inductive Place where
  | code
  | comment
  | quoted (quote : Char)
  deriving DecidableEq

/-- The text with a space for every byte of a comment, of a string, and of a character that is not ASCII.
A backslash in a string takes the next character with it, and a line feed ends the string. -/
def maskFrom : Place → List Char → List Char
  | _, [] => []
  | .code, '/' :: '*' :: cs => ' ' :: ' ' :: maskFrom .comment cs
  | .code, c :: cs =>
    if c == '"' || c == '\'' then ' ' :: maskFrom (.quoted c) cs
    else if c.val < 0x80 then c :: maskFrom .code cs
    else blank c ++ maskFrom .code cs
  | .comment, '*' :: '/' :: cs => ' ' :: ' ' :: maskFrom .code cs
  | .comment, c :: cs => blank c ++ maskFrom .comment cs
  | .quoted quote, '\\' :: d :: cs => ' ' :: (blank d ++ maskFrom (.quoted quote) cs)
  | .quoted quote, c :: cs =>
    blank c ++ maskFrom (if c == quote || c == '\n' then .code else .quoted quote) cs

/-- The text with its comments and strings blanked. -/
def mask (cs : List Char) : List Char := maskFrom .code cs

/-! ## 2. Class names -/

/-- A class name, and the span of its selector with the dot. -/
structure ClassName where
  name : String
  span : Span
  deriving DecidableEq, Repr

/-- Whether a class name can start with the character. -/
def isClassStart (c : Char) : Bool := c.isAlpha || c == '_'

/-- Whether a class name can go on with the character. -/
def isClassPart (c : Char) : Bool := c.isAlphanum || c == '_' || c == '-'

/-- The class name in front: a letter or an underscore, perhaps behind a hyphen, and what goes on from
there. -/
def readClassName? : List Char → Option (List Char)
  | '-' :: c :: cs => if isClassStart c then some ('-' :: c :: cs.takeWhile isClassPart) else none
  | c :: cs => if isClassStart c then some (c :: cs.takeWhile isClassPart) else none
  | [] => none

/-- The class names of the rest of a blanked text, which starts at offset `pos`. `pending` are those read
since the last brace or semicolon; an opening brace makes them count. -/
def classNamesFrom (pos : Nat) (pending : List ClassName) : List Char → List ClassName
  | [] => []
  | c :: cs =>
    if c == '\x7b' then pending ++ classNamesFrom (pos + 1) [] cs
    else if c == '\x7d' || c == ';' then classNamesFrom (pos + 1) [] cs
    else if c == '.' then
      match readClassName? cs with
      | some name =>
        let found : ClassName := ⟨String.ofList name, ⟨pos, pos + 1 + name.length⟩⟩
        classNamesFrom (pos + 1) (pending ++ [found]) cs
      | none => classNamesFrom (pos + 1) pending cs
    else classNamesFrom (pos + 1) pending cs

/-- The class selectors of a stylesheet, in order. -/
def classNames (source : String) : List ClassName := classNamesFrom 0 [] (mask source.toList)

end ComponentLens.Style
