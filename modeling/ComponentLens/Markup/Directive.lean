/-
# Names of directives

An attribute whose name starts with `v-`, or with one of four shorthands, is a directive. Its name goes on
with an argument and with modifiers behind dots.
-/
import ComponentLens.Markup.Node
import ComponentLens.Text.AttrValue
import ComponentLens.Text.Search

namespace ComponentLens.Markup

/-- Whether an attribute of the name is a directive. -/
def isDirectiveName : List Char → Bool
  | ':' :: _ => true
  | '@' :: _ => true
  | '#' :: _ => true
  | '.' :: _ :: _ => true
  | 'v' :: '-' :: c :: _ => c.isAlphanum
  | _ => false

/-! ## 1. Name and argument -/

/-- The name of a directive, and what follows it in the attribute name: `mark` up to the argument, and the
rest. Without an argument the rest holds the modifiers only. -/
structure DirectiveStart where
  name : String
  mark : List Char
  hasArg : Bool
  rest : List Char

/-- Whether the character belongs to the name of a directive. -/
def isDirectiveNamePart (c : Char) : Bool := c != ':' && c != '.'

/-- The directive that an attribute name starts with. -/
def DirectiveStart.read : List Char → DirectiveStart
  | ':' :: cs => ⟨"bind", [':'], true, cs⟩
  | '@' :: cs => ⟨"on", ['@'], true, cs⟩
  | '#' :: cs => ⟨"slot", ['#'], true, cs⟩
  | '.' :: cs => ⟨"bind", ['.'], true, cs⟩
  | raw =>
    let name := (raw.drop 2).takeWhile isDirectiveNamePart
    match (raw.drop 2).dropWhile isDirectiveNamePart with
    | ':' :: rest => ⟨String.ofList name, raw.take 2 ++ name ++ [':'], true, rest⟩
    | rest => ⟨String.ofList name, raw.take 2 ++ name, false, rest⟩

/-- The argument in front, which starts at offset `pos`, and what follows it. An argument in brackets goes
to the closing bracket, any other to the next dot. -/
def readArg (pos : Nat) : List Char → Option DirectiveArg × List Char
  | '[' :: cs =>
    let inner := cs.takeWhile (· != ']')
    (some ⟨String.ofList inner, ⟨pos + 1, pos + 1 + byteLength inner⟩, false⟩,
      (cs.dropWhile (· != ']')).drop 1)
  | cs =>
    let name := cs.takeWhile (· != '.')
    (if name.isEmpty then none else some ⟨String.ofList name, ⟨pos, pos + byteLength name⟩, true⟩,
      cs.dropWhile (· != '.'))

/-! ## 2. The whole directive -/

/-- The modifiers: the words between dots. -/
def readModifiers (cs : List Char) : List String :=
  ((splitOnChar '.' cs).filter (!·.isEmpty)).map String.ofList

/-- The directive with the attribute name `raw` at offset `pos`. -/
def Directive.ofName (pos : Nat) (raw : List Char) (exp : Option Expression) (span : Span) : Directive :=
  let start := DirectiveStart.read raw
  let (arg, rest) :=
    if start.hasArg then readArg (pos + byteLength start.mark) start.rest else (none, start.rest)
  let shorthand := if raw.head? == some '.' then ["prop"] else []
  ⟨start.name, String.ofList raw, arg, exp, readModifiers rest ++ shorthand, span⟩

/-- The attribute or directive with the name `raw` at offset `pos`, and the value that follows it. -/
def TagProp.ofReading (pos : Nat) (raw : List Char) (value : Option ValueReading) : TagProp :=
  let nameStop := pos + byteLength raw
  let span : Span := ⟨pos, nameStop + (value.map (byteLength ·.passed)).getD 0⟩
  if isDirectiveName raw then
    .directive (.ofName pos raw (value.map fun v => ⟨String.ofList v.value, v.span nameStop⟩) span)
  else
    .plain ⟨String.ofList raw, ⟨pos, nameStop⟩,
      value.map fun v => ⟨String.ofList v.value, v.span nameStop, v.quotedSpan nameStop⟩, span⟩

end ComponentLens.Markup
