/-
# Tokens of logic blocks

Enough of the language of logic blocks to find brackets, statement ends and names: a string, a template
literal, a regular expression or a comment is read as one piece, so nothing inside it misleads.
-/
import ComponentLens.Text.Span

namespace ComponentLens.Script

/-- What a token is. -/
inductive TokenKind where
  | ident
  | string
  | template
  | number
  | regExp
  | punct
  deriving DecidableEq, Repr

/-- A token, with its text and its place. -/
structure Token where
  kind : TokenKind
  text : String
  span : Span
  /-- Whether a line break stands between this token and the one before. -/
  newlineBefore : Bool
  deriving DecidableEq, Repr

namespace Token

/-- Whether the token is the given word. -/
def isIdent (t : Token) (name : String) : Bool := t.kind == .ident && t.text == name

/-- Whether the token is the given punctuator. -/
def isPunct (t : Token) (text : String) : Bool := t.kind == .punct && t.text == text

/-- The closer that an opening bracket asks for. -/
def closer? (t : Token) : Option String :=
  if t.isPunct "(" then some ")"
  else if t.isPunct "[" then some "]"
  else if t.isPunct "\x7b" then some "\x7d"
  else none

/-- Whether the token opens a bracket. -/
def isOpener (t : Token) : Bool := t.closer?.isSome

/-- Whether the token closes a bracket. -/
def isCloser (t : Token) : Bool := t.isPunct ")" || t.isPunct "]" || t.isPunct "\x7d"

end Token

/-- Whether the token in front is the given word. -/
def headIsIdent (ts : List Token) (name : String) : Bool := ts.head?.any (·.isIdent name)

/-- Whether the token in front is the given punctuator. -/
def headIsPunct (ts : List Token) (text : String) : Bool := ts.head?.any (·.isPunct text)

/-- The text of the token in front, empty at the end. -/
def headText (ts : List Token) : String := (ts.head?.map (·.text)).getD ""

/-- The span from the first token to the last. Without a token it is empty and stands at `at_`. -/
def spanOf (ts : List Token) (at_ : Nat) : Span :=
  match ts.head?, ts.getLast? with
  | some first, some last => ⟨first.span.start, last.span.stop⟩
  | _, _ => Span.empty at_

/-- The text between the quotes of a quoted token; any other text as it is. -/
def unquote (text : String) : String :=
  match text.toList with
  | quote :: rest =>
    if (quote == '"' || quote == '\'' || quote == '`') && !rest.isEmpty && rest.getLast? == some quote then
      String.ofList rest.dropLast
    else text
  | [] => text

end ComponentLens.Script
