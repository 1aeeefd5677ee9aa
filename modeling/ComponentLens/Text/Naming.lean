/-
The spellings of identifiers: the camel case of declarations and the hyphenated form of markup.

A component may declare `fooBar` and markup may write `foo-bar` for it. `camelize` and `hyphenate`
follow the rule that component runtimes use, so both spellings name the same thing.
-/
import ComponentLens.Text.LetterCase

namespace ComponentLens.Naming

/-- ASCII letters, digits and the underscore: what a hyphen joins. -/
def isNamePart (c : Char) : Bool := c.isAlphanum || c == '_'

/-- Drops each hyphen before a name part and raises that part. -/
def camelChars : List Char → List Char
  | [] => []
  | '-' :: c :: cs =>
    if isNamePart c then LetterCase.upper c ++ camelChars cs else '-' :: camelChars (c :: cs)
  | c :: cs => c :: camelChars cs

/-- Puts a hyphen before each ASCII capital that follows a name part, and lowers every character.
`afterPart` tells whether the character before was a name part. -/
def hyphenChars (afterPart : Bool) : List Char → List Char
  | [] => []
  | c :: cs =>
    (if c.isUpper && afterPart then ['-'] else []) ++ LetterCase.lower c ++
      hyphenChars (isNamePart c) cs

/-- The camel case spelling: `foo-bar` becomes `fooBar`. -/
def camelize (name : String) : String := String.ofList (camelChars name.toList)

/-- The hyphenated spelling: `fooBar` becomes `foo-bar`. -/
def hyphenate (name : String) : String := String.ofList (hyphenChars false name.toList)

/-- The name with its first character raised. -/
def capitalize (name : String) : String :=
  match name.toList with
  | [] => ""
  | c :: cs => String.ofList (LetterCase.upper c ++ cs)

/-- An ASCII letter, an underscore or a dollar sign. -/
def isIdentStart (c : Char) : Bool := c.isAlpha || c == '_' || c == '$'

/-- A character of an identifier after the first. -/
def isIdentPart (c : Char) : Bool := c.isAlphanum || c == '_' || c == '$'

/-- Whether the name can stand after a dot or as an unquoted key. -/
def isSimpleIdentifier (name : String) : Bool :=
  match name.toList with
  | [] => false
  | c :: cs => isIdentStart c && cs.all isIdentPart

/-- The name with at most one leading dollar sign taken away. -/
def dropDollar (name : String) : String :=
  match name.toList with
  | '$' :: rest => String.ofList rest
  | _ => name

end ComponentLens.Naming
