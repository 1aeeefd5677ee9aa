/-
# Reading settings files

A file is read line by line into statements, which are then put together. A line holds a header, a pair, or
nothing, and may end in a comment. A value in brackets or braces may hold others, to a fixed depth.
-/
import ComponentLens.Toml.Assembly
import ComponentLens.Toml.Quoted

namespace ComponentLens.Toml

/-! ## 1. Gaps -/

/-- What follows the blanks. -/
def skipBlanks (cs : List Char) : List Char := cs.dropWhile isBlank

/-- What follows a comment, which reaches up to the end of its line, if there is one. -/
def skipComment : List Char → List Char
  | '#' :: cs => cs.dropWhile isPlain
  | cs => cs

/-- What follows the end of a line, with blanks and a comment in front of it. The last line may end with the
text. -/
def afterLine? (cs : List Char) : Option (List Char) :=
  match skipComment (skipBlanks cs) with
  | [] => some []
  | cs => afterBreak? cs

/-- What follows blanks, line breaks and comments. A comment that its line break does not end is left. -/
def skipGap : List Char → Bool → List Char
  | [], _ => []
  | '\n' :: cs, _ | '\r' :: '\n' :: cs, _ => skipGap cs false
  | c :: cs, true => if isPlain c then skipGap cs true else c :: cs
  | '#' :: cs, false => skipGap cs true
  | c :: cs, false => if isBlank c then skipGap cs false else c :: cs

/-! ## 2. Keys -/

/-- The greatest number of keys on a path, and the greatest depth of brackets in brackets. -/
def maxDepth : Nat := 79

/-- A character of a key that is not quoted. -/
def isKeyChar (c : Char) : Bool := c.isAlphanum || c == '_' || c == '-'

/-- The key at the front, bare or in quotes of one line. -/
def key? (cs : List Char) : Option (String × List Char) :=
  match cs with
  | '"' :: cs => (basic? cs 0).map fun (text, rest) => (String.ofList text, rest)
  | '\'' :: cs => (literal? cs).map fun (text, rest) => (String.ofList text, rest)
  | _ =>
    let key := cs.takeWhile isKeyChar
    if key.isEmpty then none else some (String.ofList key, cs.dropWhile isKeyChar)

/-- The keys at the front, with points between them and blanks around each: those on the way, and the last.
`room` is the number of keys that may still come. -/
def path? (room : Nat) (cs : List Char) : Option ((List String × String) × List Char) :=
  match room with
  | 0 => none
  | room + 1 =>
    (key? (skipBlanks cs)).bind fun (key, rest) =>
      match skipBlanks rest with
      | '.' :: rest => (path? room rest).map fun ((path, last), rest) => ((key :: path, last), rest)
      | rest => some (([], key), rest)

/-! ## 3. Values -/

mutual

/-- The value at the front. `room` is the number of brackets that may still be opened; `fuel` bounds the
number of steps, of which a character takes two at most. -/
def value? (fuel room : Nat) (cs : List Char) : Option (Value × List Char) :=
  match fuel with
  | 0 => none
  | fuel + 1 =>
    match cs, room with
    | '[' :: _, 0 | '\x7b' :: _, 0 => none
    | '[' :: cs, room + 1 => (items? fuel room cs).map fun (items, rest) => (.array items, rest)
    | '\x7b' :: cs, room + 1 =>
      match skipBlanks cs with
      | '\x7d' :: rest => some (.table .braced [], rest)
      | cs => (pairs? fuel room cs).bind fun (pairs, rest) => (braced? pairs).map (·, rest)
    | '"' :: _, _ | '\'' :: _, _ => (quoted? cs).map fun (text, rest) => (.text (String.ofList text), rest)
    | _, _ =>
      let (run, rest) := splitRun cs
      (scalar? run).map (·, rest)

/-- The items of an array up to its closing bracket; one comma may follow the last. -/
def items? (fuel room : Nat) (cs : List Char) : Option (List Value × List Char) :=
  match fuel with
  | 0 => none
  | fuel + 1 =>
    match skipGap cs false with
    | ']' :: rest => some ([], rest)
    | cs =>
      (value? fuel room cs).bind fun (value, rest) =>
        match skipGap rest false with
        | ']' :: rest => some ([value], rest)
        | ',' :: rest => (items? fuel room rest).map fun (values, rest) => (value :: values, rest)
        | _ => none

/-- The pairs of a table in braces, at least one, up to the closing brace. -/
def pairs? (fuel room : Nat) (cs : List Char) :
    Option (List (List String × String × Value) × List Char) :=
  match fuel with
  | 0 => none
  | fuel + 1 =>
    (path? maxDepth cs).bind fun ((path, key), rest) =>
      match rest with
      | '=' :: rest =>
        (value? fuel room (skipBlanks rest)).bind fun (value, rest) =>
          match skipBlanks rest with
          | '\x7d' :: rest => some ([(path, key, value)], rest)
          | ',' :: rest =>
            (pairs? fuel room rest).map fun (pairs, rest) => ((path, key, value) :: pairs, rest)
          | _ => none
      | _ => none

end

/-! ## 4. Lines -/

/-- The statement of a line, if it has one, and the lines after it. -/
def line? (cs : List Char) : Option (Option Statement × List Char) :=
  match afterLine? cs with
  | some rest => some (none, rest)
  | none =>
    match skipBlanks cs with
    | '[' :: '[' :: cs =>
      (path? maxDepth cs).bind fun ((path, key), rest) =>
        match rest with
        | ']' :: ']' :: rest => (afterLine? rest).map (some (.extend path key), ·)
        | _ => none
    | '[' :: cs =>
      (path? maxDepth cs).bind fun ((path, key), rest) =>
        match rest with
        | ']' :: rest => (afterLine? rest).map (some (.open_ path key), ·)
        | _ => none
    | cs =>
      (path? maxDepth cs).bind fun ((path, key), rest) =>
        match rest with
        | '=' :: rest =>
          (value? (2 * rest.length) maxDepth (skipBlanks rest)).bind fun (value, rest) =>
            (afterLine? rest).map (some (.pair path key value), ·)
        | _ => none

/-- The statements of at most `fuel` lines, which has to be all of them. -/
def statements? (fuel : Nat) (cs : List Char) : Option (List Statement) :=
  match fuel, cs with
  | _, [] => some []
  | 0, _ :: _ => none
  | fuel + 1, cs =>
    (line? cs).bind fun (statement, rest) =>
      (statements? fuel rest).map fun statements => statement.toList ++ statements

/-- The contents of a settings file. A mark of the byte order in front is passed over. -/
def read? (text : String) : Option Entries :=
  let cs :=
    match text.toList with
    | '\ufeff' :: cs => cs
    | cs => cs
  (statements? cs.length cs).bind assemble?

end ComponentLens.Toml
