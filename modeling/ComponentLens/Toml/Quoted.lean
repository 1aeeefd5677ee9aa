/-
# Quoted text

Text stands in double quotes, where a backslash starts an escape, or in single quotes, where it means itself.
Quotes written three times hold text of several lines. Such text does not count a line break right after the
opening quotes, and may end in one or two quotes of its own in front of the closing ones.

Every reader here starts behind the opening quotes and gives the text and what follows the closing quotes.
-/
import ComponentLens.Toml.Scalar

namespace ComponentLens.Toml

/-! ## 1. Characters -/

/-- A character that text may hold as it is: all but the control characters, except for the tab. -/
def isPlain (c : Char) : Bool := c == '\t' || (0x20 ≤ c.val && c.val != 0x7F)

/-- A space or a tab. -/
def isBlank (c : Char) : Bool := c == ' ' || c == '\t'

/-- What follows a line break. -/
def afterBreak? : List Char → Option (List Char)
  | '\n' :: cs => some cs
  | '\r' :: '\n' :: cs => some cs
  | _ => none

/-- The character that a one-letter escape stands for. -/
def escaped? : Char → Option Char
  | 'b' => some '\x08'
  | 't' => some '\t'
  | 'n' => some '\n'
  | 'f' => some '\x0c'
  | 'r' => some '\r'
  | '"' => some '"'
  | '\\' => some '\\'
  | _ => none

/-- The character with a number written in hexadecimal digits; halves of surrogate pairs are none. -/
def numbered? (digits : List Char) : Option Char :=
  let n := numberOf 16 digits
  if digits.all (isDigitOf 16) && (n < 0xD800 || 0xDFFF < n && n < 0x110000) then some (Char.ofNat n)
  else none

/-- The character that an escape stands for, and the number of characters of the escape, the backslash not
counted. -/
def escape? : List Char → Option (Char × Nat)
  | 'u' :: cs => if 4 ≤ cs.length then (numbered? (cs.take 4)).map (·, 5) else none
  | 'U' :: cs => if 8 ≤ cs.length then (numbered? (cs.take 8)).map (·, 9) else none
  | c :: _ => (escaped? c).map (·, 1)
  | [] => none

/-! ## 2. Text on one line -/

/-- Text in double quotes. `skip` characters still belong to an escape that has been read. -/
def basic? : List Char → Nat → Option (List Char × List Char)
  | [], _ => none
  | _ :: cs, skip + 1 => basic? cs skip
  | '"' :: cs, 0 => some ([], cs)
  | '\\' :: cs, 0 =>
    (escape? cs).bind fun (c, size) => (basic? cs size).map fun (text, rest) => (c :: text, rest)
  | c :: cs, 0 =>
    if isPlain c then (basic? cs 0).map fun (text, rest) => (c :: text, rest) else none

/-- Text in single quotes. -/
def literal? (cs : List Char) : Option (List Char × List Char) :=
  let inside (c : Char) : Bool := isPlain c && c != '\''
  match cs.dropWhile inside with
  | '\'' :: rest => some (cs.takeWhile inside, rest)
  | _ => none

/-! ## 3. Text on several lines -/

/-- The quotes in front of the closing quotes, and what follows these; the first three are read already. -/
def closing (quote : Char) : List Char → List Char × List Char
  | a :: b :: cs =>
    if a == quote && b == quote then ([a, b], cs)
    else if a == quote then ([a], b :: cs)
    else ([], a :: b :: cs)
  | a :: cs => if a == quote then ([a], cs) else ([], a :: cs)
  | [] => ([], [])

/-- What reading text of several lines is about to do. -/
inductive LinesState where
  /-- Take the next character. -/
  | take
  /-- Pass over characters of an escape that has been read. -/
  | pass (count : Nat)
  /-- Pass over blanks and line breaks, as a backslash at the end of a line asks for. -/
  | trim

/-- Text of several lines in triple double quotes. -/
def basicLines? : List Char → LinesState → Option (List Char × List Char)
  | [], _ => none
  | _ :: cs, .pass (n + 1) => basicLines? cs (.pass n)
  | ' ' :: cs, .trim | '\t' :: cs, .trim | '\n' :: cs, .trim | '\r' :: '\n' :: cs, .trim =>
    basicLines? cs .trim
  | '"' :: '"' :: '"' :: cs, _ => some (closing '"' cs)
  | '\\' :: cs, _ =>
    if (afterBreak? (cs.dropWhile isBlank)).isSome then basicLines? cs .trim
    else
      (escape? cs).bind fun (c, size) =>
        (basicLines? cs (.pass size)).map fun (text, rest) => (c :: text, rest)
  | '\n' :: cs, _ | '\r' :: '\n' :: cs, _ =>
    (basicLines? cs .take).map fun (text, rest) => ('\n' :: text, rest)
  | c :: cs, _ =>
    if isPlain c then (basicLines? cs .take).map fun (text, rest) => (c :: text, rest) else none

/-- Text of several lines in triple single quotes. -/
def literalLines? : List Char → Option (List Char × List Char)
  | '\'' :: '\'' :: '\'' :: cs => some (closing '\'' cs)
  | '\n' :: cs | '\r' :: '\n' :: cs =>
    (literalLines? cs).map fun (text, rest) => ('\n' :: text, rest)
  | c :: cs => if isPlain c then (literalLines? cs).map fun (text, rest) => (c :: text, rest) else none
  | [] => none

/-! ## 4. Any text -/

/-- The text at the front, in quotes of any kind. -/
def quoted? : List Char → Option (List Char × List Char)
  | '"' :: '"' :: '"' :: cs => basicLines? ((afterBreak? cs).getD cs) .take
  | '\'' :: '\'' :: '\'' :: cs => literalLines? ((afterBreak? cs).getD cs)
  | '"' :: cs => basic? cs 0
  | '\'' :: cs => literal? cs
  | _ => none

end ComponentLens.Toml
