/-
# Addresses of documents

A `Uri` is text in the normal form of the URL standard. A document generated for a component has the
component's address with a suffix. The result is read again as an address, so what lands in the path
is percent-encoded as a path requires, and likewise in a query or a fragment when the component's
address has one.
-/

namespace ComponentLens

/-- An address in normal form. -/
structure Uri where
  text : String
  deriving DecidableEq, Repr, Inhabited

namespace Uri

/-- Addresses are ordered as their texts are. -/
instance : Ord Uri where
  compare a b := compare a.text b.text

/-! ## 1. Parts -/

/-- A letter, a digit, or one of the marks that a scheme may hold. -/
def isSchemeChar (c : Char) : Bool := c.isAlphanum || c == '+' || c == '-' || c == '.'

/-- The scheme, and what follows its colon. -/
def scheme? (text : List Char) : Option (List Char × List Char) :=
  let scheme := text.takeWhile isSchemeChar
  match text.dropWhile isSchemeChar with
  | ':' :: rest => if scheme.head?.any Char.isAlpha then some (scheme, rest) else none
  | _ => none

/-- Text is an address when it starts with a scheme. -/
def ofString? (text : String) : Option Uri :=
  (scheme? text.toList).map fun _ => ⟨text⟩

/-- An address cut into its parts. A part keeps the mark in front of it, and an absent part is empty. -/
structure Parts where
  /-- The scheme with its colon, and the host with its two slashes. -/
  base : List Char
  path : List Char
  query : List Char
  fragment : List Char
  /-- Whether the scheme is one of those that the standard treats specially. -/
  special : Bool

/-- The schemes whose paths also take a backslash as a separator. -/
def specialSchemes : List String := ["http", "https", "ws", "wss", "ftp", "file"]

/-- Cuts an address into its parts. -/
def parts (u : Uri) : Parts :=
  let (scheme, rest) := (scheme? u.text.toList).getD ([], u.text.toList)
  let colon := if rest.length < u.text.length then [':'] else []
  let (host, rest) :=
    match rest with
    | '/' :: '/' :: more => ('/' :: '/' :: more.takeWhile (fun c => !(c == '/' || c == '?' || c == '#')),
        more.dropWhile fun c => !(c == '/' || c == '?' || c == '#'))
    | _ => ([], rest)
  let path := rest.takeWhile fun c => !(c == '?' || c == '#')
  let rest := rest.dropWhile fun c => !(c == '?' || c == '#')
  { base := scheme ++ colon ++ host
    path := path
    query := rest.takeWhile (· != '#')
    fragment := rest.dropWhile (· != '#')
    special := specialSchemes.contains (String.ofList scheme) }

/-- Whether the path ends in the given text. -/
def pathEndsWith (u : Uri) (ending : String) : Bool :=
  ending.toList.isSuffixOf u.parts.path

/-- The last segment of the path; empty for a path that has no segments. -/
def fileName (u : Uri) : String :=
  let path := u.parts.path
  if path.head? == some '/' then String.ofList (path.reverse.takeWhile (· != '/')).reverse else ""

/-! ## 2. Percent-encoding -/

/-- A control character or a character outside ASCII: never written as it is. -/
def isControl (c : Char) : Bool := c.val < 0x20 || 0x7E < c.val

/-- What a fragment may not hold as it is. -/
def fragmentSet (c : Char) : Bool :=
  isControl c || c == ' ' || c == '"' || c == '<' || c == '>' || c == '\x60'

/-- What a path may not hold as it is. -/
def pathSet (c : Char) : Bool :=
  fragmentSet c || c == '#' || c == '?' || c == '\x7b' || c == '\x7d'

/-- What a segment of a file path may not hold as it is. -/
def segmentSet (c : Char) : Bool := pathSet c || c == '/' || c == '%' || c == '\\'

/-- What a query may not hold as it is; an apostrophe counts under a special scheme. -/
def querySet (special : Bool) (c : Char) : Bool :=
  isControl c || c == ' ' || c == '"' || c == '#' || c == '<' || c == '>' || (special && c == '\'')

/-- A byte as a percent sign and two hexadecimal digits. -/
def encodeByte (b : UInt8) : List Char :=
  let digit (n : Nat) : Char := if n < 10 then Char.ofNat (48 + n) else Char.ofNat (55 + n)
  ['%', digit (b.toNat / 16), digit (b.toNat % 16)]

/-- A character as it is, or byte by byte when it is in the set. -/
def encodeChar (set : Char → Bool) (c : Char) : List Char :=
  if set c then (String.utf8EncodeChar c).flatMap encodeByte else [c]

/-- Text with the characters of the set encoded. -/
def encode (set : Char → Bool) (text : List Char) : List Char := text.flatMap (encodeChar set)

/-! ## 3. Suffixes -/

/-- The spellings of the segment that stands for the directory itself. -/
def isDot (segment : List Char) : Bool :=
  segment == ['.'] || (segment.map Char.toLower) == ['%', '2', 'e']

/-- The spellings of the segment that stands for the directory above. -/
def isDotDot (segment : List Char) : Bool :=
  match segment.map Char.toLower with
  | ['.', '.'] | ['.', '%', '2', 'e'] | ['%', '2', 'e', '.'] | ['%', '2', 'e', '%', '2', 'e'] => true
  | _ => false

/-- The segments of a path after `.` and `..` have been followed; the last one, when it is such a
step, leaves an empty segment. `done` holds the segments already passed, nearest first. -/
def followDots : List (List Char) → List (List Char) → List (List Char)
  | done, [] => done.reverse
  | done, [segment] =>
    if isDotDot segment then ([] :: done.tail).reverse
    else if isDot segment then ([] :: done).reverse
    else (segment :: done).reverse
  | done, segment :: next :: rest =>
    if isDotDot segment then followDots done.tail (next :: rest)
    else if isDot segment then followDots done (next :: rest)
    else followDots (segment :: done) (next :: rest)

/-- The pieces between slashes. -/
def segments : List Char → List (List Char)
  | [] => [[]]
  | c :: cs =>
    if c == '/' then [] :: segments cs
    else
      match segments cs with
      | [] => [[c]]
      | first :: rest => (c :: first) :: rest

/-- A path written from its pieces. -/
def joinSegments (pieces : List (List Char)) : List Char := pieces.flatMap ('/' :: ·)

/-- The path with a suffix. Only a path that starts with a slash has steps to follow; any other path
is kept as it is and encodes no more than control characters. -/
def extendPath (special : Bool) (path suffix : List Char) : List Char :=
  match path with
  | '/' :: rest =>
    let suffix := if special then suffix.map fun c => if c == '\\' then '/' else c else suffix
    joinSegments (followDots [] (segments (rest ++ encode pathSet suffix)))
  | _ => path ++ encode isControl suffix

/-- What an address drops from text before it is read: tabs and line breaks anywhere, control
characters and spaces at the end. -/
def cleanSuffix (suffix : List Char) : List Char :=
  ((suffix.reverse.dropWhile fun c => c.val ≤ 0x20).reverse).filter
    fun c => !(c == '\t' || c == '\n' || c == '\r')

/-- The address with a suffix. The suffix goes to the last part that the address has, and may itself
open a query or a fragment. -/
def append (u : Uri) (suffix : String) : Uri :=
  let p := u.parts
  let suffix := cleanSuffix suffix.toList
  let beforeFragment := suffix.takeWhile (· != '#')
  let fragment := (suffix.dropWhile (· != '#')).drop 1
  let mark := if beforeFragment.length < suffix.length then ['#'] else []
  let whole :=
    if p.fragment != [] then
      p.base ++ p.path ++ p.query ++ p.fragment ++ encode fragmentSet suffix
    else if p.query != [] then
      p.base ++ p.path ++ p.query ++ encode (querySet p.special) beforeFragment ++ mark ++
        encode fragmentSet fragment
    else
      let inPath := beforeFragment.takeWhile (· != '?')
      let query := beforeFragment.dropWhile (· != '?')
      p.base ++ extendPath p.special p.path inPath ++ encode (querySet p.special) query ++ mark ++
        encode fragmentSet fragment
  ⟨String.ofList whole⟩

/-! ## 4. Files -/

/-- The address of a file. Only an absolute path has one. -/
def ofFilePath? (path : String) : Option Uri :=
  match path.toList with
  | '/' :: rest =>
    let pieces := (segments rest).filter fun piece => !(piece == [] || piece == ['.'])
    let body := if pieces == [] then ['/'] else joinSegments (pieces.map (encode segmentSet))
    some ⟨"file://" ++ String.ofList body⟩
  | _ => none

end Uri

end ComponentLens
