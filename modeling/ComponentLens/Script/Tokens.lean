/-
# From text to tokens

`tokenize` cuts the text of a logic block into tokens. Between the tokens stand only white space and
comments.

A slash is the hard case: it starts a regular expression where an operand is expected and is a
punctuator elsewhere. The token in front decides.
-/
import ComponentLens.Script.Lexeme
import ComponentLens.Script.Token

namespace ComponentLens.Script

/-! ## 1. Tables -/

/-- The punctuators of several characters, longest first. Right shifts are not among them, so that
nested type arguments close one at a time. -/
def longPunctuators : List String :=
  ["...", "===", "!==", "**=", "<<=", "&&=", "||=", "??=", "=>", "==", "!=", "<=", ">=", "&&", "||",
    "??", "?.", "++", "--", "+=", "-=", "*=", "/=", "%=", "&=", "|=", "^=", "**", "<<"]

/-- The words after which an operand is expected. -/
def operandKeywords : List String :=
  ["return", "typeof", "instanceof", "in", "of", "new", "delete", "void", "throw", "case", "do",
    "else", "yield", "await"]

/-- Whether a slash behind the given token starts a regular expression. -/
def regExpMayFollow : Option Token → Bool
  | none => true
  | some t =>
    match t.kind with
    | .punct => !([")", "]", "\x7d", "++", "--"].contains t.text)
    | .ident => operandKeywords.contains t.text
    | _ => false

/-! ## 2. What stands in front -/

/-- The piece in front of a text: a token, or a gap between tokens. -/
structure Piece where
  kind : Option TokenKind
  taken : List Char
  rest : List Char
  /-- Whether a line break was passed that counts for the next token. -/
  sawBreak : Bool := false

/-- A delimited lexeme as a piece, or the fault that it lacks its end. -/
def Piece.ofReading (kind : Option TokenKind) (opening : List Char) (cause : Cause) (pos : Nat)
    (r : Reading) : Except Fault Piece :=
  if r.closed then .ok ⟨kind, opening ++ r.taken, r.rest, false⟩
  else .error ⟨cause, ⟨pos, pos + byteLength opening + byteLength r.taken⟩⟩

/-- The punctuator in front: the longest of the table, else a single character. -/
def readPunctuator (c : Char) (cs : List Char) : List Char × List Char :=
  match longPunctuators.find? (·.toList.isPrefixOf (c :: cs)) with
  | some p => (c :: cs.take (p.length - 1), cs.drop (p.length - 1))
  | none => ([c], cs)

/-- The piece in front of a text that is not empty, at offset `pos` and behind the token `previous`. -/
def readPiece (pos : Nat) (previous : Option Token) (c : Char) (cs : List Char) : Except Fault Piece :=
  if c == '\n' then .ok ⟨none, [c], cs, true⟩
  else if isGap c then .ok ⟨none, [c], cs, false⟩
  else if c == '/' && cs.head? == some '/' then
    .ok ⟨none, c :: cs.takeWhile (· != '\n'), cs.dropWhile (· != '\n'), false⟩
  else if c == '/' && cs.head? == some '*' then
    let body := readBlockComment cs.tail
    (Piece.ofReading none [c, '*'] .unterminatedComment pos body).map fun piece =>
      { piece with sawBreak := body.taken.contains '\n' }
  else if c == '/' && regExpMayFollow previous then
    Piece.ofReading (some .regExp) [c] .unterminatedRegExp pos (readRegExp false cs)
  else if c == '"' || c == '\'' then
    Piece.ofReading (some .string) [c] .unterminatedString pos (readString c cs)
  else if c == '`' then
    (readTemplate [⟨pos, 0⟩] (pos + 1) cs).map fun r =>
      ⟨some .template, c :: r.taken, r.rest, r.sawBreak⟩
  else if c.isDigit || (c == '.' && cs.head?.any Char.isDigit) then
    let hex := c == '0' && (cs.head? == some 'x' || cs.head? == some 'X')
    let body := readNumber hex c cs
    .ok ⟨some .number, c :: body.taken, body.rest, false⟩
  else if isNameStart c then
    .ok ⟨some .ident, c :: cs.takeWhile isNamePart, cs.dropWhile isNamePart, false⟩
  else
    let (taken, rest) := readPunctuator c cs
    .ok ⟨some .punct, taken, rest, false⟩

/-! ## 3. Every piece takes something -/

theorem Piece.ofReading_eq_ok {kind : Option TokenKind} {opening : List Char} {cause : Cause}
    {pos : Nat} {r : Reading} {p : Piece} (h : Piece.ofReading kind opening cause pos r = .ok p) :
    p.taken = opening ++ r.taken ∧ p.rest = r.rest := by
  unfold Piece.ofReading at h
  split at h
  · cases h; exact ⟨rfl, rfl⟩
  · cases h

theorem readPunctuator_append (c : Char) (cs : List Char) :
    ∃ tail, (readPunctuator c cs).1 = c :: tail ∧ tail ++ (readPunctuator c cs).2 = cs := by
  unfold readPunctuator
  split <;> simp

/-- A piece starts with the character in front, and the piece and its rest make up the text. -/
theorem readPiece_append {pos : Nat} {previous : Option Token} {c : Char} {cs : List Char} {p : Piece}
    (h : readPiece pos previous c cs = .ok p) :
    ∃ tail, p.taken = c :: tail ∧ tail ++ p.rest = cs := by
  unfold readPiece at h
  split at h
  · cases h; exact ⟨[], rfl, rfl⟩
  split at h
  · cases h; exact ⟨[], rfl, rfl⟩
  split at h
  · cases h; exact ⟨_, rfl, List.takeWhile_append_dropWhile⟩
  split at h
  next hopen =>
    obtain ⟨q, hq, rfl⟩ := map_eq_ok.1 h
    obtain ⟨htaken, hrest⟩ := Piece.ofReading_eq_ok hq
    refine ⟨'*' :: (readBlockComment cs.tail).taken, by simpa using htaken, ?_⟩
    cases cs <;> simp_all [readBlockComment_append]
  split at h
  · obtain ⟨htaken, hrest⟩ := Piece.ofReading_eq_ok h
    exact ⟨_, htaken, by simp [hrest, readRegExp_append]⟩
  split at h
  · obtain ⟨htaken, hrest⟩ := Piece.ofReading_eq_ok h
    exact ⟨_, htaken, by simp [hrest, readString_append]⟩
  split at h
  · obtain ⟨r, hr, rfl⟩ := map_eq_ok.1 h
    exact ⟨_, rfl, readTemplate_append hr⟩
  split at h
  · cases h; exact ⟨_, rfl, readNumber_append ..⟩
  split at h
  · cases h; exact ⟨_, rfl, List.takeWhile_append_dropWhile⟩
  · cases h; exact readPunctuator_append c cs

theorem readPiece_rest_le {pos : Nat} {previous : Option Token} {c : Char} {cs : List Char} {p : Piece}
    (h : readPiece pos previous c cs = .ok p) : p.rest.length ≤ cs.length := by
  obtain ⟨tail, -, rfl⟩ := readPiece_append h
  simp

/-! ## 4. All tokens -/

/-- The tokens of a text that starts at offset `pos`, behind the token `previous`. `broken` tells whether
a line break has been passed since then. -/
def tokensFrom (pos : Nat) (previous : Option Token) (broken : Bool) :
    List Char → Except Fault (List Token)
  | [] => .ok []
  | c :: cs =>
    match h : readPiece pos previous c cs with
    | .error fault => .error fault
    | .ok piece =>
      have := readPiece_rest_le h
      let stop := pos + byteLength piece.taken
      let broken := broken || piece.sawBreak
      match piece.kind with
      | none => tokensFrom stop previous broken piece.rest
      | some kind =>
        let token : Token := ⟨kind, String.ofList piece.taken, ⟨pos, stop⟩, broken⟩
        (tokensFrom stop (some token) false piece.rest).map (token :: ·)
termination_by cs => cs.length
decreasing_by all_goals (simp +zetaDelta at *; omega)

/-- The tokens of a logic block. -/
def tokenize (source : String) : Except Fault (List Token) := tokensFrom 0 none false source.toList

end ComponentLens.Script
