/-
# Reading one lexeme

Each reader takes the text behind the character that starts a lexeme and says how far the lexeme goes.
A `Reading` always splits the text in two (`taken_append_rest`), also when the end of the lexeme is
missing; then `taken` is what was passed before the reader gave up.
-/
import ComponentLens.Fault

namespace ComponentLens.Script

/-! ## 1. Readings -/

/-- How far a lexeme goes. -/
structure Reading where
  taken : List Char
  rest : List Char
  /-- Whether the end of the lexeme was found. -/
  closed : Bool

/-- The reading with one more character in front. -/
def Reading.cons (c : Char) (r : Reading) : Reading := { r with taken := c :: r.taken }

/-- The characters of a name: ASCII letters, digits, underscore, dollar sign, and anything that is not
ASCII. -/
def isNameStart (c : Char) : Bool := c.isAlpha || c == '_' || c == '$' || 0x80 ≤ c.val

@[inherit_doc isNameStart]
def isNamePart (c : Char) : Bool := isNameStart c || c.isDigit

/-- White space between tokens, line feeds apart. -/
def isGap (c : Char) : Bool := c == ' ' || c == '\t' || c == '\r' || c == '\x0b' || c == '\x0c'

/-! ## 2. Strings, comments, regular expressions, numbers -/

/-- A string behind its opening quote. A backslash takes the next character with it, and a line feed
ends the string without closing it. -/
def readString (quote : Char) : List Char → Reading
  | [] => ⟨[], [], false⟩
  | c :: cs =>
    if c == '\\' then
      match cs with
      | [] => ⟨[c], [], false⟩
      | d :: cs => ((readString quote cs).cons d).cons c
    else if c == '\n' then ⟨[], c :: cs, false⟩
    else if c == quote then ⟨[c], cs, true⟩
    else (readString quote cs).cons c

/-- A block comment behind its opening. -/
def readBlockComment : List Char → Reading
  | [] => ⟨[], [], false⟩
  | '*' :: '/' :: cs => ⟨['*', '/'], cs, true⟩
  | c :: cs => (readBlockComment cs).cons c

/-- A regular expression behind its opening slash, with its flags. A slash inside a character class
does not close it. -/
def readRegExp (inClass : Bool) : List Char → Reading
  | [] => ⟨[], [], false⟩
  | c :: cs =>
    if c == '\\' then
      match cs with
      | [] => ⟨[c], [], false⟩
      | d :: cs => ((readRegExp inClass cs).cons d).cons c
    else if c == '\n' then ⟨[], c :: cs, false⟩
    else if c == '[' then (readRegExp true cs).cons c
    else if c == ']' then (readRegExp false cs).cons c
    else if c == '/' && !inClass then ⟨c :: cs.takeWhile isNamePart, cs.dropWhile isNamePart, true⟩
    else (readRegExp inClass cs).cons c

/-- A number behind its first character. A sign belongs to it right behind an exponent mark, unless the
number is hexadecimal. -/
def readNumber (hex : Bool) (previous : Char) : List Char → Reading
  | [] => ⟨[], [], true⟩
  | c :: cs =>
    let isSign := (c == '+' || c == '-') && !hex && (previous == 'e' || previous == 'E')
    if c.isAlphanum || c == '.' || c == '_' || isSign then (readNumber hex c cs).cons c
    else ⟨[], c :: cs, true⟩

/-! ## 3. Nothing is lost -/

theorem readString_append (quote : Char) (cs : List Char) :
    (readString quote cs).taken ++ (readString quote cs).rest = cs := by
  fun_induction readString quote cs <;> simp_all [Reading.cons]

theorem readBlockComment_append (cs : List Char) :
    (readBlockComment cs).taken ++ (readBlockComment cs).rest = cs := by
  fun_induction readBlockComment cs <;> simp_all [Reading.cons]

theorem readRegExp_append (inClass : Bool) (cs : List Char) :
    (readRegExp inClass cs).taken ++ (readRegExp inClass cs).rest = cs := by
  fun_induction readRegExp inClass cs <;> simp_all [Reading.cons]

theorem readNumber_append (hex : Bool) (previous : Char) (cs : List Char) :
    (readNumber hex previous cs).taken ++ (readNumber hex previous cs).rest = cs := by
  fun_induction readNumber hex previous cs <;> simp_all [Reading.cons]

theorem readString_rest_le (quote : Char) (cs : List Char) :
    (readString quote cs).rest.length ≤ cs.length := by
  have h := congrArg List.length (readString_append quote cs)
  simp at h; omega

theorem readBlockComment_rest_le (cs : List Char) :
    (readBlockComment cs).rest.length ≤ cs.length := by
  have h := congrArg List.length (readBlockComment_append cs)
  simp at h; omega

/-! ## 4. Template literals -/

/-- A template literal that is being read: where it starts, and how many braces its open substitution
has; none means that the reader is in the literal's own text. -/
structure Frame where
  start : Nat
  braces : Nat

/-- A template literal that was read to its end. -/
structure TemplateReading where
  taken : List Char
  rest : List Char
  /-- Whether a comment in a substitution held a line break. -/
  sawBreak : Bool

/-- The reading with more text in front, and whether a line break was seen there. -/
def TemplateReading.prepend (cs : List Char) (sawBreak : Bool) (r : TemplateReading) : TemplateReading :=
  { r with taken := cs ++ r.taken, sawBreak := sawBreak || r.sawBreak }

/-- A template literal behind its opening backquote, at offset `pos`. The frames are the literals that
are open, innermost first. Substitutions hold strings, comments and further literals, and end at the
brace that closes them. -/
def readTemplate (frames : List Frame) (pos : Nat) (cs : List Char) : Except Fault TemplateReading :=
  match frames, cs with
  | [], cs => .ok ⟨[], cs, false⟩
  | frame :: _, [] => .error ⟨.unterminatedTemplateLiteral, ⟨frame.start, pos⟩⟩
  | frame :: outer, c :: cs =>
    let after := pos + c.utf8Size
    if frame.braces = 0 then
      if c == '\\' then
        match cs with
        | [] => .error ⟨.unterminatedTemplateLiteral, ⟨frame.start, after⟩⟩
        | d :: cs =>
          (readTemplate (frame :: outer) (after + d.utf8Size) cs).map (·.prepend [c, d] false)
      else if c == '`' then (readTemplate outer after cs).map (·.prepend [c] false)
      else
        match c, cs with
        | '$', '{' :: cs =>
          (readTemplate (⟨frame.start, 1⟩ :: outer) (after + 1) cs).map (·.prepend ['$', '{'] false)
        | c, cs => (readTemplate (frame :: outer) after cs).map (·.prepend [c] false)
    else if c == '{' then
      (readTemplate (⟨frame.start, frame.braces + 1⟩ :: outer) after cs).map (·.prepend [c] false)
    else if c == '}' then
      (readTemplate (⟨frame.start, frame.braces - 1⟩ :: outer) after cs).map (·.prepend [c] false)
    else if c == '"' || c == '\'' then
      let body := readString c cs
      let stop := after + byteLength body.taken
      have := readString_rest_le c cs
      if body.closed then
        (readTemplate (frame :: outer) stop body.rest).map (·.prepend (c :: body.taken) false)
      else .error ⟨.unterminatedString, ⟨pos, stop⟩⟩
    else if c == '`' then
      (readTemplate (⟨pos, 0⟩ :: frame :: outer) after cs).map (·.prepend [c] false)
    else
      match c, cs with
      | '/', '*' :: cs =>
        let body := readBlockComment cs
        let stop := after + 1 + byteLength body.taken
        have := readBlockComment_rest_le cs
        if body.closed then
          (readTemplate (frame :: outer) stop body.rest).map
            (·.prepend ('/' :: '*' :: body.taken) (body.taken.contains '\n'))
        else .error ⟨.unterminatedComment, ⟨pos, stop⟩⟩
      | c, cs => (readTemplate (frame :: outer) after cs).map (·.prepend [c] false)
termination_by cs.length
decreasing_by all_goals simp_wf <;> simp +zetaDelta at * <;> omega

/-! ## 5. Nothing is lost in template literals -/

theorem map_eq_ok {α β : Type} {f : α → β} {x : Except Fault α} {b : β} :
    x.map f = .ok b ↔ ∃ a, x = .ok a ∧ f a = b := by
  cases x <;> simp [Except.map]

theorem readTemplate_append {frames : List Frame} {pos : Nat} {cs : List Char}
    {r : TemplateReading} (h : readTemplate frames pos cs = .ok r) : r.taken ++ r.rest = cs := by
  fun_induction readTemplate frames pos cs generalizing r <;>
    simp only [map_eq_ok, Except.ok.injEq, reduceCtorEq] at h
  case case1 => subst h; rfl
  all_goals
    obtain ⟨a, ha, rfl⟩ := h
    rename_i ih
    have := ih ha
    simp_all +zetaDelta [TemplateReading.prepend, readString_append, readBlockComment_append]

end ComponentLens.Script
