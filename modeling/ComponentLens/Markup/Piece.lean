/-
# Pieces of markup

Markup is a sequence of pieces: opening and closing tags, comments, interpolations and text. What a piece
is depends only on the text from its place on, not on the elements around it. A piece always takes
something (`readPiece_append`), so every text is a sequence of pieces.
-/
import ComponentLens.Fault
import ComponentLens.Markup.Directive

namespace ComponentLens.Markup

/-! ## 1. Attributes -/

/-- The name of an attribute, and what follows. `depth` brackets are open around the front; inside brackets
anything goes. -/
def readName (depth : Nat) : List Char → List Char × List Char
  | [] => ([], [])
  | c :: cs =>
    let go (depth : Nat) := (c :: (readName depth cs).1, (readName depth cs).2)
    if c == '[' then go (depth + 1)
    else if c == ']' then go (depth - 1)
    else if 0 < depth then go depth
    else if c == '=' || c == '>' || isTagSpace c || (c == '/' && cs.head? == some '>') then ([], c :: cs)
    else go depth

theorem readName_append (depth : Nat) (cs : List Char) :
    (readName depth cs).1 ++ (readName depth cs).2 = cs := by
  induction cs generalizing depth with
  | nil => rfl
  | cons c cs ih =>
    simp only [readName]
    repeat' split
    all_goals simp [ih]

/-- The rest of a tag behind its name: the attributes, whether the tag closes itself, the text passed and
what follows. -/
structure PropsReading where
  props : List TagProp
  isSelfClosing : Bool
  passed : List Char
  rest : List Char

/-- The reading with more text in front. -/
def PropsReading.prepend (before : List Char) (r : PropsReading) : PropsReading :=
  { r with passed := before ++ r.passed }

/-- The reading with an attribute and more text in front. -/
def PropsReading.cons (prop : TagProp) (before : List Char) (r : PropsReading) : PropsReading :=
  { r.prepend before with props := prop :: r.props }

/-- The name of an attribute behind its first character `c`, and what follows. An equals sign in front is a
name of its own. -/
def nameTail (c : Char) (cs : List Char) : List Char × List Char :=
  if c == '=' then ([], cs) else readName (if c == '[' then 1 else 0) cs

theorem nameTail_append (c : Char) (cs : List Char) : (nameTail c cs).1 ++ (nameTail c cs).2 = cs := by
  rw [nameTail]
  split
  · rfl
  · exact readName_append _ _

theorem length_nameTail_le (c : Char) (cs : List Char) : (nameTail c cs).2.length ≤ cs.length := by
  have whole := congrArg List.length (nameTail_append c cs)
  rw [List.length_append] at whole
  omega

/-- Reads the rest of a tag from offset `pos` on. A tag may end with the text. -/
def readProps (pos : Nat) : List Char → PropsReading
  | [] => ⟨[], false, [], []⟩
  | c :: cs =>
    if c == '>' then ⟨[], false, [c], cs⟩
    else if c == '/' && cs.head? == some '>' then ⟨[], true, [c, '>'], cs.tail⟩
    else if isTagSpace c || c == '/' then (readProps (pos + c.utf8Size) cs).prepend [c]
    else
      let tail := nameTail c cs
      let name := c :: tail.1
      have := length_nameTail_le c cs
      match h : readValue? tail.2 with
      | some v =>
        have := readValue?_length_lt h
        (readProps (pos + byteLength name + byteLength v.passed) v.rest).cons
          (.ofReading pos name (some v)) (name ++ v.passed)
      | none => (readProps (pos + byteLength name) tail.2).cons (.ofReading pos name none) name
termination_by cs => cs.length
decreasing_by all_goals simp +zetaDelta at * <;> omega

theorem readProps_append (pos : Nat) (cs : List Char) :
    (readProps pos cs).passed ++ (readProps pos cs).rest = cs := by
  fun_induction readProps pos cs with
  | case1 => rfl
  | case2 => rfl
  | case3 pos c cs _ h =>
    cases cs <;> simp_all
  | case4 pos c cs _ _ _ ih => simp [PropsReading.prepend, ih]
  | case5 pos c cs _ _ _ tail name _ v h _ ih =>
    have htail : tail.1 ++ tail.2 = cs := nameTail_append c cs
    simp only [PropsReading.cons, PropsReading.prepend, List.append_assoc, ih, readValue?_append h]
    simp [name, htail]
  | case6 pos c cs _ _ _ tail name _ h ih =>
    have htail : tail.1 ++ tail.2 = cs := nameTail_append c cs
    simp only [PropsReading.cons, PropsReading.prepend, List.append_assoc, ih]
    simp [name, htail]

/-! ## 2. Text -/

/-- Whether a `<` with the given text behind it ends a text. -/
def endsText (cs : List Char) : Bool := cs.head?.any fun c => c.isAlpha || c == '/' || c == '!'

/-- The rest of a text behind its first character, and what follows. Where `seesBraces` is unset, two
opening braces do not end the text before the next `<`. -/
def readText (seesBraces : Bool) : List Char → List Char × List Char
  | [] => ([], [])
  | c :: cs =>
    if seesBraces && c == '\x7b' && cs.head? == some '\x7b' then ([], c :: cs)
    else if c == '<' then
      if endsText cs then ([], c :: cs) else (c :: (readText true cs).1, (readText true cs).2)
    else (c :: (readText seesBraces cs).1, (readText seesBraces cs).2)

theorem readText_append (seesBraces : Bool) (cs : List Char) :
    (readText seesBraces cs).1 ++ (readText seesBraces cs).2 = cs := by
  induction cs generalizing seesBraces with
  | nil => rfl
  | cons c cs ih =>
    simp only [readText]
    repeat' split
    all_goals simp [ih]

/-! ## 3. Pieces -/

/-- A piece of markup. -/
inductive Piece where
  | comment (content : String) (span : Span) (isClosed : Bool)
  | text (content : String) (span : Span)
  | interpolation (content : Expression) (span : Span)
  /-- Braces that are never closed make the rest a text. -/
  | unclosedInterpolation (content : String) (span : Span)
  | openTag (tag : Tag)
  | closeTag (name : String) (nameSpan : Span) (span : Span)

/-- What is wrong with the piece itself. -/
def Piece.fault? : Piece → Option Fault
  | .comment _ span isClosed => if isClosed then none else some ⟨.unclosedComment, span⟩
  | .unclosedInterpolation _ span => some ⟨.unclosedInterpolation, ⟨span.start, span.start + 2⟩⟩
  | _ => none

/-- A piece, the text that it is written as, and what follows. -/
structure PieceReading where
  piece : Piece
  passed : List Char
  rest : List Char

/-- Whether the name of a tag can hold the character. -/
def isElementNamePart (c : Char) : Bool := !isTagSpace c && c != '>' && c != '/'

/-- Whether a tag name can start here. -/
def startsName (cs : List Char) : Bool := cs.head?.any Char.isAlpha

/-- The comment behind `<!--` at offset `pos`. -/
def readComment (pos : Nat) (cs : List Char) : PieceReading :=
  let content := (breakOn ['-', '-', '>'] cs).1
  let rest := (breakOn ['-', '-', '>'] cs).2
  let passed := '<' :: '!' :: '-' :: '-' :: (content ++ rest.take 3)
  ⟨.comment (String.ofList content) ⟨pos, pos + byteLength passed⟩ (!rest.isEmpty), passed, rest.drop 3⟩

/-- The closing tag behind `</` at offset `pos`. -/
def readCloseTag (pos : Nat) (cs : List Char) : PieceReading :=
  let name := cs.takeWhile isElementNamePart
  let close := cutAfter '>' (cs.dropWhile isElementNamePart)
  let passed := '<' :: '/' :: (name ++ close.1)
  ⟨.closeTag (String.ofList name) ⟨pos + 2, pos + 2 + byteLength name⟩ ⟨pos, pos + byteLength passed⟩,
    passed, close.2⟩

/-- The opening tag behind `<` at offset `pos`. -/
def readOpenTag (pos : Nat) (cs : List Char) : PieceReading :=
  let name := cs.takeWhile isElementNamePart
  let nameStop := pos + 1 + byteLength name
  let r := readProps nameStop (cs.dropWhile isElementNamePart)
  let passed := '<' :: (name ++ r.passed)
  ⟨.openTag ⟨String.ofList name, ⟨pos + 1, nameStop⟩, none, r.props, r.isSelfClosing,
    ⟨pos, pos + byteLength passed⟩⟩, passed, r.rest⟩

/-- The interpolation behind two opening braces at offset `pos`. -/
def readInterpolation (pos : Nat) (cs : List Char) : PieceReading :=
  let content := (breakOn ['\x7d', '\x7d'] cs).1
  let rest := (breakOn ['\x7d', '\x7d'] cs).2
  let passed := '\x7b' :: '\x7b' :: (content ++ rest.take 2)
  let span : Span := ⟨pos, pos + byteLength passed⟩
  if rest.isEmpty then ⟨.unclosedInterpolation (String.ofList passed) span, passed, []⟩
  else
    ⟨.interpolation ⟨String.ofList content, ⟨pos + 2, pos + 2 + byteLength content⟩⟩ span, passed,
      rest.drop 2⟩

/-- The piece in front of a text that is not empty, at offset `pos`. -/
def readPiece (pos : Nat) (c : Char) (cs : List Char) : PieceReading :=
  if c == '<' && "!--".toList.isPrefixOf cs then readComment pos (cs.drop 3)
  else if c == '<' && cs.head? == some '/' && startsName cs.tail then readCloseTag pos cs.tail
  else if c == '<' && startsName cs then readOpenTag pos cs
  else if c == '\x7b' && cs.head? == some '\x7b' then readInterpolation pos cs.tail
  else
    let text := readText (c.val < 0x80) cs
    let passed := c :: text.1
    ⟨.text (String.ofList passed) ⟨pos, pos + byteLength passed⟩, passed, text.2⟩

/-! ## 4. Nothing is lost -/

theorem readComment_append (pos : Nat) (cs : List Char) :
    (readComment pos cs).passed ++ (readComment pos cs).rest = '<' :: '!' :: '-' :: '-' :: cs := by
  simp only [readComment, List.cons_append, List.append_assoc, List.take_append_drop, breakOn_append]

theorem readCloseTag_append (pos : Nat) (cs : List Char) :
    (readCloseTag pos cs).passed ++ (readCloseTag pos cs).rest = '<' :: '/' :: cs := by
  simp only [readCloseTag, List.cons_append, List.append_assoc, cutAfter_append,
    List.takeWhile_append_dropWhile]

theorem readOpenTag_append (pos : Nat) (cs : List Char) :
    (readOpenTag pos cs).passed ++ (readOpenTag pos cs).rest = '<' :: cs := by
  simp only [readOpenTag, List.cons_append, List.append_assoc, readProps_append,
    List.takeWhile_append_dropWhile]

theorem readInterpolation_append (pos : Nat) (cs : List Char) :
    (readInterpolation pos cs).passed ++ (readInterpolation pos cs).rest =
      '\x7b' :: '\x7b' :: cs := by
  have h := breakOn_append ['\x7d', '\x7d'] cs
  simp only [readInterpolation]
  split
  · simp_all
  · simp only [List.cons_append, List.append_assoc, List.take_append_drop, h]

/-- A piece starts with the character in front, and the piece and what follows make up the text. -/
theorem readPiece_append (pos : Nat) (c : Char) (cs : List Char) :
    (readPiece pos c cs).passed ++ (readPiece pos c cs).rest = c :: cs := by
  unfold readPiece
  split
  next h =>
    simp only [Bool.and_eq_true, beq_iff_eq, List.isPrefixOf_iff_prefix] at h
    obtain ⟨rfl, rest, rfl⟩ := h
    exact readComment_append ..
  split
  next h =>
    simp only [Bool.and_eq_true, beq_iff_eq, List.head?_eq_some_iff] at h
    obtain ⟨⟨rfl, rest, rfl⟩, -⟩ := h
    exact readCloseTag_append ..
  split
  next h =>
    simp only [Bool.and_eq_true, beq_iff_eq] at h
    obtain ⟨rfl, -⟩ := h
    exact readOpenTag_append ..
  split
  next h =>
    simp only [Bool.and_eq_true, beq_iff_eq, List.head?_eq_some_iff] at h
    obtain ⟨rfl, rest, rfl⟩ := h
    exact readInterpolation_append ..
  · simp [readText_append]

theorem readPiece_passed_ne_nil (pos : Nat) (c : Char) (cs : List Char) :
    (readPiece pos c cs).passed ≠ [] := by
  unfold readPiece
  repeat' split
  all_goals simp [readComment, readCloseTag, readOpenTag, readInterpolation]
  split <;> simp

theorem readPiece_rest_le (pos : Nat) (c : Char) (cs : List Char) :
    (readPiece pos c cs).rest.length ≤ cs.length := by
  have h := congrArg List.length (readPiece_append pos c cs)
  have hne := List.length_pos_iff.2 (readPiece_passed_ne_nil pos c cs)
  simp only [List.length_append, List.length_cons] at h
  omega

/-- The pieces of the text from offset `pos` on. -/
def pieces (pos : Nat) : List Char → List Piece
  | [] => []
  | c :: cs =>
    have := readPiece_rest_le pos c cs
    (readPiece pos c cs).piece ::
      pieces (pos + byteLength (readPiece pos c cs).passed) (readPiece pos c cs).rest
termination_by cs => cs.length
decreasing_by simp; omega

end ComponentLens.Markup
