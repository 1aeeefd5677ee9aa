/-
# The opening tag of a block

`readHead` reads the attributes of a tag up to its closing bracket. It passes over what it cannot make
sense of, so it always says how far it went (`readHead_append`).
-/
import ComponentLens.Component.Block
import ComponentLens.Text.AttrValue
import ComponentLens.Text.Search

namespace ComponentLens

/-! ## 1. One attribute -/

/-- Whether a tag name can hold the character. -/
def isTagNamePart (c : Char) : Bool := c.isAlphanum || c == '-' || c == '_'

/-- Whether an attribute name can hold the character. -/
def isAttrNamePart (c : Char) : Bool := !isTagSpace c && c != '=' && c != '>' && c != '/'

/-- The attribute of a name at offset `pos`, with the value that follows it. -/
def BlockAttr.ofReading (pos : Nat) (name : List Char) (value : Option ValueReading) : BlockAttr :=
  let stop := pos + byteLength name
  { name := String.ofList name
    value := value.map (String.ofList ·.value)
    nameSpan := ⟨pos, stop⟩
    valueSpan := value.map (·.span stop)
    quotedSpan := value.map (·.quotedSpan stop) }

/-! ## 2. All attributes -/

/-- The attributes of a tag, the text that they stand in, and the text from the closing bracket on, empty
if there is no closing bracket. -/
structure HeadReading where
  attrs : List BlockAttr
  passed : List Char
  rest : List Char

/-- Reads the attributes from offset `pos` on. -/
def readHead (pos : Nat) : List Char → HeadReading
  | [] => ⟨[], [], []⟩
  | c :: cs =>
    if c == '>' then ⟨[], [], c :: cs⟩
    else if isAttrNamePart c then
      let name := c :: cs.takeWhile isAttrNamePart
      let after := cs.dropWhile isAttrNamePart
      have := (List.dropWhile_sublist (l := cs) isAttrNamePart).length_le
      match h : readValue? after with
      | some v =>
        have := readValue?_length_lt h
        let more := readHead (pos + byteLength name + byteLength v.passed) v.rest
        ⟨.ofReading pos name (some v) :: more.attrs, name ++ (v.passed ++ more.passed), more.rest⟩
      | none =>
        let more := readHead (pos + byteLength name) after
        ⟨.ofReading pos name none :: more.attrs, name ++ more.passed, more.rest⟩
    else
      let more := readHead (pos + c.utf8Size) cs
      ⟨more.attrs, c :: more.passed, more.rest⟩
termination_by cs => cs.length
decreasing_by all_goals simp +zetaDelta at * <;> omega

/-- The two parts make up the text. -/
theorem readHead_append (pos : Nat) (cs : List Char) :
    (readHead pos cs).passed ++ (readHead pos cs).rest = cs := by
  fun_induction readHead pos cs with
  | case1 => rfl
  | case2 => rfl
  | case3 pos c cs _ _ name after _ v h _ more ih =>
    simp only [List.append_assoc, more, ih, readValue?_append h]
    simp [name, after]
  | case4 pos c cs _ _ name after _ h more ih =>
    simp only [List.append_assoc, more, ih]
    simp [name, after]
  | case5 pos c cs _ _ more ih => simp [more, ih]

end ComponentLens
