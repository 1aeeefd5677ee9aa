/-
# Values of attributes

The value of an attribute follows its name behind an equals sign, with white space allowed on both sides.
It is quoted, or bare up to white space or the closing bracket of the tag.
-/
import ComponentLens.Text.Span
import ComponentLens.Text.Whitespace

namespace ComponentLens

/-- A value and the text around it: the equals sign with its white space, and the quotes, which are empty
for a bare value. The closing quote may be missing at the end of the text. -/
structure ValueReading where
  lead : List Char
  quote : List Char
  value : List Char
  closing : List Char
  rest : List Char

namespace ValueReading

/-- The text passed. -/
def passed (r : ValueReading) : List Char := r.lead ++ (r.quote ++ (r.value ++ r.closing))

/-- The place of the value with its quotes, when the name ends at `pos`. -/
def quotedSpan (r : ValueReading) (pos : Nat) : Span :=
  ⟨pos + byteLength r.lead, pos + byteLength r.passed⟩

/-- The place of the value without its quotes. -/
def span (r : ValueReading) (pos : Nat) : Span :=
  let start := pos + byteLength r.lead + byteLength r.quote
  ⟨start, start + byteLength r.value⟩

end ValueReading

/-- Whether a bare value can hold the character. -/
def isBareValuePart (c : Char) : Bool := !isTagSpace c && c != '>'

/-- The value in front, behind the given lead. -/
def readBareOrQuoted (lead : List Char) : List Char → ValueReading
  | [] => ⟨lead, [], [], [], []⟩
  | c :: cs =>
    if c == '"' || c == '\'' then
      let rest := cs.dropWhile (· != c)
      ⟨lead, [c], cs.takeWhile (· != c), rest.take 1, rest.drop 1⟩
    else
      ⟨lead, [], (c :: cs).takeWhile isBareValuePart, [], (c :: cs).dropWhile isBareValuePart⟩

/-- The value that follows a name, if an equals sign does. -/
def readValue? (cs : List Char) : Option ValueReading :=
  match cs.dropWhile isTagSpace with
  | '=' :: after =>
    some (readBareOrQuoted (cs.takeWhile isTagSpace ++ '=' :: after.takeWhile isTagSpace)
      (after.dropWhile isTagSpace))
  | _ => none

/-! ## Nothing is lost -/

theorem readBareOrQuoted_append (lead cs : List Char) :
    (readBareOrQuoted lead cs).passed ++ (readBareOrQuoted lead cs).rest = lead ++ cs := by
  cases cs with
  | nil => simp [readBareOrQuoted, ValueReading.passed]
  | cons c cs =>
    simp only [readBareOrQuoted, ValueReading.passed]
    split <;>
      simp only [List.append_assoc, List.cons_append, List.nil_append, List.take_append_drop,
        List.takeWhile_append_dropWhile]

theorem readBareOrQuoted_lead (lead cs : List Char) : (readBareOrQuoted lead cs).lead = lead := by
  cases cs with
  | nil => rfl
  | cons c cs => simp only [readBareOrQuoted]; split <;> rfl

/-- The text passed and the rest make up the text. -/
theorem readValue?_append {cs : List Char} {r : ValueReading} (h : readValue? cs = some r) :
    r.passed ++ r.rest = cs := by
  unfold readValue? at h
  split at h
  next after heq =>
    cases h
    rw [readBareOrQuoted_append]
    simp [← heq]
  · simp at h

/-- A value takes at least its equals sign. -/
theorem readValue?_length_lt {cs : List Char} {r : ValueReading} (h : readValue? cs = some r) :
    r.rest.length < cs.length := by
  have happ := congrArg List.length (readValue?_append h)
  have hlead : 0 < r.lead.length := by
    unfold readValue? at h
    split at h
    · cases h
      rw [readBareOrQuoted_lead]
      simp only [List.length_append, List.length_cons]
      omega
    · simp at h
  simp only [ValueReading.passed, List.length_append] at happ
  omega

end ComponentLens
