/-
Byte lengths of text and cuts at byte offsets.

Every offset of this library counts the bytes of the UTF-8 encoding. Text is scanned one character
at a time, and a character moves the offset by its own size, so an offset that falls inside a
character is never the place of a cut: `splitAtByte?` refuses it.
-/

namespace ComponentLens

/-- The number of bytes that the characters take in UTF-8. -/
def byteLength : List Char → Nat
  | [] => 0
  | c :: cs => c.utf8Size + byteLength cs

@[simp] theorem byteLength_nil : byteLength [] = 0 := rfl

@[simp] theorem byteLength_cons (c : Char) (cs : List Char) :
    byteLength (c :: cs) = c.utf8Size + byteLength cs := rfl

@[simp] theorem byteLength_append (xs ys : List Char) :
    byteLength (xs ++ ys) = byteLength xs + byteLength ys := by
  induction xs with
  | nil => simp
  | cons x xs ih => simp [ih, Nat.add_assoc]

/-- A text has as many bytes as its characters take. -/
theorem byteLength_toList (text : String) : byteLength text.toList = text.utf8ByteSize := by
  suffices h : ∀ cs : List Char, (String.ofList cs).utf8ByteSize = byteLength cs by
    simpa using (h text.toList).symm
  intro cs
  induction cs with
  | nil => rfl
  | cons c cs ih =>
    rw [show String.ofList (c :: cs) = String.singleton c ++ String.ofList cs from by
      rw [String.singleton_eq_ofList, ← String.ofList_append]; rfl]
    simp [ih]

/-- The characters before and after byte offset `n`, unless `n` lies inside a character or past
the end. -/
def splitAtByte? : List Char → Nat → Option (List Char × List Char)
  | cs, 0 => some ([], cs)
  | [], _ + 1 => none
  | c :: cs, n + 1 =>
    if c.utf8Size ≤ n + 1 then
      (splitAtByte? cs (n + 1 - c.utf8Size)).map fun (before, after) => (c :: before, after)
    else none

/-- A cut at the byte length of what stands in front gives back the two parts. -/
theorem splitAtByte?_append (xs ys : List Char) :
    splitAtByte? (xs ++ ys) (byteLength xs) = some (xs, ys) := by
  induction xs with
  | nil => cases ys <;> simp [splitAtByte?]
  | cons x xs ih =>
    have hx := x.utf8Size_pos
    obtain ⟨n, hn⟩ : ∃ n, byteLength (x :: xs) = n + 1 :=
      ⟨byteLength (x :: xs) - 1, by simp; omega⟩
    rw [List.cons_append, hn, splitAtByte?]
    simp only [byteLength_cons] at hn
    rw [if_pos (by omega), show n + 1 - x.utf8Size = byteLength xs by omega, ih]
    rfl

/-- Whatever a cut returns, the parts make up the text and the first has the length asked for. -/
theorem splitAtByte?_eq_some {cs before after : List Char} {n : Nat}
    (h : splitAtByte? cs n = some (before, after)) :
    cs = before ++ after ∧ byteLength before = n := by
  fun_induction splitAtByte? cs n generalizing before after with
  | case1 cs => simp_all
  | case2 => simp at h
  | case3 c cs n hle ih =>
    obtain ⟨⟨xs, ys⟩, hcut, heq⟩ := Option.map_eq_some_iff.1 h
    obtain ⟨rfl, rfl⟩ := Prod.mk.inj heq
    obtain ⟨rfl, hlen⟩ := ih hcut
    exact ⟨rfl, by simp [hlen]; omega⟩
  | case4 => simp at h

end ComponentLens
