/-
# What stands at a place

Every reader of this library says where it found something: it hands out spans together with texts.
`Span.Reads` is the relation between the two that all of them keep.  A span reads a text when that text
stands between its ends.

Two facts make the relation easy to carry along.  Readers work on what is left of a text, so a fact about
the rest becomes one about the whole once the text in front is named (`Span.reads_append`); and places
nest, so what is read inside a block is read inside the file as soon as the block is
(`Span.Reads.trans`).

Where only the ends of a span are known, not what it was read from, `IsBoundary` is enough: a span whose
ends are boundaries in order reads something (`exists_reads`).
-/
import ComponentLens.Text.AttrValue

namespace ComponentLens

/-! ## 1. Boundaries -/

/-- The offset lies between two characters of the text, or at one of its ends. -/
def IsBoundary (text : List Char) (offset : Nat) : Prop :=
  ∃ before after, text = before ++ after ∧ byteLength before = offset

theorem isBoundary_zero (text : List Char) : IsBoundary text 0 := ⟨[], text, rfl, rfl⟩

theorem isBoundary_append (before after : List Char) :
    IsBoundary (before ++ after) (byteLength before) := ⟨before, after, rfl, rfl⟩

/-- A boundary of a text is one of any longer text. -/
theorem IsBoundary.append_left {text : List Char} {offset : Nat} (h : IsBoundary text offset)
    (more : List Char) : IsBoundary (text ++ more) offset := by
  obtain ⟨before, after, rfl, rfl⟩ := h
  exact ⟨before, after ++ more, by simp, rfl⟩

theorem IsBoundary.le_byteLength {text : List Char} {offset : Nat} (h : IsBoundary text offset) :
    offset ≤ byteLength text := by
  obtain ⟨before, after, rfl, rfl⟩ := h
  simp

/-- No character takes no bytes. -/
theorem eq_nil_of_byteLength_eq_zero {cs : List Char} (h : byteLength cs = 0) : cs = [] := by
  cases cs with
  | nil => rfl
  | cons c cs =>
    have := c.utf8Size_pos
    simp only [byteLength_cons] at h
    omega

theorem byteLength_replicate_space (n : Nat) : byteLength (List.replicate n ' ') = n := by
  induction n with
  | zero => rfl
  | succ n ih =>
    have hspace : ' '.utf8Size = 1 := rfl
    rw [List.replicate_succ, byteLength_cons, ih, hspace, Nat.add_comm]

/-- The bytes of a text. -/
def utf8 (cs : List Char) : List UInt8 := cs.flatMap String.utf8EncodeChar

theorem utf8_append (xs ys : List Char) : utf8 (xs ++ ys) = utf8 xs ++ utf8 ys := List.flatMap_append

theorem length_utf8 (cs : List Char) : (utf8 cs).length = byteLength cs := by
  induction cs with
  | nil => rfl
  | cons c cs ih =>
    rw [show c :: cs = [c] ++ cs from rfl, utf8_append, List.length_append, ih]
    simp [utf8]

/-- A text is cut where its continuation starts, if this starts with a character that stops it. -/
theorem takeWhile_append_of_head? {p : Char → Bool} {cs after : List Char} (hcs : ∀ c ∈ cs, p c = true)
    (hafter : ∀ c ∈ after.head?, p c = false) :
    (cs ++ after).takeWhile p = cs ∧ (cs ++ after).dropWhile p = after := by
  have hstop : after.takeWhile p = [] ∧ after.dropWhile p = after := by
    cases after with
    | nil => exact ⟨rfl, rfl⟩
    | cons c after => simp [hafter c rfl]
  rw [List.takeWhile_append_of_pos hcs, List.dropWhile_append_of_pos hcs, hstop.1, hstop.2, List.append_nil]
  exact ⟨rfl, rfl⟩

/-- Letters by their codes. -/
theorem isAlpha_iff {c : Char} : c.isAlpha = true ↔
    (c.val ≥ 'A'.val ∧ c.val ≤ 'Z'.val) ∨ (c.val ≥ 'a'.val ∧ c.val ≤ 'z'.val) := by
  show (decide (c.val ≥ 'A'.val ∧ c.val ≤ 'Z'.val) || (decide (c.val ≥ 'a'.val) && decide (c.val ≤ 'z'.val))) = true ↔ _
  simp only [Bool.or_eq_true, Bool.and_eq_true, decide_eq_true_eq]

/-- A letter or digit takes one byte. -/
theorem utf8Size_of_isAlphanum {c : Char} (h : c.isAlphanum = true) : c.utf8Size = 1 := by
  rw [Char.utf8Size_eq_one_iff, UInt32.le_iff_toNat_le]
  change ((decide ('A'.val ≤ c.val ∧ c.val ≤ 'Z'.val) || (decide ('a'.val ≤ c.val) &&
    decide (c.val ≤ 'z'.val))) || (decide ('0'.val ≤ c.val) && decide (c.val ≤ '9'.val))) = true at h
  simp only [Bool.or_eq_true, Bool.and_eq_true, decide_eq_true_eq, UInt32.le_iff_toNat_le] at h
  rcases h with (⟨-, h⟩ | ⟨-, h⟩) | ⟨-, h⟩
  · exact Nat.le_trans h (by decide)
  · exact Nat.le_trans h (by decide)
  · exact Nat.le_trans h (by decide)

/-- Of two ways to cut a text, the one that cuts later takes all that the other takes. -/
theorem exists_append_of_byteLength_le {as bs cs ds : List Char} (h : as ++ bs = cs ++ ds)
    (hle : byteLength as ≤ byteLength cs) : ∃ inside, cs = as ++ inside ∧ bs = inside ++ ds := by
  rcases List.append_eq_append_iff.1 h with ⟨inside, hcs, hbs⟩ | ⟨inside, has, hds⟩
  · exact ⟨inside, hcs, hbs⟩
  · have hlen := congrArg byteLength has
    rw [byteLength_append] at hlen
    obtain rfl : inside = [] := eq_nil_of_byteLength_eq_zero (by omega)
    exact ⟨[], by simpa using has.symm, by simpa using hds.symm⟩

namespace Span

/-! ## 2. Reading -/

/-- The characters `inside` stand in the text at the span. -/
def Reads (s : Span) (text inside : List Char) : Prop :=
  ∃ before after, text = before ++ (inside ++ after) ∧
    s = ⟨byteLength before, byteLength before + byteLength inside⟩

theorem reads_append (before inside after : List Char) :
    Reads ⟨byteLength before, byteLength before + byteLength inside⟩ (before ++ (inside ++ after))
      inside := ⟨before, after, rfl, rfl⟩

/-- A text is read by the span over all of it. -/
theorem reads_whole (text : List Char) : Reads ⟨0, byteLength text⟩ text text :=
  ⟨[], [], by simp, by simp⟩

variable {s : Span} {text inside : List Char}

theorem Reads.cut? (h : s.Reads text inside) : s.cut? text = some inside := by
  obtain ⟨before, after, rfl, rfl⟩ := h
  exact cut?_append before inside after

theorem Reads.slice {text : String} (h : s.Reads text.toList inside) :
    s.slice text = String.ofList inside := by simp [Span.slice, h.cut?]

theorem Reads.start_le_stop (h : s.Reads text inside) : s.start ≤ s.stop := by
  obtain ⟨before, after, -, rfl⟩ := h
  exact Nat.le_add_right _ _

theorem Reads.stop_eq (h : s.Reads text inside) : s.stop = s.start + byteLength inside := by
  obtain ⟨before, after, -, rfl⟩ := h
  rfl

theorem Reads.length_eq (h : s.Reads text inside) : s.length = byteLength inside := by
  rw [Span.length, h.stop_eq, Nat.add_sub_cancel_left]

theorem Reads.isBoundary_start (h : s.Reads text inside) : IsBoundary text s.start := by
  obtain ⟨before, after, rfl, rfl⟩ := h
  exact isBoundary_append before (inside ++ after)

theorem Reads.isBoundary_stop (h : s.Reads text inside) : IsBoundary text s.stop := by
  obtain ⟨before, after, rfl, rfl⟩ := h
  exact ⟨before ++ inside, after, by simp, by simp⟩

/-- **Places nest.**  What stands at a place of an inner text stands in the outer text, at the place moved
by the start of the inner one. -/
theorem Reads.trans {outer : Span} {whole : List Char} (h : s.Reads text inside)
    (houter : outer.Reads whole text) : (s.shift outer.start).Reads whole inside := by
  obtain ⟨front, back, rfl, rfl⟩ := h
  obtain ⟨before, after, rfl, rfl⟩ := houter
  exact ⟨before ++ front, back ++ after, by simp, by simp [shift]; omega⟩

/-- Behind the first character stand the others. -/
theorem Reads.tail {c : Char} {cs : List Char} (h : s.Reads text (c :: cs)) :
    Reads ⟨s.start + c.utf8Size, s.stop⟩ text cs := by
  obtain ⟨before, after, rfl, rfl⟩ := h
  exact ⟨before ++ [c], after, by simp, by simp [Nat.add_assoc]⟩

/-- What stands in a text at a place inside another stands in the text read there. -/
theorem Reads.within {outer : Span} {whole : List Char} (h : s.Reads text inside)
    (houter : outer.Reads text whole) (hstart : outer.start ≤ s.start) (hstop : s.stop ≤ outer.stop) :
    Reads ⟨s.start - outer.start, s.stop - outer.start⟩ whole inside := by
  obtain ⟨front, back, htext, rfl⟩ := h
  obtain ⟨before, after, rfl, rfl⟩ := houter
  simp only at hstart hstop ⊢
  obtain ⟨skipped, rfl, hrest⟩ := exists_append_of_byteLength_le htext hstart
  rw [← List.append_assoc] at hrest
  simp only [byteLength_append] at hstop
  obtain ⟨behind, rfl, -⟩ := exists_append_of_byteLength_le hrest.symm (by simp; omega)
  exact ⟨skipped, behind, by simp, by simp; omega⟩

/-- A span reads exactly what a cut at it gives. -/
theorem cut?_eq_some_iff : s.cut? text = some inside ↔ s.Reads text inside := by
  refine ⟨?_, Reads.cut?⟩
  intro h
  unfold Span.cut? at h
  split at h
  next hle =>
    obtain ⟨⟨before, rest⟩, hbefore, h⟩ := Option.bind_eq_some_iff.1 h
    obtain ⟨⟨found, after⟩, hfound, h⟩ := Option.bind_eq_some_iff.1 h
    cases h
    obtain ⟨rfl, hstart⟩ := splitAtByte?_eq_some hbefore
    obtain ⟨rfl, hlength⟩ := splitAtByte?_eq_some hfound
    refine ⟨before, after, rfl, ?_⟩
    rw [hstart, hlength, Nat.add_sub_cancel' hle]
  next => cases h

/-- **A place inside a place.**  What a cut gives there it gives in the text that is read at the outer
place. -/
theorem Reads.cut?_inside {outer : Span} {whole : List Char} (houter : outer.Reads text whole)
    (hs : s.start ≤ s.stop) (hin : outer.contains s = true) :
    s.cut? text = Span.cut? ⟨s.start - outer.start, s.stop - outer.start⟩ whole := by
  simp only [Span.contains, Bool.and_eq_true, decide_eq_true_eq] at hin
  refine Option.ext fun found => ?_
  simp only [cut?_eq_some_iff]
  constructor
  · intro h
    exact h.within houter hin.1 hin.2
  · intro h
    have hback := h.trans houter
    simp only [shift] at hback
    rwa [Nat.sub_add_cancel hin.1, Nat.sub_add_cancel (by omega)] at hback

/-- A span between two boundaries in order reads something. -/
theorem exists_reads {start stop : Nat} (hstart : IsBoundary text start) (hstop : IsBoundary text stop)
    (hle : start ≤ stop) : ∃ inside, Reads ⟨start, stop⟩ text inside := by
  obtain ⟨front, back, rfl, rfl⟩ := hstart
  obtain ⟨before, after, heq, rfl⟩ := hstop
  obtain ⟨inside, rfl, rfl⟩ := exists_append_of_byteLength_le heq hle
  exact ⟨inside, front, after, rfl, by simp⟩

/-- Both ends of the span have the property. -/
def EndsAt (P : Nat → Prop) (s : Span) : Prop := P s.start ∧ P s.stop

theorem EndsAt.mono {P Q : Nat → Prop} (h : s.EndsAt P) (hPQ : ∀ n, P n → Q n) : s.EndsAt Q :=
  ⟨hPQ _ h.1, hPQ _ h.2⟩

end Span

/-! ## 3. Values of attributes -/

/-- The value of an attribute stands where its reading says, when the name ends behind `before`. -/
theorem ValueReading.reads_span (v : ValueReading) (before rest : List Char) :
    (v.span (byteLength before)).Reads (before ++ (v.passed ++ rest)) v.value :=
  ⟨before ++ (v.lead ++ v.quote), v.closing ++ rest, by simp [passed], by simp [span]; omega⟩

end ComponentLens
