/-
# Positions lead back to their offsets

An editor names places by line and character, and everything else counts bytes.  Between the two characters of
a text, and at its ends, the two ways agree: the position of such an offset leads back to it
(`Lines.offsetAt?_positionAt?`), whatever ends the lines of the text.

Both directions scan the text from its start, one with a running position and one line by line.  So what is
proved by induction on the text in front of the offset is about the position relative to where the scan stands
(`Position.behind`): a line end moves it one line down, any other character one character on.  A line feed behind
a carriage return makes no line of its own, and the offset between the two is a place in the line that they end.
-/
import ComponentLens.Proofs.Text.Reads
import ComponentLens.Text.Lines

namespace ComponentLens

/-! ## 1. Lines -/

/-- The position `p` of a text that itself starts at the position `base`. -/
def Position.behind (base p : Position) : Position :=
  match p with
  | ⟨0, character⟩ => ⟨base.line, base.character + character⟩
  | ⟨line + 1, character⟩ => ⟨base.line + (line + 1), character⟩

namespace Lines

theorem lines_cons_of_endsAfter {c : Char} {cs : List Char} (h : endsAfter c cs = true) :
    lines (c :: cs) = [c] :: lines cs := by
  rw [lines, if_pos h]

/-- A character that does not end its line stands in front of the first line of the rest. -/
theorem lines_cons_of_not_endsAfter {c : Char} {cs : List Char} (h : ¬ endsAfter c cs = true) :
    ∃ line rest, lines cs = line :: rest ∧ lines (c :: cs) = (c :: line) :: rest := by
  obtain ⟨line, rest, heq⟩ := List.exists_cons_of_ne_nil (lines_ne_nil cs)
  refine ⟨line, rest, heq, ?_⟩
  rw [lines, if_neg h, heq]

/-! ## 2. There and back -/

/-- The offset behind the characters `before` has a position, and the position leads back to it. -/
theorem walk_append (before after : List Char) :
    ∃ p, (∀ base, walk (before ++ after) base (byteLength before) = some (base.behind p)) ∧
      offsetIn? (lines (before ++ after)) p = some (byteLength before) := by
  induction before with
  | nil =>
    obtain ⟨line, rest, heq⟩ := List.exists_cons_of_ne_nil (lines_ne_nil after)
    refine ⟨⟨0, 0⟩, fun base => ?_, by simp [heq, offsetIn?]⟩
    cases after with
    | nil => rfl
    | cons c cs => exact if_pos c.utf8Size_pos
  | cons c before ih =>
    obtain ⟨p, hwalk, hoffset⟩ := ih
    have hstep (base : Position) : walk (c :: (before ++ after)) base (byteLength (c :: before)) =
        some ((if endsAfter c (before ++ after) then ⟨base.line + 1, 0⟩
          else ⟨base.line, base.character + 1⟩ : Position).behind p) := by
      rw [walk, byteLength_cons, if_neg (by omega), Nat.add_sub_cancel_left, hwalk]
    simp only [List.cons_append, hstep]
    by_cases hends : endsAfter c (before ++ after) = true
    · refine ⟨⟨p.line + 1, p.character⟩, fun base => ?_, ?_⟩
      · rw [if_pos hends]
        obtain ⟨_ | line, character⟩ := p
        · simp [Position.behind]
        · simp [Position.behind, Nat.add_assoc, Nat.add_comm 1]
      · rw [lines_cons_of_endsAfter hends, offsetIn?, hoffset]
        simp
    · obtain ⟨line, rest, heq, hcons⟩ := lines_cons_of_not_endsAfter hends
      rw [heq] at hoffset
      obtain ⟨_ | n, character⟩ := p
      · refine ⟨⟨0, character + 1⟩, fun base => ?_, ?_⟩
        · rw [if_neg hends]
          simp [Position.behind, Nat.add_assoc, Nat.add_comm 1]
        · simp only [offsetIn?, Option.some.injEq] at hoffset
          simp [hcons, offsetIn?, hoffset]
      · refine ⟨⟨n + 1, character⟩, fun base => ?_, ?_⟩
        · rw [if_neg hends]
          rfl
        · simp only [offsetIn?, Option.map_eq_some_iff] at hoffset
          obtain ⟨offset, hoffset, hsum⟩ := hoffset
          simp [hcons, offsetIn?, hoffset, Nat.add_assoc, hsum]

/-- **There and back.**  The position of an offset between two characters leads back to the offset. -/
theorem offsetAt?_positionAt? {text : String} {offset : Nat} (h : IsBoundary text.toList offset) :
    ∃ p, positionAt? text offset = some p ∧ offsetAt? text p = some offset := by
  obtain ⟨before, after, htext, rfl⟩ := h
  obtain ⟨p, hwalk, hoffset⟩ := walk_append before after
  refine ⟨(Position.mk 0 0).behind p, ?_, ?_⟩
  · rw [positionAt?, htext, hwalk]
  · rw [offsetAt?, htext]
    obtain ⟨_ | line, character⟩ := p
    · simpa [Position.behind] using hoffset
    · simpa [Position.behind] using hoffset

/-- The range of a span that cuts no character leads back to the span. -/
theorem spanOf?_rangeOf? {text : String} {span : Span} (hspan : span.start ≤ span.stop)
    (hends : span.EndsAt (IsBoundary text.toList)) :
    ∃ range, rangeOf? text span = some range ∧ offsetAt? text range.start = some span.start ∧
      offsetAt? text range.stop = some span.stop ∧ spanOf? text range = some span := by
  obtain ⟨start, hstart, hstartBack⟩ := offsetAt?_positionAt? hends.1
  obtain ⟨stop, hstop, hstopBack⟩ := offsetAt?_positionAt? hends.2
  refine ⟨⟨start, stop⟩, by simp [rangeOf?, hstart, hstop], hstartBack, hstopBack, ?_⟩
  obtain ⟨first, last⟩ := span
  simp only at hspan hstartBack hstopBack
  simp [spanOf?, hstartBack, hstopBack, Span.normalized, hspan]

end Lines

end ComponentLens
