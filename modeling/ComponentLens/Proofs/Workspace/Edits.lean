/-
# Edits and their inverses

An editor sends an edit as a range of positions and a replacement.  Positions are resolved against the lines of
the text as it is, and an edit can change the lines around it: a line feed that is written behind a carriage
return joins its line end, and taking it away leaves the carriage return as one.  The edit that takes an edit back
is therefore resolved against other lines than the edit itself.

It does not matter.  A range names the span that it was made from on the text that it was made on
(`Lines.spanOf?_rangeOf?`), so an edit replaces exactly that span (`OpenFiles.change?_rangeOf?`), and then the
edit of the span that the replacement takes up restores the text (`OpenFiles.change?_undone`).
-/
import ComponentLens.Proofs.Text.Positions
import ComponentLens.Workspace.OpenFiles

namespace ComponentLens

/-! ## 1. One edit -/

/-- A change replaces what stands between the offsets of its range. -/
theorem OpenFile.changedText_of_offsets {text before inside after : String} {range : Range}
    (htext : text = before ++ inside ++ after)
    (hstart : Lines.offsetAt? text range.start = some before.utf8ByteSize)
    (hstop : Lines.offsetAt? text range.stop = some (before.utf8ByteSize + inside.utf8ByteSize))
    (replacement : String) :
    changedText text ⟨some range, replacement⟩ = before ++ replacement ++ after := by
  have hchars : text.toList = before.toList ++ (inside.toList ++ after.toList) := by simp [htext]
  have hreplace := Span.replace?_append before.toList inside.toList after.toList replacement.toList
  rw [byteLength_toList, byteLength_toList] at hreplace
  simp [changedText, hstart, hstop, hchars, hreplace, String.append_assoc]

namespace OpenFiles

variable {o : OpenFiles} {uri : Uri} {file : OpenFile}

/-- What changing an open file leaves there. -/
theorem get?_change? (h : o.get? uri = some file) (version : Int) (changes : List TextChange) :
    ∃ o', o.change? uri version changes = some o' ∧ o'.get? uri = some (file.change version changes) := by
  refine ⟨_, by rw [change?, h]; rfl, ?_⟩
  simp [get?]

/-- **One edit.**  The range of a span leads back to the span, and the change of that range replaces the span and
nothing else. -/
theorem change?_rangeOf? (h : o.get? uri = some file) {before inside after : String}
    (htext : file.text = before ++ inside ++ after) (replacement : String) (version : Int) :
    let span : Span := ⟨before.utf8ByteSize, before.utf8ByteSize + inside.utf8ByteSize⟩
    ∃ range, o.rangeOf? uri span = some range ∧ Lines.spanOf? file.text range = some span ∧
      ∃ o', o.change? uri version [⟨some range, replacement⟩] = some o' ∧
        o'.get? uri = some { file with version, text := before ++ replacement ++ after } := by
  intro span
  have hends : span.EndsAt (IsBoundary file.text.toList) :=
    ⟨⟨before.toList, (inside ++ after).toList, by simp [htext], byteLength_toList before⟩,
      ⟨(before ++ inside).toList, after.toList, by simp [htext], by simp [span, byteLength_toList]⟩⟩
  obtain ⟨range, hrange, hstart, hstop, hback⟩ :=
    Lines.spanOf?_rangeOf? (Nat.le_add_right _ _ : span.start ≤ span.stop) hends
  obtain ⟨o', hchange, hget⟩ := get?_change? h version [⟨some range, replacement⟩]
  refine ⟨range, by rw [OpenFiles.rangeOf?, h]; exact hrange, hback, o', hchange, ?_⟩
  rw [hget]
  simp [OpenFile.change, OpenFile.changedText_of_offsets htext hstart hstop]

/-! ## 2. There and back -/

/-- A span that cuts no character splits the text in three. -/
theorem exists_split {text : String} {span : Span} (hspan : span.start ≤ span.stop)
    (hends : span.EndsAt (IsBoundary text.toList)) :
    ∃ before after, text = before ++ span.slice text ++ after ∧ span =
      ⟨before.utf8ByteSize, before.utf8ByteSize + (span.slice text).utf8ByteSize⟩ := by
  obtain ⟨inside, hreads⟩ := Span.exists_reads hends.1 hends.2 hspan
  have hslice : span.slice text = String.ofList inside := hreads.slice
  obtain ⟨before, after, htext, hplace⟩ := hreads
  refine ⟨String.ofList before, String.ofList after, ?_, ?_⟩
  · rw [hslice, ← String.toList_inj, htext]
    simp
  · rw [hslice, ← byteLength_toList, ← byteLength_toList, String.toList_ofList, String.toList_ofList]
    exact hplace

/-- **Edits and their inverses.**  The range of a span of an open file leads back to the span.  The change of that
range gives the text with the span replaced and nothing else, and the change of what the replacement then takes up
gives the text back. -/
theorem change?_undone (h : o.get? uri = some file) {span : Span} (hspan : span.start ≤ span.stop)
    (hends : span.EndsAt (IsBoundary file.text.toList)) (replacement : String) (version later : Int) :
    ∃ range before after, o.rangeOf? uri span = some range ∧ Lines.spanOf? file.text range = some span ∧
      file.text = before ++ span.slice file.text ++ after ∧ before.utf8ByteSize = span.start ∧
      (before ++ span.slice file.text).utf8ByteSize = span.stop ∧
      ∃ o', o.change? uri version [⟨some range, replacement⟩] = some o' ∧
        o'.get? uri = some { file with version, text := before ++ replacement ++ after } ∧
        ∃ back, o'.rangeOf? uri ⟨span.start, span.start + replacement.utf8ByteSize⟩ = some back ∧
          ∃ o'', o'.change? uri later [⟨some back, span.slice file.text⟩] = some o'' ∧
            o''.get? uri = some { file with version := later } := by
  obtain ⟨before, after, htext, hplace⟩ := exists_split hspan hends
  have hstart : before.utf8ByteSize = span.start := (congrArg Span.start hplace).symm
  have hstop : before.utf8ByteSize + (span.slice file.text).utf8ByteSize = span.stop :=
    (congrArg Span.stop hplace).symm
  obtain ⟨range, hrange, hback, o', hchange, hget⟩ := change?_rangeOf? h htext replacement version
  obtain ⟨back, hbackRange, -, o'', hundo, hrestored⟩ :=
    change?_rangeOf? hget rfl (span.slice file.text) later
  rw [← hplace] at hrange hback
  rw [hstart] at hbackRange
  refine ⟨range, before, after, hrange, hback, htext, hstart, ?_, o', hchange, hget, back, hbackRange, o'',
    hundo, ?_⟩
  · rw [String.utf8ByteSize_append, hstop]
  · rw [hrestored, ← htext]

/-- A file in which taking away one character joins a carriage return and a line feed. -/
def joinedLineEnds : OpenFile := ⟨⟨"file:///A.vue"⟩, 1, "vue", "é\rx\nb"⟩

/-- The theorem where the second range is resolved against other lines than the first. -/
theorem change?_undone_joinedLineEnds :
    let o := OpenFiles.insert {} joinedLineEnds
    o.get? joinedLineEnds.uri = some joinedLineEnds ∧
      o.rangeOf? joinedLineEnds.uri ⟨3, 4⟩ = some ⟨⟨1, 0⟩, ⟨1, 1⟩⟩ ∧
      Lines.rangeOf? "é\r\nb" ⟨3, 3⟩ = some ⟨⟨0, 2⟩, ⟨0, 2⟩⟩ ∧
      ∃ range o' back o'', o.rangeOf? joinedLineEnds.uri ⟨3, 4⟩ = some range ∧
        o.change? joinedLineEnds.uri 2 [⟨some range, ""⟩] = some o' ∧
        o'.rangeOf? joinedLineEnds.uri ⟨3, 3⟩ = some back ∧
        o'.change? joinedLineEnds.uri 3 [⟨some back, Span.slice ⟨3, 4⟩ joinedLineEnds.text⟩] = some o'' ∧
        o''.get? joinedLineEnds.uri = some { joinedLineEnds with version := 3 } := by
  intro o
  have hopen : o.get? joinedLineEnds.uri = some joinedLineEnds := by decide
  have hends : (Span.mk 3 4).EndsAt (IsBoundary joinedLineEnds.text.toList) :=
    ⟨⟨['é', '\r'], ['x', '\n', 'b'], by decide, by decide⟩,
      ⟨['é', '\r', 'x'], ['\n', 'b'], by decide, by decide⟩⟩
  obtain ⟨range, -, -, hrange, -, -, -, -, o', hchange, -, back, hback, o'', hundo, hrestored⟩ :=
    change?_undone hopen (by decide : (3 : Nat) ≤ 4) hends "" 2 3
  exact ⟨hopen, by decide, by decide, range, o', back, o'', hrange, hchange, hback, hundo, hrestored⟩

end OpenFiles

end ComponentLens
