/-
# What a mapping shows

A mapping of a generated text has two ends.  `MappedText.Shows` relates them: what the text holds at the
target of a mapping is related to the source of that mapping.  Which mappings count, and what the relation
is, is left open, so that one set of lemmas serves every kind of document.

The relation survives all ways to put texts together.  A piece knows nothing of the text around it, and a
mapping moves with its piece (`shows_concat`); moving the sources moves the relation (`Shows.shiftSource`).
-/
import ComponentLens.Proofs.Mapping.Closed
import ComponentLens.Proofs.Text.Reads

namespace ComponentLens

namespace MappedText

variable {α : Type}

/-- Every mapping that counts shows, at its target, a text that is related to its source. -/
def Shows (counts : α → MatchMode → Prop) (rel : Span → List Char → Prop) (t : MappedText α) : Prop :=
  ∀ m ∈ t.mappings, counts m.data m.mode → ∃ shown, m.target.Reads t.text.toList shown ∧ rel m.source shown

variable {counts : α → MatchMode → Prop} {rel : Span → List Char → Prop}

/-! ## 1. Pieces -/

@[simp] theorem shows_plain (text : String) : (plain text : MappedText α).Shows counts rel := by
  simp [Shows, plain]

/-- Text that is mapped nowhere stays so when more of it follows. -/
@[simp] theorem plain_append (text more : String) :
    (plain text ++ plain more : MappedText α) = plain (text ++ more) := rfl

/-- The span over a whole text, counted from its start. -/
theorem reads_size (text : String) : (Span.mk 0 text.utf8ByteSize).Reads text.toList text.toList := by
  rw [← byteLength_toList]
  exact Span.reads_whole text.toList

theorem shows_mapped {code : String} {source : Span} {mode : MatchMode} {data : α}
    (h : counts data mode → rel source code.toList) : (mapped code source mode data).Shows counts rel := by
  intro m hm hcounts
  obtain rfl := List.mem_singleton.1 hm
  exact ⟨_, reads_size code, h hcounts⟩

/-- A mapping that is laid over text still to come must not count: its own piece holds nothing. -/
theorem shows_ahead {code : String} {source : Span} {mode : MatchMode} {data : α}
    (h : ¬counts data mode) : (ahead code source mode data).Shows counts rel := by
  intro m hm hcounts
  obtain rfl := List.mem_singleton.1 hm
  exact absurd hcounts h

theorem Shows.covering {t : MappedText α} (ht : t.Shows counts rel) {source : Span} {mode : MatchMode}
    {data : α} (h : counts data mode → rel source t.text.toList) :
    (t.covering source mode data).Shows counts rel := by
  intro m hm hcounts
  rcases List.mem_append.1 hm with hm | hm
  · exact ht m hm hcounts
  · obtain rfl := List.mem_singleton.1 hm
    exact ⟨_, reads_size t.text, h hcounts⟩

/-! ## 2. Joining -/

theorem mem_mappingsFrom {pos : Nat} {ts : List (MappedText α)} {m : Mapping α}
    (h : m ∈ mappingsFrom pos ts) :
    ∃ before t after, ts = before ++ t :: after ∧
      ∃ m' ∈ t.mappings, m = m'.shiftTarget (pos + byteLength (String.join (before.map (·.text))).toList) := by
  induction ts generalizing pos with
  | nil => simp [mappingsFrom] at h
  | cons t ts ih =>
    rcases List.mem_append.1 h with h | h
    · obtain ⟨m', hm', rfl⟩ := List.mem_map.1 h
      exact ⟨[], t, ts, rfl, m', hm', by simp⟩
    · obtain ⟨before, u, after, rfl, m', hm', rfl⟩ := ih h
      refine ⟨t :: before, u, after, rfl, m', hm', ?_⟩
      simp [size, ← byteLength_toList, String.toList_join, Nat.add_assoc]

/-- **Joining.**  What the pieces show, the joined text shows. -/
theorem shows_concat {ts : List (MappedText α)} (h : ∀ t ∈ ts, t.Shows counts rel) :
    (concat ts).Shows counts rel := by
  intro m hm hcounts
  obtain ⟨before, t, after, rfl, m', hm', rfl⟩ := mem_mappingsFrom hm
  obtain ⟨shown, hreads, hrel⟩ := h t (by simp) m' hm' hcounts
  have hreads := hreads.trans (Span.reads_append (String.join (before.map (·.text))).toList t.text.toList
    (String.join (after.map (·.text))).toList)
  refine ⟨shown, ?_, hrel⟩
  have htext : (concat (before ++ t :: after)).text.toList = (String.join (before.map (·.text))).toList ++
      (t.text.toList ++ (String.join (after.map (·.text))).toList) := by
    simp [concat, String.toList_join]
  rw [htext]
  simpa [Mapping.shiftTarget] using hreads

/-- What mappings show is closed under joining. -/
theorem shows_closed : Closed (Shows counts rel : MappedText α → Prop) where
  plain := shows_plain
  concat := fun _ => shows_concat

/-- Sources that move take the relation along. -/
theorem Shows.shiftSource {t : MappedText α} (h : t.Shows counts rel) {rel' : Span → List Char → Prop}
    {base : Nat} (hrel : ∀ source shown, rel source shown → rel' (source.shift base) shown) :
    (t.shiftSource base).Shows counts rel' := by
  intro m hm hcounts
  obtain ⟨m', hm', rfl⟩ := List.mem_map.1 hm
  obtain ⟨shown, hreads, hrel'⟩ := h m' hm' hcounts
  exact ⟨shown, hreads, hrel _ _ hrel'⟩

end MappedText

namespace LinkedText

variable {counts : CodeData → MatchMode → Prop} {rel : Span → List Char → Prop}

/-! ## 3. With links

Links and marks leave the text and its mappings as they are. -/

/-- The linked text shows what its body shows. -/
def Shows (counts : CodeData → MatchMode → Prop) (rel : Span → List Char → Prop) (t : LinkedText) : Prop :=
  t.body.Shows counts rel

/-- What linked text shows is closed under joining, and links and marks do not count. -/
theorem shows_closed : Closed (Shows counts rel) := MappedText.shows_closed.linked

@[simp] theorem shows_plain (text : String) : (plain text).Shows counts rel := shows_closed.plain text

theorem shows_mapped {code : String} {source : Span} {mode : MatchMode} {data : CodeData}
    (h : counts data mode → rel source code.toList) : (mapped code source mode data).Shows counts rel :=
  MappedText.shows_mapped h

end LinkedText

end ComponentLens
