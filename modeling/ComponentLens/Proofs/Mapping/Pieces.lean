/-
# A piece in what it is joined to

A piece keeps its text and its mappings when it is joined to others, and both stand behind the text of the pieces
in front (`StandsIn`).  So what is found in a piece is found in the document that the piece is part of.

Looking up a place of a piece in the whole is more than that: other pieces could answer, too.  They do not, if the
pieces in front map nothing behind their own ends and the place holds something (`toSources_concat`).  Pieces
behind may map as far forward as they like.
-/
import ComponentLens.Proofs.Mapping.Links
import ComponentLens.Proofs.Mapping.Shows

namespace ComponentLens

/-! ## 1. Moving a look-up -/

/-- Moving the target along with what is looked up changes nothing. -/
theorem SpanPair.carry_shift (pair : SpanPair) (base : Nat) (r : Span) :
    (SpanPair.mk pair.mode pair.source (pair.target.shift base)).carry .toSource (r.shift base) =
      pair.carry .toSource r := by
  obtain ⟨mode, source, ⟨start, stop⟩⟩ := pair
  obtain ⟨start', stop'⟩ := r
  have hcontains : (Span.mk (start + base) (stop + base)).contains ⟨start' + base, stop' + base⟩ =
      (Span.mk start stop).contains ⟨start', stop'⟩ := by
    simp [Span.contains]
  cases mode with
  | gate => simp [SpanPair.carry, MatchMode.carry, Span.shift]
  | inside => simp [SpanPair.carry, MatchMode.carry, Span.shift, hcontains]
  | offset =>
    have hstart : ((source.start : Int) + (start' + base : Nat) - (start + base : Nat)) =
        source.start + start' - start := by omega
    have hstop : ((source.stop : Int) + (stop' + base : Nat) - (stop + base : Nat)) =
        source.stop + stop' - stop := by omega
    simp only [SpanPair.carry, MatchMode.carry, Span.shift, hcontains, hstart, hstop]

@[simp] theorem Mapping.shiftTarget_zero {α : Type} (m : Mapping α) : m.shiftTarget 0 = m := by
  simp [Mapping.shiftTarget, Span.shift]

theorem Mapping.shiftTarget_shiftTarget {α : Type} (m : Mapping α) (base base' : Nat) :
    (m.shiftTarget base).shiftTarget base' = m.shiftTarget (base' + base) := by
  have hspan : ∀ s : Span, (s.shift base).shift base' = s.shift (base' + base) := by
    intro s
    simp only [Span.shift, Span.mk.injEq]
    omega
  simp [Mapping.shiftTarget, hspan]

theorem Mapping.carry_shiftTarget {α : Type} (m : Mapping α) (base : Nat) (r : Span) :
    (m.shiftTarget base).carry .toSource (r.shift base) = m.carry .toSource r := by
  have hpairs : (m.shiftTarget base).pairs =
      m.pairs.map fun pair => ⟨pair.mode, pair.source, pair.target.shift base⟩ := by
    simp [Mapping.pairs, Mapping.shiftTarget]
  rw [Mapping.carry, Mapping.carry, hpairs, List.findSome?_map]
  exact congrArg (fun f => m.pairs.findSome? f) (funext fun pair => pair.carry_shift base r)

/-- A pair answers only for what lies in the span that it is looked up in. -/
theorem contains_of_carry {mode : MatchMode} {s t r u : Span} (h : mode.carry r s t = some u) :
    s.contains r = true := by
  cases mode with
  | offset => exact contains_of_carry_offset h
  | gate =>
    simp only [MatchMode.carry] at h
    split at h
    next heq => exact heq ▸ contains_self _
    next => cases h
  | inside =>
    simp only [MatchMode.carry] at h
    split at h
    next hin => exact hin
    next => cases h

namespace MappedText

variable {α : Type}

/-! ## 2. Pieces -/

/-- The text of pieces, one behind the other. -/
def textOf (ts : List (MappedText α)) : List Char := ts.flatMap (·.text.toList)

theorem toList_concat (ts : List (MappedText α)) : (concat ts).text.toList = textOf ts := by
  simp [concat, textOf, String.toList_join, List.flatMap_map]

theorem mappingsFrom_append (pos : Nat) (ts us : List (MappedText α)) :
    mappingsFrom pos (ts ++ us) = mappingsFrom pos ts ++ mappingsFrom (pos + byteLength (textOf ts)) us := by
  induction ts generalizing pos with
  | nil => simp [mappingsFrom, textOf]
  | cons t ts ih =>
    have hsize : t.size = byteLength t.text.toList := (byteLength_toList t.text).symm
    simp only [List.cons_append, mappingsFrom, ih, List.append_assoc, textOf, List.flatMap_cons,
      byteLength_append, hsize, Nat.add_assoc]

/-- Pieces that start further on map further on. -/
theorem mappingsFrom_add (base pos : Nat) (ts : List (MappedText α)) :
    mappingsFrom (base + pos) ts = (mappingsFrom pos ts).map (·.shiftTarget base) := by
  induction ts generalizing pos with
  | nil => rfl
  | cons t ts ih =>
    rw [mappingsFrom, mappingsFrom, Nat.add_assoc, ih, List.map_append, List.map_map]
    congr 1
    exact List.map_congr_left fun m _ => (m.shiftTarget_shiftTarget pos base).symm

theorem mappings_concat_append (ts us : List (MappedText α)) :
    (concat (ts ++ us)).mappings =
      (concat ts).mappings ++ (concat us).mappings.map (·.shiftTarget (byteLength (textOf ts))) := by
  show mappingsFrom 0 _ = mappingsFrom 0 _ ++ (mappingsFrom 0 _).map _
  rw [mappingsFrom_append, ← mappingsFrom_add, Nat.zero_add, Nat.add_zero]

/-- Mapped texts are their text and their mappings. -/
protected theorem ext {t u : MappedText α} (htext : t.text = u.text) (hmappings : t.mappings = u.mappings) :
    t = u := by
  cases t
  cases u
  cases htext
  cases hmappings
  rfl

theorem append_assoc (t u v : MappedText α) : t ++ u ++ v = t ++ (u ++ v) := by
  refine MappedText.ext (String.append_assoc ..) ?_
  simp [Function.comp_def, Mapping.shiftTarget_shiftTarget]

theorem concat_append (ts us : List (MappedText α)) : concat (ts ++ us) = concat ts ++ concat us := by
  refine MappedText.ext (by simp [concat, String.join_append]) ?_
  rw [mappings_concat_append, mappings_append, size, ← byteLength_toList, toList_concat]

@[simp] theorem concat_singleton (t : MappedText α) : concat [t] = t :=
  MappedText.ext (by simp [concat]) (by simp [concat, mappingsFrom])

/-- Sources that move do not keep pieces from being joined. -/
theorem shiftSource_append (t u : MappedText α) (base : Nat) :
    (t ++ u).shiftSource base = t.shiftSource base ++ u.shiftSource base := by
  refine MappedText.ext rfl ?_
  simp [shiftSource, size, Mapping.shiftSource, Mapping.shiftTarget, Function.comp_def]

/-- The piece stands in the whole, behind the text `before`. -/
structure StandsIn (t whole : MappedText α) (before : List Char) : Prop where
  text : ∃ after, whole.text.toList = before ++ (t.text.toList ++ after)
  mappings : ∀ m ∈ t.mappings, m.shiftTarget (byteLength before) ∈ whole.mappings

/-- A piece between others stands behind those in front. -/
theorem standsIn_concat (front : List (MappedText α)) (t : MappedText α) (back : List (MappedText α)) :
    t.StandsIn (concat (front ++ t :: back)) (textOf front) where
  text := ⟨textOf back, by simp [toList_concat, textOf]⟩
  mappings := by
    intro m hm
    show _ ∈ mappingsFrom 0 _
    rw [mappingsFrom_append, Nat.zero_add]
    exact List.mem_append_right _ (List.mem_append_left _ (List.mem_map_of_mem hm))

/-- What is joined from the pieces in front stands in front. -/
theorem standsIn_append_left (ts us : List (MappedText α)) : (concat ts).StandsIn (concat (ts ++ us)) [] where
  text := ⟨textOf us, by simp [toList_concat, textOf]⟩
  mappings := by
    intro m hm
    rw [mappings_concat_append]
    exact List.mem_append_left _ (by simpa using hm)

theorem standsIn_append_right (ts us : List (MappedText α)) :
    (concat us).StandsIn (concat (ts ++ us)) (textOf ts) where
  text := ⟨[], by simp [toList_concat, textOf]⟩
  mappings := by
    intro m hm
    rw [mappings_concat_append]
    exact List.mem_append_right _ (List.mem_map_of_mem hm)

theorem exists_standsIn {t : MappedText α} {ts : List (MappedText α)} (h : t ∈ ts) :
    ∃ before, t.StandsIn (concat ts) before := by
  obtain ⟨front, back, rfl⟩ := List.append_of_mem h
  exact ⟨_, standsIn_concat front t back⟩

/-- What holds of each mapping and the length of its text is closed under joining, if it still holds when the
mapping moves forward in a longer text. -/
theorem closed_of_moves {P : Nat → Mapping α → Prop}
    (hP : ∀ n stop base m, P n m → n + base ≤ stop → P stop (m.shiftTarget base)) :
    Closed fun t => ∀ m ∈ t.mappings, P t.size m where
  plain := by simp [plain]
  concat := by
    intro ts h m hm
    obtain ⟨before, t, after, rfl, m', hm', rfl⟩ := mem_mappingsFrom hm
    refine hP t.size _ _ m' (h t (by simp) m' hm') ?_
    simp only [size, concat, ← byteLength_toList, String.toList_join, List.map_append, List.map_cons,
      List.flatMap_append, List.flatMap_cons, byteLength_append]
    omega

namespace StandsIn

variable {t part whole : MappedText α} {before front : List Char}

theorem trans (h : t.StandsIn part before) (hpart : part.StandsIn whole front) :
    t.StandsIn whole (front ++ before) where
  text := by
    obtain ⟨after, htext⟩ := h.text
    obtain ⟨back, hwhole⟩ := hpart.text
    exact ⟨after ++ back, by simp [hwhole, htext]⟩
  mappings := by
    intro m hm
    have hmoved := hpart.mappings _ (h.mappings m hm)
    rwa [Mapping.shiftTarget_shiftTarget, ← byteLength_append] at hmoved

/-- Sources that move take the sources of a piece along. -/
theorem shiftSource (h : t.StandsIn whole before) (base : Nat) :
    (t.shiftSource base).StandsIn (whole.shiftSource base) before where
  text := h.text
  mappings := by
    intro m hm
    obtain ⟨m', hm', rfl⟩ := List.mem_map.1 hm
    exact List.mem_map.2 ⟨_, h.mappings m' hm', by simp [Mapping.shiftSource, Mapping.shiftTarget]⟩

/-- What stands in the piece stands in the whole. -/
theorem reads (h : t.StandsIn whole before) {s : Span} {inside : List Char}
    (hs : s.Reads t.text.toList inside) : (s.shift (byteLength before)).Reads whole.text.toList inside := by
  obtain ⟨after, htext⟩ := h.text
  exact htext ▸ hs.trans (Span.reads_append before t.text.toList after)

end StandsIn

/-! ## 3. Looking up a place of a piece -/

/-- No mapping reaches behind the text, and each has one pair. -/
def Bounded (t : MappedText α) : Prop := ∀ m ∈ t.mappings, m.alternates = [] ∧ m.target.stop ≤ t.size

/-- A mapping with one pair answers only for what lies in its target. -/
theorem target_contains_of_carry {m : Mapping α} (h : m.alternates = []) {r u : Span}
    (hcarry : m.carry .toSource r = some u) : m.target.contains r = true := by
  rw [carry_of_alternates h] at hcarry
  exact contains_of_carry hcarry

/-- Joined pieces that keep to their texts keep to the joined text. -/
theorem bounded_closed : Closed (Bounded : MappedText α → Prop) := by
  refine closed_of_moves (P := fun n m => m.alternates = [] ∧ m.target.stop ≤ n) ?_
  intro n stop base m h hle
  obtain ⟨halternates, hstop⟩ := h
  refine ⟨by simp [Mapping.shiftTarget, halternates], ?_⟩
  simp only [Mapping.shiftTarget, Span.shift]
  omega

/-- **A place inside a piece** is looked up in that piece alone. -/
theorem toSources_concat {front back : List (MappedText α)} {t : MappedText α} {r : Span}
    (hfront : ∀ u ∈ front, u.Bounded) (hback : ∀ u ∈ back, ∀ m ∈ u.mappings, m.alternates = [])
    (hr : r.start < r.stop) (hstop : r.stop ≤ t.size) :
    (SpanMap.mk (concat (front ++ t :: back)).mappings).toSources (r.shift (byteLength (textOf front))) =
      (SpanMap.mk t.mappings).toSources r := by
  generalize hbase : byteLength (textOf front) = base
  have hsilent : ∀ ms : List (Mapping α), (∀ m ∈ ms, m.alternates = []) →
      (∀ m ∈ ms, m.target.stop ≤ base ∨ base + t.size ≤ m.target.start) →
      ms.filterMap (SpanMap.hit? .toSource (r.shift base)) = [] := by
    intro ms halternates hapart
    refine List.filterMap_eq_nil_iff.2 fun m hm => ?_
    cases hcarry : m.carry .toSource (r.shift base) with
    | none => simp [SpanMap.hit?, hcarry]
    | some u =>
      have hin := target_contains_of_carry (halternates m hm) hcarry
      simp only [Span.contains, Bool.and_eq_true, decide_eq_true_eq] at hin
      simp only [Span.shift] at hin
      rcases hapart m hm with hlt | hlt <;> omega
  have hbefore : ∀ m ∈ mappingsFrom 0 front, m.alternates = [] ∧ m.target.stop ≤ base := by
    intro m hm
    obtain ⟨halternates, hle⟩ := bounded_closed.concat front hfront m hm
    rw [size, ← byteLength_toList, toList_concat, hbase] at hle
    exact ⟨halternates, hle⟩
  have hafter : ∀ m ∈ mappingsFrom (base + t.size) back,
      m.alternates = [] ∧ base + t.size ≤ m.target.start := by
    intro m hm
    obtain ⟨before, u, after, hu, m', hm', rfl⟩ := mem_mappingsFrom hm
    refine ⟨by simp [Mapping.shiftTarget, hback u (by simp [hu]) m' hm'], ?_⟩
    simp only [Mapping.shiftTarget, Span.shift]
    omega
  have hmoved : (t.mappings.map (·.shiftTarget base)).filterMap (SpanMap.hit? .toSource (r.shift base)) =
      t.mappings.filterMap (SpanMap.hit? .toSource r) := by
    rw [List.filterMap_map]
    refine congrArg (fun f => t.mappings.filterMap f) (funext fun m => ?_)
    simp only [Function.comp_apply, SpanMap.hit?, Mapping.carry_shiftTarget]
    rfl
  show (mappingsFrom 0 (front ++ t :: back)).filterMap (SpanMap.hit? .toSource (r.shift base)) = _
  rw [mappingsFrom_append, Nat.zero_add, hbase, mappingsFrom, List.filterMap_append, List.filterMap_append,
    hmoved,
    hsilent _ (fun m hm => (hbefore m hm).1) fun m hm => .inl (hbefore m hm).2,
    hsilent _ (fun m hm => (hafter m hm).1) fun m hm => .inr (hafter m hm).2]
  simp [SpanMap.toSources, SpanMap.hits]

/-- The piece stands in the whole, and places inside it that hold something are looked up in it alone. -/
structure StandsAlone (t whole : MappedText α) (before : List Char) : Prop extends t.StandsIn whole before where
  lookup : ∀ r : Span, r.start < r.stop → r.stop ≤ t.size →
    (SpanMap.mk whole.mappings).toSources (r.shift (byteLength before)) = (SpanMap.mk t.mappings).toSources r

theorem standsAlone_concat {front back : List (MappedText α)} {t : MappedText α}
    (hfront : ∀ u ∈ front, u.Bounded) (hback : ∀ u ∈ back, ∀ m ∈ u.mappings, m.alternates = []) :
    t.StandsAlone (concat (front ++ t :: back)) (textOf front) where
  toStandsIn := standsIn_concat front t back
  lookup := fun _ hr hstop => toSources_concat hfront hback hr hstop

theorem StandsAlone.trans {t part whole : MappedText α} {before front : List Char}
    (h : t.StandsAlone part before) (hpart : part.StandsAlone whole front) :
    t.StandsAlone whole (front ++ before) where
  toStandsIn := h.toStandsIn.trans hpart.toStandsIn
  lookup := by
    intro r hr hstop
    obtain ⟨after, htext⟩ := h.text
    have hsize : byteLength before + t.size ≤ part.size := by
      simp only [size, ← byteLength_toList, htext, byteLength_append]
      omega
    have hshift : r.shift (byteLength (front ++ before)) =
        (r.shift (byteLength before)).shift (byteLength front) := by
      simp [Span.shift, Nat.add_comm, Nat.add_left_comm]
    rw [hshift, hpart.lookup _ (by simp only [Span.shift]; omega) (by simp only [Span.shift]; omega),
      h.lookup r hr hstop]

end MappedText

end ComponentLens
