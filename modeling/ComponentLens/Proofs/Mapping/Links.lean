/-
# What links join

A link of a generated document joins two places where one symbol is spelled.  There are two kinds.  The ends of
a plain link hold the same text.  The far end of a handle link holds that text behind a dollar sign, and the
link says how a new name is respelled on the way (`Joins`).

Both kinds can be followed back (`Joins.carry_back`, `Joins.carry_forth`).  A handle link relates its ends as
wholes, and the parts of its near end to the parts of its far end behind the dollar sign, so what leads back
depends on which of the two matched.

Pieces of text keep their links when they are joined, since both ends of a link move with the piece
(`sound_concat`).  `LinkedText.Sound` also says that the far end of a handle link is an end of no other link: the
far end holds a dollar sign, so it takes up room, and no two pieces share room.
-/
import ComponentLens.Proofs.Mapping.Closed
import ComponentLens.Proofs.Text.Reads
import Mathlib.Data.List.Forall2

namespace ComponentLens

/-! ## 1. Kinds of links -/

/-- Both ends spell the symbol in the same way. -/
structure IsPlain (link : Mapping LinkData) : Prop where
  mode : link.mode = .offset
  alternates : link.alternates = []
  toTarget : link.data.nameToTarget = none
  toSource : link.data.nameToSource = none

/-- The far end spells the symbol with a dollar sign in front. -/
structure IsHandle (link : Mapping LinkData) : Prop where
  mode : link.mode = .gate
  alternates : link.alternates =
    [⟨.offset, link.source, ⟨link.target.start + 1, link.target.stop⟩⟩]
  toTarget : link.data.nameToTarget = some .addDollar
  toSource : link.data.nameToSource = some .stripDollar

/-- The text at the two ends, by the kind of the link. -/
inductive Joins (text : List Char) (link : Mapping LinkData) : Prop where
  | same (name : List Char) (kind : IsPlain link) (source : link.source.Reads text name)
    (target : link.target.Reads text name)
  | dollar (name : List Char) (kind : IsHandle link) (source : link.source.Reads text name)
    (target : link.target.Reads text ('$' :: name))

/-- Moves both ends of a link forward. -/
def Mapping.move (link : Mapping LinkData) (base : Nat) : Mapping LinkData :=
  (link.shiftSource base).shiftTarget base

section

variable {text : List Char} {link : Mapping LinkData} {base : Nat}

@[simp] theorem source_move : (link.move base).source = link.source.shift base := rfl

@[simp] theorem target_move : (link.move base).target = link.target.shift base := rfl

theorem IsPlain.move (h : IsPlain link) : IsPlain (link.move base) where
  mode := h.mode
  alternates := by simp [Mapping.move, Mapping.shiftSource, Mapping.shiftTarget, h.alternates]
  toTarget := h.toTarget
  toSource := h.toSource

theorem IsHandle.move (h : IsHandle link) : IsHandle (link.move base) where
  mode := h.mode
  alternates := by
    simp [Mapping.move, Mapping.shiftSource, Mapping.shiftTarget, h.alternates, Span.shift,
      Nat.add_right_comm]
  toTarget := h.toTarget
  toSource := h.toSource

/-- What a link joins in a piece it joins in the text that the piece stands in. -/
theorem Joins.move (h : Joins text link) (before after : List Char) :
    Joins (before ++ (text ++ after)) (link.move (byteLength before)) := by
  have hplace := Span.reads_append before text after
  cases h with
  | same name kind source target =>
    exact .same name kind.move (source.trans hplace) (target.trans hplace)
  | dollar name kind source target =>
    exact .dollar name kind.move (source.trans hplace) (target.trans hplace)

/-- A link that respells a name is a handle link. -/
theorem Joins.isHandle (h : Joins text link) (hrespells : link.data.nameToTarget = some .addDollar) :
    ∃ name, IsHandle link ∧ link.source.Reads text name ∧ link.target.Reads text ('$' :: name) := by
  cases h with
  | same name kind source target =>
    rw [kind.toTarget] at hrespells
    cases hrespells
  | dollar name kind source target => exact ⟨name, kind, source, target⟩

/-- Both ends lie in the text. -/
theorem Joins.within (h : Joins text link) :
    link.source.stop ≤ byteLength text ∧ link.target.stop ≤ byteLength text := by
  cases h with
  | same name kind source target =>
    exact ⟨source.isBoundary_stop.le_byteLength, target.isBoundary_stop.le_byteLength⟩
  | dollar name kind source target =>
    exact ⟨source.isBoundary_stop.le_byteLength, target.isBoundary_stop.le_byteLength⟩

/-- The far end of a handle link takes up room. -/
theorem Joins.room (h : Joins text link) (hrespells : link.data.nameToTarget = some .addDollar) :
    link.target.start < link.target.stop := by
  obtain ⟨name, -, -, htarget⟩ := h.isHandle hrespells
  have hdollar : '$'.utf8Size = 1 := rfl
  rw [htarget.stop_eq, byteLength_cons, hdollar]
  omega

/-! ## 2. Following a link back -/

/-- Between spans of one length, an offset look-up moves the range along. -/
theorem carry_offset {s t r : Span} (hlength : t.stop + s.start = t.start + s.stop)
    (hstop : t.stop ≤ maxOffset) (hr : r.start ≤ r.stop) (h : s.contains r = true) :
    MatchMode.offset.carry r s t = some ⟨t.start + (r.start - s.start), t.start + (r.stop - s.start)⟩ := by
  simp only [MatchMode.carry, h, if_true, Option.some.injEq]
  simp only [Span.contains, Bool.and_eq_true, decide_eq_true_eq] at h
  simp only [Span.normalized, clampOffset, Span.mk.injEq]
  omega

/-- An offset look-up gives something only for a range inside the span. -/
theorem contains_of_carry_offset {s t r u : Span} (h : MatchMode.offset.carry r s t = some u) :
    s.contains r = true := by
  cases hr : s.contains r with
  | true => rfl
  | false => simp [MatchMode.carry, hr] at h

theorem contains_self (s : Span) : s.contains s = true := by simp [Span.contains]

/-- An offset look-up of the whole of a span gives the whole of the other, whatever their lengths. -/
theorem carry_offset_self {s t : Span} (ht : t.start ≤ t.stop) (hstop : t.stop ≤ maxOffset) :
    MatchMode.offset.carry s s t = some t := by
  obtain ⟨start, stop⟩ := t
  simp only [MatchMode.carry, contains_self, if_true, Option.some.injEq]
  simp only at ht hstop
  simp only [Span.normalized, clampOffset, Span.mk.injEq]
  omega

/-- An offset look-up is undone by the one in the other direction.  What it gives lies in the span. -/
theorem carry_offset_back {s t r u : Span} (hlength : t.stop + s.start = t.start + s.stop)
    (hs : s.stop ≤ maxOffset) (ht : t.stop ≤ maxOffset) (hr : r.start ≤ r.stop)
    (h : MatchMode.offset.carry r s t = some u) :
    MatchMode.offset.carry u t s = some r ∧ t.contains u = true := by
  have hcontains := contains_of_carry_offset h
  rw [carry_offset hlength ht hr hcontains] at h
  obtain rfl := Option.some.inj h
  simp only [Span.contains, Bool.and_eq_true, decide_eq_true_eq] at hcontains
  have hinside : t.contains ⟨t.start + (r.start - s.start), t.start + (r.stop - s.start)⟩ = true := by
    simp only [Span.contains, Bool.and_eq_true, decide_eq_true_eq]
    omega
  refine ⟨?_, hinside⟩
  rw [carry_offset (by omega) hs (by simp only; omega) hinside, Option.some.injEq]
  obtain ⟨start, stop⟩ := r
  dsimp only at hr hcontains ⊢
  simp only [Span.mk.injEq]
  omega

theorem normalized_of_le {s : Span} (h : s.start ≤ s.stop) : s.normalized = s := by
  obtain ⟨start, stop⟩ := s
  simp only [Span.normalized, Span.mk.injEq] at h ⊢
  omega

/-- A mapping without further pairs answers for its first pair alone. -/
theorem carry_of_alternates {α : Type} {m : Mapping α} (h : m.alternates = []) (direction : Direction)
    (r : Span) : m.carry direction r = (SpanPair.mk m.mode m.source m.target).carry direction r := by
  simp [Mapping.carry, Mapping.pairs, h]

/-- What a mapping writes is looked up at what it stands for. -/
theorem mem_toSources_target {α : Type} {ms : List (Mapping α)} {m : Mapping α} (hm : m ∈ ms)
    (hmode : m.mode = .offset) (halternates : m.alternates = []) (hs : m.source.start ≤ m.source.stop)
    (hstop : m.source.stop ≤ maxOffset) : ⟨m.source, m.data⟩ ∈ (SpanMap.mk ms).toSources m.target := by
  refine List.mem_filterMap.2 ⟨m, hm, ?_⟩
  have hcarry : m.carry .toSource m.target = some m.source := by
    rw [carry_of_alternates halternates, hmode]
    exact carry_offset_self hs hstop
  rw [SpanMap.hit?, hcarry]
  rfl

theorem carry_plain (h : IsPlain link) (direction : Direction) (r : Span) :
    link.carry direction r = (SpanPair.mk .offset link.source link.target).carry direction r := by
  rw [carry_of_alternates h.alternates, h.mode]

/-- What a mapping with one further pair answers. -/
theorem carry_pair {α : Type} {m : Mapping α} {pair : SpanPair} (h : m.alternates = [pair])
    (direction : Direction) (r : Span) :
    m.carry direction r =
      ((SpanPair.mk m.mode m.source m.target).carry direction r).or (pair.carry direction r) := by
  simp only [Mapping.carry, Mapping.pairs, h, List.findSome?_cons, List.findSome?_nil]
  cases (SpanPair.mk m.mode m.source m.target).carry direction r with
  | some u => rfl
  | none => cases pair.carry direction r <;> rfl

/-- A handle link that is looked up from its near end. -/
theorem carry_handle_toTarget (h : IsHandle link) (r : Span) :
    link.carry .toTarget r = if r = link.source then some link.target.normalized
      else MatchMode.offset.carry r link.source ⟨link.target.start + 1, link.target.stop⟩ := by
  rw [carry_pair h.alternates, h.mode]
  by_cases hr : r = link.source
  · simp [SpanPair.carry, MatchMode.carry, hr]
  · simp [SpanPair.carry, MatchMode.carry, hr]

/-- A handle link that is looked up from its far end. -/
theorem carry_handle_toSource (h : IsHandle link) (t : Span) :
    link.carry .toSource t = if t = link.target then some link.source.normalized
      else MatchMode.offset.carry t ⟨link.target.start + 1, link.target.stop⟩ link.source := by
  rw [carry_pair h.alternates, h.mode]
  by_cases ht : t = link.target
  · simp [SpanPair.carry, MatchMode.carry, ht]
  · simp [SpanPair.carry, MatchMode.carry, ht]

/-- **Forward and back.**  What a link leads to leads back to where the look-up started. -/
theorem Joins.carry_back (h : Joins text link) (hsize : byteLength text ≤ maxOffset) {r t : Span}
    (hr : r.start ≤ r.stop) (hcarry : link.carry .toTarget r = some t) :
    link.carry .toSource t = some r := by
  obtain ⟨hsource, htarget⟩ := h.within
  cases h with
  | same name kind source target =>
    have hlength : link.target.stop + link.source.start = link.target.start + link.source.stop := by
      rw [source.stop_eq, target.stop_eq]
      omega
    rw [carry_plain kind] at hcarry ⊢
    exact (carry_offset_back hlength (by omega) (by omega) hr hcarry).1
  | dollar name kind source target =>
    have hdollar : '$'.utf8Size = 1 := rfl
    have hstop := target.stop_eq
    rw [byteLength_cons, hdollar] at hstop
    rw [carry_handle_toTarget kind] at hcarry
    rw [carry_handle_toSource kind]
    split at hcarry
    next heq =>
      rw [normalized_of_le target.start_le_stop] at hcarry
      rw [if_pos (Option.some.inj hcarry).symm, normalized_of_le source.start_le_stop, heq]
    next hne =>
      obtain ⟨hback, hinside⟩ := carry_offset_back (by simp only [source.stop_eq]; omega) (by omega)
        (by simp only; omega) hr hcarry
      -- what stands behind the dollar sign is not the whole far end
      have hpart : t ≠ link.target := by
        rintro rfl
        simp only [Span.contains, Bool.and_eq_true, decide_eq_true_eq] at hinside
        omega
      rw [if_neg hpart, hback]

/-- **Back and forth.**  From where a link leads back to, it leads to a place around the one that the look-up
started from. -/
theorem Joins.carry_forth (h : Joins text link) (hsize : byteLength text ≤ maxOffset) {r t : Span}
    (ht : t.start ≤ t.stop) (hcarry : link.carry .toSource t = some r) :
    ∃ t', link.carry .toTarget r = some t' ∧ t'.contains t = true := by
  obtain ⟨hsource, htarget⟩ := h.within
  cases h with
  | same name kind source target =>
    have hlength : link.source.stop + link.target.start = link.source.start + link.target.stop := by
      rw [source.stop_eq, target.stop_eq]
      omega
    rw [carry_plain kind] at hcarry ⊢
    exact ⟨t, (carry_offset_back hlength (by omega) (by omega) ht hcarry).1, contains_self t⟩
  | dollar name kind source target =>
    have hdollar : '$'.utf8Size = 1 := rfl
    have hstop := target.stop_eq
    rw [byteLength_cons, hdollar] at hstop
    rw [carry_handle_toSource kind] at hcarry
    rw [carry_handle_toTarget kind, normalized_of_le target.start_le_stop]
    split at hcarry
    next heq =>
      rw [normalized_of_le source.start_le_stop] at hcarry
      rw [if_pos (Option.some.inj hcarry).symm, heq]
      exact ⟨_, rfl, contains_self _⟩
    next hne =>
      have hcontains := contains_of_carry_offset hcarry
      split
      · refine ⟨_, rfl, ?_⟩
        simp only [Span.contains, Bool.and_eq_true, decide_eq_true_eq] at hcontains ⊢
        omega
      · have hback := (carry_offset_back (by simp only [source.stop_eq]; omega) (by simp only; omega)
          (by omega) ht hcarry).1
        exact ⟨t, hback, contains_self t⟩

/-- A range that a link carries forward lies at its near end. -/
theorem Joins.source_contains (h : Joins text link) {r t : Span} (hcarry : link.carry .toTarget r = some t) :
    link.source.contains r = true := by
  cases h with
  | same name kind source target =>
    rw [carry_plain kind] at hcarry
    exact contains_of_carry_offset hcarry
  | dollar name kind source target =>
    rw [carry_handle_toTarget kind] at hcarry
    split at hcarry
    next heq => exact heq ▸ contains_self _
    next => exact contains_of_carry_offset hcarry

/-- A range that a link carries back lies at its far end. -/
theorem Joins.target_contains (h : Joins text link) {r t : Span} (hcarry : link.carry .toSource t = some r) :
    link.target.contains t = true := by
  cases h with
  | same name kind source target =>
    rw [carry_plain kind] at hcarry
    exact contains_of_carry_offset hcarry
  | dollar name kind source target =>
    rw [carry_handle_toSource kind] at hcarry
    split at hcarry
    next heq => exact heq ▸ contains_self _
    next =>
      have hinside := contains_of_carry_offset hcarry
      simp only [Span.contains, Bool.and_eq_true, decide_eq_true_eq] at hinside ⊢
      omega

/-- The near end of a link leads to its far end. -/
theorem Joins.carry_source (h : Joins text link) (hstop : link.target.stop ≤ maxOffset) :
    link.carry .toTarget link.source = some link.target := by
  cases h with
  | same name kind source target =>
    rw [carry_plain kind]
    exact carry_offset_self target.start_le_stop hstop
  | dollar name kind source target =>
    rw [carry_handle_toTarget kind, if_pos rfl, normalized_of_le target.start_le_stop]

/-- The far end of a link leads back to its near end. -/
theorem Joins.carry_target (h : Joins text link) (hstop : link.source.stop ≤ maxOffset) :
    link.carry .toSource link.target = some link.source := by
  cases h with
  | same name kind source target =>
    rw [carry_plain kind]
    exact carry_offset_self source.start_le_stop hstop
  | dollar name kind source target =>
    rw [carry_handle_toSource kind, if_pos rfl, normalized_of_le source.start_le_stop]

/-- A name that is respelled on the way forward is respelled back to itself. -/
theorem Joins.respell_back (h : Joins text link) (name : String) :
    respell link.data.nameToSource (respell link.data.nameToTarget name) = name := by
  cases h with
  | same _ kind _ _ => simp [kind.toTarget, kind.toSource, respell]
  | dollar _ kind _ _ =>
    simp [kind.toTarget, kind.toSource, respell, NameTransform.apply, Naming.dropDollar]

end

/-- What a look-up gives comes from one of the mappings. -/
theorem SpanMap.mem_hits {α : Type} {m : SpanMap α} {direction : Direction} {r : Span} {hit : Hit α} :
    hit ∈ m.hits direction r ↔
      ∃ mapping ∈ m.mappings, mapping.carry direction r = some hit.range ∧ hit.data = mapping.data := by
  simp only [SpanMap.hits, SpanMap.hit?, List.mem_filterMap, Option.map_eq_some_iff]
  constructor
  · rintro ⟨mapping, hmapping, range, hcarry, rfl⟩
    exact ⟨mapping, hmapping, hcarry, rfl⟩
  · obtain ⟨range, data⟩ := hit
    rintro ⟨mapping, hmapping, hcarry, rfl⟩
    exact ⟨mapping, hmapping, range, hcarry, rfl⟩

/-- A hop from source to target goes along a link that allows it. -/
theorem LinkMap.mem_forward {m : LinkMap} {r : Span} {origin : Region} {e : LinkEnd} :
    e ∈ m.forward r origin ↔ ∃ link ∈ m.map.mappings, link.data.allowsForward origin = true ∧
      link.carry .toTarget r = some e.range ∧ e.data = link.data ∧
      e.nameTransform = link.data.nameToTarget := by
  simp only [LinkMap.forward, SpanMap.toTargets, List.mem_map, List.mem_filter, SpanMap.mem_hits]
  constructor
  · rintro ⟨hit, ⟨⟨link, hlink, hcarry, hdata⟩, hallowed⟩, rfl⟩
    rw [hdata] at hallowed
    exact ⟨link, hlink, hallowed, hcarry, hdata, by rw [hdata]⟩
  · obtain ⟨range, data, nameTransform⟩ := e
    rintro ⟨link, hlink, hallowed, hcarry, rfl, rfl⟩
    exact ⟨⟨range, link.data⟩, ⟨⟨link, hlink, hcarry, rfl⟩, hallowed⟩, rfl⟩

/-- A hop from target to source goes along a link that allows it. -/
theorem LinkMap.mem_backward {m : LinkMap} {t : Span} {origin : Region} {e : LinkEnd} :
    e ∈ m.backward t origin ↔ ∃ link ∈ m.map.mappings, link.data.allowsBackward origin = true ∧
      link.carry .toSource t = some e.range ∧ e.data = link.data ∧
      e.nameTransform = link.data.nameToSource := by
  simp only [LinkMap.backward, SpanMap.toSources, List.mem_map, List.mem_filter, SpanMap.mem_hits]
  constructor
  · rintro ⟨hit, ⟨⟨link, hlink, hcarry, hdata⟩, hallowed⟩, rfl⟩
    rw [hdata] at hallowed
    exact ⟨link, hlink, hallowed, hcarry, hdata, by rw [hdata]⟩
  · obtain ⟨range, data, nameTransform⟩ := e
    rintro ⟨link, hlink, hallowed, hcarry, rfl, rfl⟩
    exact ⟨⟨range, link.data⟩, ⟨⟨link, hlink, hcarry, rfl⟩, hallowed⟩, rfl⟩

/-! ## 3. Joining pieces -/

/-- The far end of a handle link is an end of no other link. -/
def Separate (links : List (Mapping LinkData)) : Prop :=
  ∀ link ∈ links, link.data.nameToTarget = some .addDollar → ∀ other ∈ links, other ≠ link →
    other.source ≠ link.target ∧ other.target ≠ link.target

/-- Two spans, one behind the other, are different when one of them takes up room. -/
theorem ne_of_stop_le {s t : Span} (hle : s.stop ≤ t.start) (hroom : s.start < s.stop ∨ t.start < t.stop) :
    s ≠ t := by
  rintro rfl
  omega

theorem shift_inj {s t : Span} {base : Nat} (h : s.shift base = t.shift base) : s = t := by
  obtain ⟨sStart, sStop⟩ := s
  obtain ⟨tStart, tStop⟩ := t
  simp only [Span.shift, Span.mk.injEq] at h ⊢
  omega

namespace LinkedText

/-- The text of a piece. -/
def chars (t : LinkedText) : List Char := t.body.text.toList

@[simp] theorem chars_plain (text : String) : (plain text).chars = text.toList := rfl

@[simp] theorem chars_mapped (code : String) (source : Span) (mode : MatchMode) (data : CodeData) :
    (mapped code source mode data).chars = code.toList := rfl

/-- The links of the piece join what they say, and keep apart. -/
structure Sound (t : LinkedText) : Prop where
  joins : ∀ link ∈ t.links, Joins t.chars link
  separate : Separate t.links

/-- The marks of the piece stand over the given names. -/
def Marks (t : LinkedText) (names : List (List Char)) : Prop :=
  List.Forall₂ (fun mark name => mark.Reads t.chars name) t.marks names

theorem chars_concat (ts : List LinkedText) : (concat ts).chars = ts.flatMap chars := by
  simp only [chars, concat, MappedText.concat, String.toList_join, List.map_map, List.flatMap_def]
  rfl

theorem size_eq (t : LinkedText) : t.body.size = byteLength t.chars := (byteLength_toList _).symm

theorem sound_of_links_nil {t : LinkedText} (h : t.links = []) : t.Sound where
  joins := by simp [h]
  separate := by simp [Separate, h]

/-- The links of joined pieces join what they say, behind any text. -/
theorem joins_linksFrom {ts : List LinkedText} (h : ∀ t ∈ ts, ∀ link ∈ t.links, Joins t.chars link)
    (before : List Char) :
    ∀ link ∈ linksFrom (byteLength before) ts, Joins (before ++ ts.flatMap chars) link := by
  induction ts generalizing before with
  | nil => simp [linksFrom]
  | cons t ts ih =>
    intro link hlink
    rcases List.mem_append.1 hlink with hlink | hlink
    · obtain ⟨link', hlink', rfl⟩ := List.mem_map.1 hlink
      exact (h t (by simp) link' hlink').move before (ts.flatMap chars)
    · have hrest := ih (fun u hu => h u (by simp [hu])) (before ++ t.chars) link
      rw [byteLength_append, ← size_eq] at hrest
      simpa using hrest hlink

/-- The links of joined pieces start where the pieces do, or further behind. -/
theorem start_linksFrom {pos : Nat} {ts : List LinkedText} {link : Mapping LinkData}
    (h : link ∈ linksFrom pos ts) : pos ≤ link.source.start ∧ pos ≤ link.target.start := by
  induction ts generalizing pos with
  | nil => simp [linksFrom] at h
  | cons t ts ih =>
    rcases List.mem_append.1 h with h | h
    · obtain ⟨link', -, rfl⟩ := List.mem_map.1 h
      exact ⟨Nat.le_add_left _ _, Nat.le_add_left _ _⟩
    · have := ih h
      omega

theorem separate_linksFrom {ts : List LinkedText} (h : ∀ t ∈ ts, t.Sound) (before : List Char) :
    Separate (linksFrom (byteLength before) ts) := by
  induction ts generalizing before with
  | nil => simp [linksFrom, Separate]
  | cons t ts ih =>
    have ht := h t (by simp)
    have hjoins := joins_linksFrom (fun u hu => (h u hu).joins) before
    have hfirst : ∀ link ∈ t.links.map (·.move (byteLength before)),
        link.source.stop ≤ byteLength before + t.body.size ∧
        link.target.stop ≤ byteLength before + t.body.size := by
      intro link hlink
      obtain ⟨link', hlink', rfl⟩ := List.mem_map.1 hlink
      have hwithin := (ht.joins link' hlink').within
      rw [← size_eq] at hwithin
      simp only [source_move, target_move, Span.shift]
      omega
    have hrest : Separate (linksFrom (byteLength before + t.body.size) ts) := by
      have := ih (fun u hu => h u (by simp [hu])) (before ++ t.chars)
      rwa [byteLength_append, ← size_eq] at this
    intro link hlink hrespells other hother hne
    have hroom := (hjoins link hlink).room hrespells
    rcases List.mem_append.1 hlink with hlink | hlink
    · rcases List.mem_append.1 hother with hother | hother
      · obtain ⟨link', hlink', rfl⟩ := List.mem_map.1 hlink
        obtain ⟨other', hother', rfl⟩ := List.mem_map.1 hother
        have happart := ht.separate link' hlink' hrespells other' hother' fun heq => hne (by rw [heq])
        exact ⟨fun heq => happart.1 (shift_inj heq), fun heq => happart.2 (shift_inj heq)⟩
      · have hle := (hfirst link hlink).2
        have hstart := start_linksFrom hother
        exact ⟨(ne_of_stop_le (by omega) (.inl hroom)).symm, (ne_of_stop_le (by omega) (.inl hroom)).symm⟩
    · rcases List.mem_append.1 hother with hother | hother
      · have hle := hfirst other hother
        have hstart := start_linksFrom hlink
        exact ⟨ne_of_stop_le (by omega) (.inr hroom), ne_of_stop_le (by omega) (.inr hroom)⟩
      · exact hrest link hlink hrespells other hother hne

/-- **Joining.**  Links of sound pieces are sound where the pieces end up. -/
theorem sound_joined : Joined Sound where
  plain := fun _ => sound_of_links_nil rfl
  concat := by
    intro ts h
    constructor
    · rw [chars_concat]
      exact joins_linksFrom (fun t ht => (h t ht).joins) []
    · exact separate_linksFrom h []

/-! ## 4. Bare pieces -/

/-- The piece has no links, and no marks to make links of. -/
structure Bare (t : LinkedText) : Prop where
  links : t.links = []
  marks : t.marks = []

theorem Bare.sound {t : LinkedText} (h : Bare t) : t.Sound := sound_of_links_nil h.links

theorem linksFrom_eq_nil {pos : Nat} {ts : List LinkedText} (h : ∀ t ∈ ts, t.links = []) :
    linksFrom pos ts = [] := by
  induction ts generalizing pos with
  | nil => rfl
  | cons t ts ih => simp [linksFrom, h t (by simp), ih fun u hu => h u (by simp [hu])]

theorem marksFrom_eq_nil {pos : Nat} {ts : List LinkedText} (h : ∀ t ∈ ts, t.marks = []) :
    marksFrom pos ts = [] := by
  induction ts generalizing pos with
  | nil => rfl
  | cons t ts ih => simp [marksFrom, h t (by simp), ih fun u hu => h u (by simp [hu])]

theorem bare_plain (text : String) : Bare (.plain text) := ⟨rfl, rfl⟩

theorem bare_mapped (code : String) (source : Span) (mode : MatchMode) (data : CodeData) :
    Bare (.mapped code source mode data) := ⟨rfl, rfl⟩

/-- Bare pieces are joined to a bare one. -/
theorem bare_joined : Joined Bare where
  plain := bare_plain
  concat _ h := ⟨linksFrom_eq_nil fun t ht => (h t ht).links, marksFrom_eq_nil fun t ht => (h t ht).marks⟩

/-! ## 5. Marks -/

theorem Bare.toMarks {t : LinkedText} (h : Bare t) : t.Marks [] := by
  rw [Marks, h.marks]
  exact .nil

/-- A marked piece is marked over all of it. -/
theorem Bare.marks_mark {t : LinkedText} (h : Bare t) : t.mark.Marks [t.chars] := by
  have hmarks : t.mark.marks = [⟨0, byteLength t.chars⟩] := by simp [mark, h.marks, size_eq]
  rw [Marks, hmarks]
  exact .cons (Span.reads_whole t.chars) .nil

/-- The marks of joined pieces stand over the same names, behind any text. -/
theorem marks_marksFrom {ts : List LinkedText} {names : List (List (List Char))}
    (h : List.Forall₂ Marks ts names) (before : List Char) :
    List.Forall₂ (fun mark name => mark.Reads (before ++ ts.flatMap chars) name)
      (marksFrom (byteLength before) ts) names.flatten := by
  induction h generalizing before with
  | nil => exact .nil
  | @cons t own ts names ht _ ih =>
    rw [List.flatMap_cons]
    refine List.rel_append ?_ ?_
    · refine List.forall₂_map_left_iff.2 (ht.imp fun mark name hmark => ?_)
      exact hmark.trans (Span.reads_append before t.chars (ts.flatMap chars))
    · have hrest := ih (before ++ t.chars)
      rwa [byteLength_append, ← size_eq, List.append_assoc] at hrest

/-- **Joined marks.**  The marks of joined pieces stand over the names that the pieces mark. -/
theorem marks_concat {ts : List LinkedText} {names : List (List (List Char))}
    (h : List.Forall₂ Marks ts names) : (concat ts).Marks names.flatten := by
  rw [Marks, chars_concat]
  exact marks_marksFrom h []

theorem exists_of_forall₂ {α β : Type} {R : α → β → Prop} {xs : List α} {ys : List β}
    (h : List.Forall₂ R xs ys) : ∀ x ∈ xs, ∃ y ∈ ys, R x y := by
  induction h with
  | nil => simp
  | @cons x y xs ys hxy _ ih =>
    intro z hz
    rcases List.mem_cons.1 hz with rfl | hz
    · exact ⟨y, by simp, hxy⟩
    · obtain ⟨w, hw, hzw⟩ := ih z hz
      exact ⟨w, List.mem_cons_of_mem _ hw, hzw⟩

theorem Marks.stop_le {t : LinkedText} {names : List (List Char)} (h : t.Marks names) :
    ∀ mark ∈ t.marks, mark.stop ≤ t.body.size := by
  intro mark hmark
  obtain ⟨name, -, hreads⟩ := exists_of_forall₂ h mark hmark
  rw [size_eq]
  exact hreads.isBoundary_stop.le_byteLength

/-- The marks of joined pieces stand one behind the other if those of each piece do. -/
theorem marksFrom_apart {ts : List LinkedText} (hmarks : ∀ t ∈ ts, ∀ mark ∈ t.marks, mark.stop ≤ t.body.size)
    (h : ∀ t ∈ ts, t.marks.Pairwise fun a b => a.stop ≤ b.start) (pos : Nat) :
    (marksFrom pos ts).Pairwise (fun a b => a.stop ≤ b.start) ∧ ∀ mark ∈ marksFrom pos ts, pos ≤ mark.start := by
  induction ts generalizing pos with
  | nil => simp [marksFrom]
  | cons t ts ih =>
    obtain ⟨hrest, hbehind⟩ := ih (fun u hu => hmarks u (by simp [hu])) (fun u hu => h u (by simp [hu]))
      (pos + t.body.size)
    have hbefore : ∀ mark ∈ t.marks.map (·.shift pos), pos ≤ mark.start ∧ mark.stop ≤ pos + t.body.size := by
      intro mark hmark
      obtain ⟨mark', hmark', rfl⟩ := List.mem_map.1 hmark
      have := hmarks t (by simp) mark' hmark'
      simp only [Span.shift]
      omega
    constructor
    · refine List.pairwise_append.2 ⟨?_, hrest, fun a ha b hb => ?_⟩
      · refine List.pairwise_map.2 ((h t (by simp)).imp fun hab => ?_)
        simp only [Span.shift]
        omega
      · exact Nat.le_trans (hbefore a ha).2 (hbehind b hb)
    · intro mark hmark
      rcases List.mem_append.1 hmark with hmark | hmark
      · exact (hbefore mark hmark).1
      · have := hbehind mark hmark
        omega

/-- A piece is marked over all of it, or not at all. -/
def MarkedWhole (t : LinkedText) : Prop := t.marks = [] ∨ t.marks = [⟨0, t.body.size⟩]

theorem Bare.markedWhole {t : LinkedText} (h : Bare t) : MarkedWhole t := .inl h.marks

theorem Bare.markedWhole_mark {t : LinkedText} (h : Bare t) : MarkedWhole t.mark :=
  .inr (by simp [mark, h.marks])

theorem marks_apart_of_whole {ts : List LinkedText} (h : ∀ t ∈ ts, MarkedWhole t) :
    (concat ts).marks.Pairwise fun a b => a.stop ≤ b.start := by
  refine (marksFrom_apart ?_ ?_ 0).1
  · intro t ht mark hmark
    rcases h t ht with hnone | hwhole
    · simp [hnone] at hmark
    · rw [hwhole, List.mem_singleton] at hmark
      simp [hmark]
  · intro t ht
    rcases h t ht with hnone | hwhole
    · simp [hnone]
    · simp [hwhole]

/-! ## 6. Marks made into links -/

theorem sound_tie {t : LinkedText} {links : List Span → List (Mapping LinkData)} (hlinks : t.links = [])
    (hjoins : ∀ link ∈ links t.marks, Joins t.chars link) (hseparate : Separate (links t.marks)) :
    (t.tie links).Sound := by
  have htied : (t.tie links).links = links t.marks := by simp [tie, hlinks]
  constructor
  · rw [htied]
    exact hjoins
  · rw [htied]
    exact hseparate

/-- Marks over one name can be joined by plain links in any way.  Plain links keep apart: none of them has a far
end that takes a dollar sign. -/
theorem sound_tie_plain {t : LinkedText} {links : List Span → List (Mapping LinkData)}
    {names : List (List Char)} (hmarks : t.Marks names) (name : List Char) (hname : ∀ n ∈ names, n = name)
    (hlinks : t.links = [])
    (h : ∀ link ∈ links t.marks, IsPlain link ∧ link.source ∈ t.marks ∧ link.target ∈ t.marks) :
    (t.tie links).Sound := by
  have hreads : ∀ mark ∈ t.marks, mark.Reads t.chars name := by
    intro mark hmark
    obtain ⟨n, hn, hreads⟩ := exists_of_forall₂ hmarks mark hmark
    rwa [hname n hn] at hreads
  refine sound_tie hlinks ?_ ?_
  · intro link hlink
    obtain ⟨hplain, hsource, htarget⟩ := h link hlink
    exact .same name hplain (hreads _ hsource) (hreads _ htarget)
  · intro link hlink hrespells
    rw [(h link hlink).1.toTarget] at hrespells
    cases hrespells

end LinkedText

end ComponentLens
