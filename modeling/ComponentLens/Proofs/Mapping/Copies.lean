/-
# Copies

Some documents take places of a file over as they are.  Each of their mappings relates two places of one text,
and the places stand apart on both sides (`OneToOne`).  Then a look-up is a bijection, not only between the places
as wholes: `OneToOne.lookup` says that a range inside a mapped place is answered once, with a range of the same
text, and that this range is answered once, with the range that the look-up started from.

At least one byte stands between two places, so that an empty range at the end of one is not taken for the start
of another.
-/
import ComponentLens.Proofs.Mapping.Links
import ComponentLens.Proofs.Mapping.Shows
import ComponentLens.Proofs.Markup.Sites

namespace ComponentLens

open Markup (Clear Separate)

variable {α : Type}

/-! ## 1. One mapping -/

/-- The mapping relates two places of one text, byte by byte. -/
structure Mapping.IsCopy (file text : List Char) (m : Mapping α) : Prop where
  mode : m.mode = .offset
  alternates : m.alternates = []
  reads : ∃ shown, m.source.Reads file shown ∧ m.target.Reads text shown

namespace Mapping.IsCopy

variable {file text : List Char} {m : Mapping α} {r t : Span}

theorem length (h : m.IsCopy file text) : m.target.stop + m.source.start = m.target.start + m.source.stop := by
  obtain ⟨shown, hsource, htarget⟩ := h.reads
  rw [hsource.stop_eq, htarget.stop_eq]
  omega

theorem within (h : m.IsCopy file text) :
    m.source.stop ≤ byteLength file ∧ m.target.stop ≤ byteLength text := by
  obtain ⟨shown, hsource, htarget⟩ := h.reads
  exact ⟨hsource.isBoundary_stop.le_byteLength, htarget.isBoundary_stop.le_byteLength⟩

theorem carry_toTarget (h : m.IsCopy file text) (r : Span) :
    m.carry .toTarget r = MatchMode.offset.carry r m.source m.target := by
  rw [carry_of_alternates h.alternates, h.mode]
  rfl

theorem carry_toSource (h : m.IsCopy file text) (t : Span) :
    m.carry .toSource t = MatchMode.offset.carry t m.target m.source := by
  rw [carry_of_alternates h.alternates, h.mode]
  rfl

/-- **There and back.**  A range inside the source is carried to a range inside the target that holds the same
text, and from there back to itself. -/
theorem carry_back (h : m.IsCopy file text) (hfile : byteLength file ≤ maxOffset)
    (htext : byteLength text ≤ maxOffset) (hr : r.start ≤ r.stop) (hin : m.source.contains r = true) :
    ∃ t, m.carry .toTarget r = some t ∧ m.target.contains t = true ∧ t.cut? text = r.cut? file ∧
      m.carry .toSource t = some r := by
  obtain ⟨hsource, htarget⟩ := h.within
  have hcarry := carry_offset h.length (by omega) hr hin
  obtain ⟨hback, hinside⟩ := carry_offset_back h.length (by omega) (by omega) hr hcarry
  refine ⟨_, (h.carry_toTarget r).trans hcarry, hinside, ?_, (h.carry_toSource _).trans hback⟩
  obtain ⟨shown, hshown, hshown'⟩ := h.reads
  have hordered := hin
  simp only [Span.contains, Bool.and_eq_true, decide_eq_true_eq] at hordered
  rw [Span.Reads.cut?_inside hshown hr hin, Span.Reads.cut?_inside hshown' (by simp only; omega) hinside]
  simp only [Nat.add_sub_cancel_left]

/-- A copy answers only for ranges inside its source. -/
theorem source_contains (h : m.IsCopy file text) (hcarry : m.carry .toTarget r = some t) :
    m.source.contains r = true := by
  rw [h.carry_toTarget] at hcarry
  exact contains_of_carry_offset hcarry

theorem target_contains (h : m.IsCopy file text) (hcarry : m.carry .toSource t = some r) :
    m.target.contains t = true := by
  rw [h.carry_toSource] at hcarry
  exact contains_of_carry_offset hcarry

end Mapping.IsCopy

/-- A range in order lies in one of two places that are clear of each other. -/
theorem not_contains_of_clear {s s' r : Span} (h : Clear s s') (hr : r.start ≤ r.stop)
    (hin : s.contains r = true) : s'.contains r = false := by
  simp only [Span.contains, Bool.and_eq_true, Bool.and_eq_false_iff, decide_eq_true_eq,
    decide_eq_false_iff_not] at hin ⊢
  rcases h with hlt | hlt <;> omega

/-! ## 2. A whole map -/

/-- Every mapping is a copy, and on neither side do two of them meet. -/
structure OneToOne (file text : List Char) (ms : List (Mapping α)) : Prop where
  copies : ∀ m ∈ ms, m.IsCopy file text
  sources : ms.Pairwise fun m m' => Clear m.source m'.source
  targets : ms.Pairwise fun m m' => Clear m.target m'.target

/-- If one mapping answers and the others do not, a look-up gives that answer alone. -/
theorem hits_eq_singleton {ms : List (Mapping α)} {m : Mapping α} {direction : Direction} {r t : Span}
    {before after : List (Mapping α)} (hms : ms = before ++ m :: after)
    (hm : m.carry direction r = some t)
    (hothers : ∀ other ∈ before ++ after, other.carry direction r = none) :
    (SpanMap.mk ms).hits direction r = [⟨t, m.data⟩] := by
  have hnone : ∀ others : List (Mapping α), (∀ other ∈ others, other ∈ before ++ after) →
      others.filterMap (SpanMap.hit? direction r) = [] := by
    intro others hsub
    refine List.filterMap_eq_nil_iff.2 fun other hother => ?_
    simp [SpanMap.hit?, hothers other (hsub other hother)]
  have hhit : SpanMap.hit? direction r m = some ⟨t, m.data⟩ := by simp [SpanMap.hit?, hm]
  rw [SpanMap.hits, hms, List.filterMap_append, List.filterMap_cons_some hhit,
    hnone before fun _ => List.mem_append_left _, hnone after fun _ => List.mem_append_right _,
    List.nil_append]

namespace OneToOne

variable {file text : List Char} {ms : List (Mapping α)}

theorem nil : OneToOne file text ([] : List (Mapping α)) := ⟨by simp, .nil, .nil⟩

theorem single {m : Mapping α} (h : m.IsCopy file text) : OneToOne file text [m] :=
  ⟨by simpa using h, List.pairwise_singleton _ _, List.pairwise_singleton _ _⟩

/-- **Look-ups in a copy.**  A range inside a mapped place has one hit, which holds the same text, and that hit
has one hit back, which is the range. -/
theorem lookup (h : OneToOne file text ms) (hfile : byteLength file ≤ maxOffset)
    (htext : byteLength text ≤ maxOffset) {m : Mapping α} (hm : m ∈ ms) {r : Span} (hr : r.start ≤ r.stop)
    (hin : m.source.contains r = true) :
    ∃ t, (SpanMap.mk ms).toTargets r = [⟨t, m.data⟩] ∧ t.cut? text = r.cut? file ∧
      (SpanMap.mk ms).toSources t = [⟨r, m.data⟩] := by
  obtain ⟨t, hcarry, hinside, hcut, hback⟩ := (h.copies m hm).carry_back hfile htext hr hin
  obtain ⟨before, after, hms⟩ := List.append_of_mem hm
  have hlength := (h.copies m hm).length
  -- what the mapping is clear of, on each side
  have hclear : ∀ other ∈ before ++ after, Clear m.source other.source ∧ Clear m.target other.target := by
    intro other hother
    have hsources := hms ▸ h.sources
    have htargets := hms ▸ h.targets
    rw [List.pairwise_append, List.pairwise_cons] at hsources htargets
    rcases List.mem_append.1 hother with hother | hother
    · exact ⟨(hsources.2.2 other hother m (by simp)).symm, (htargets.2.2 other hother m (by simp)).symm⟩
    · exact ⟨hsources.2.1.1 other hother, htargets.2.1.1 other hother⟩
  have hmem : ∀ other ∈ before ++ after, other.IsCopy file text := by
    intro other hother
    refine h.copies other ?_
    rcases List.mem_append.1 hother with hother | hother <;> simp [hms, hother]
  have ht : t.start ≤ t.stop := by
    rw [(h.copies m hm).carry_toTarget] at hcarry
    have := (h.copies m hm).within
    rw [carry_offset hlength (by omega) hr hin] at hcarry
    obtain rfl := Option.some.inj hcarry
    simp only
    omega
  refine ⟨t, hits_eq_singleton hms hcarry fun other hother => ?_, hcut,
    hits_eq_singleton hms hback fun other hother => ?_⟩
  · refine Option.eq_none_iff_forall_ne_some.2 fun u hu => ?_
    have hcontains := (hmem other hother).source_contains hu
    rw [not_contains_of_clear (hclear other hother).1 hr hin] at hcontains
    cases hcontains
  · refine Option.eq_none_iff_forall_ne_some.2 fun u hu => ?_
    have hcontains := (hmem other hother).target_contains hu
    rw [not_contains_of_clear (hclear other hother).2 ht hinside] at hcontains
    cases hcontains

end OneToOne

end ComponentLens
