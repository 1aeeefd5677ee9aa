/-
# Where mappings lead

A mapping of a generated text leads to spans of its source: that of its first pair, and those of the pairs
tried after it.  `MappedText.Leads` says of all of them together what the data of the mapping allows.  The
text of the piece plays no part, so joining pieces changes nothing (`leads_concat`), and a coarse mapping
that is laid ahead is treated like any other.

For the code documents the data names a region.  A piece is made for one block, and leads to places inside
its content (`InRegion`); in the document the places count from the start of the file, and the region named
is one of the regions of the component (`InRegions`).  Moving a piece to its block turns the one into the
other (`InRegion.shift`).
-/
import ComponentLens.Proofs.Component.Regions
import ComponentLens.Proofs.Mapping.Shows

namespace ComponentLens

/-- All the spans of the source that a mapping leads to. -/
def Mapping.sources {α : Type} (m : Mapping α) : List Span := m.pairs.map (·.source)

namespace Mapping

variable {α : Type}

@[simp] theorem sources_shiftTarget (m : Mapping α) (base : Nat) :
    (m.shiftTarget base).sources = m.sources := by
  simp [sources, pairs, shiftTarget, Function.comp_def]

@[simp] theorem sources_shiftSource (m : Mapping α) (base : Nat) :
    (m.shiftSource base).sources = m.sources.map (·.shift base) := by
  simp [sources, pairs, shiftSource, Function.comp_def]

end Mapping

namespace MappedText

variable {α : Type}

/-- Every mapping leads to spans that its data allows. -/
def Leads (allows : α → List Span → Prop) (t : MappedText α) : Prop :=
  ∀ m ∈ t.mappings, allows m.data m.sources

variable {allows : α → List Span → Prop}

/-! ## 1. Pieces -/

@[simp] theorem leads_plain (text : String) : (plain text : MappedText α).Leads allows := by
  simp [Leads, plain]

@[simp] theorem leads_mapped {code : String} {source : Span} {mode : MatchMode} {data : α} :
    (mapped code source mode data).Leads allows ↔ allows data [source] := by
  simp [Leads, mapped, Mapping.sources, Mapping.pairs]

@[simp] theorem leads_ahead {code : String} {source : Span} {mode : MatchMode} {data : α} :
    (ahead code source mode data).Leads allows ↔ allows data [source] := by
  simp [Leads, ahead, Mapping.sources, Mapping.pairs]

@[simp] theorem leads_covering {t : MappedText α} {source : Span} {mode : MatchMode} {data : α} :
    (t.covering source mode data).Leads allows ↔ t.Leads allows ∧ allows data [source] := by
  simp [Leads, covering, push, Mapping.sources, Mapping.pairs, or_imp, forall_and]

/-! ## 2. Joining -/

theorem leads_mappingsFrom (pos : Nat) (ts : List (MappedText α)) :
    (∀ m ∈ mappingsFrom pos ts, allows m.data m.sources) ↔ ∀ t ∈ ts, t.Leads allows := by
  induction ts generalizing pos with
  | nil => simp [mappingsFrom]
  | cons t ts ih =>
    have hhead : (∀ m ∈ t.mappings.map (·.shiftTarget pos), allows m.data m.sources) ↔ t.Leads allows := by
      simp only [List.forall_mem_map, Mapping.sources_shiftTarget]
      rfl
    simp only [mappingsFrom, List.forall_mem_append, List.forall_mem_cons, hhead, ih]

/-- **Joining.**  Joined pieces lead where each of them leads, and nowhere else. -/
theorem leads_concat {ts : List (MappedText α)} :
    (concat ts).Leads allows ↔ ∀ t ∈ ts, t.Leads allows := leads_mappingsFrom 0 ts

/-- Where mappings lead is closed under joining. -/
theorem leads_closed : Closed (Leads allows : MappedText α → Prop) where
  plain := leads_plain
  concat := fun _ => leads_concat.2

/-- Sources that move take along what is allowed. -/
theorem Leads.shiftSource {t : MappedText α} (h : t.Leads allows) {allows' : α → List Span → Prop}
    {base : Nat} (hallows : ∀ data sources, allows data sources →
      allows' data (sources.map (·.shift base))) : (t.shiftSource base).Leads allows' := by
  intro m hm
  obtain ⟨m', hm', rfl⟩ := List.mem_map.1 hm
  rw [Mapping.sources_shiftSource]
  exact hallows _ _ (h m' hm')

end MappedText

/-! ## 3. With links

Links and marks are places of the text itself.  They lead nowhere else. -/

namespace LinkedText

/-- The linked text leads where its body leads. -/
def Leads (allows : CodeData → List Span → Prop) (t : LinkedText) : Prop := t.body.Leads allows

variable {allows : CodeData → List Span → Prop}

theorem leads_closed : Closed (Leads allows) := MappedText.leads_closed.linked

theorem leads_concat {ts : List LinkedText} : (concat ts).Leads allows ↔ ∀ t ∈ ts, t.Leads allows :=
  MappedText.leads_concat.trans List.forall_mem_map

@[simp] theorem leads_plain (text : String) : (plain text).Leads allows := leads_closed.plain text

@[simp] theorem leads_mapped {code : String} {source : Span} {mode : MatchMode} {data : CodeData} :
    (mapped code source mode data).Leads allows ↔ allows data [source] := MappedText.leads_mapped

end LinkedText

/-! ## 4. Regions -/

/-- The data names the region, and the spans lie in a content that ends at offset `stop`. -/
def InRegion (region : Region) (stop : Nat) (data : CodeData) (sources : List Span) : Prop :=
  data.region = region ∧ ∀ s ∈ sources, s.EndsAt (· ≤ stop)

@[simp] theorem inRegion_singleton {region : Region} {stop : Nat} {data : CodeData} {s : Span} :
    InRegion region stop data [s] ↔ data.region = region ∧ s.EndsAt (· ≤ stop) := by simp [InRegion]

/-- The spans lie in one of the regions, of the kind that the data names.  Their ends may touch its ends. -/
def InRegions (regions : List (Region × Span)) (data : CodeData) (sources : List Span) : Prop :=
  ∃ r ∈ regions, r.1 = data.region ∧ ∀ s ∈ sources, s.EndsAt (r.2.touches · = true)

/-- A span inside a content, moved to where the content stands, touches that place with both its ends. -/
theorem Span.Reads.endsAt_shift {place s : Span} {file content : List Char}
    (hplace : place.Reads file content) (hs : s.EndsAt (· ≤ byteLength content)) :
    (s.shift place.start).EndsAt (place.touches · = true) := by
  have hstart : s.start ≤ byteLength content := hs.1
  have hstop : s.stop ≤ byteLength content := hs.2
  have hend := hplace.stop_eq
  constructor
  · show place.touches (s.start + place.start) = true
    simp only [Span.touches, Bool.and_eq_true, decide_eq_true_eq]
    omega
  · show place.touches (s.stop + place.start) = true
    simp only [Span.touches, Bool.and_eq_true, decide_eq_true_eq]
    omega

/-- **Moving to the block.**  What lies in the content of a block lies in the file, in the region that the
block is. -/
theorem InRegion.shift {regions : List (Region × Span)} {region : Region} {place : Span}
    {file content : List Char} (hplace : place.Reads file content) (hregion : (region, place) ∈ regions)
    {data : CodeData} {sources : List Span} (h : InRegion region (byteLength content) data sources) :
    InRegions regions data (sources.map (·.shift place.start)) := by
  obtain ⟨hdata, hsources⟩ := h
  refine ⟨_, hregion, hdata.symm, ?_⟩
  intro s hs
  obtain ⟨s', hs', rfl⟩ := List.mem_map.1 hs
  exact hplace.endsAt_shift (hsources s' hs')

end ComponentLens
