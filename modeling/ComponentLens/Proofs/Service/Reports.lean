/-
# Where reported places come from

A request about one file may report places in others: what the backend finds in a generated document is mapped
back through the build that is held for the document's component.  The request has its own file built.  For any
other file it takes the build that it finds, and gives the range in the text that the file has by then.

`reported_from` says what comes of this.  Behind every reported place stands one that a tool answered the request
with.  It is asked of the latter whether it lies in a generated document.  If it does not, it is reported as it
is; if it does, it was mapped through a held build that has this document.  In the file asked about that is a
build of the present text, or of one with the same digest.  In another open file it is a build of the present text
if and only if the file still has, or has again, the text that its build was made from (`builtFrom`).
`references_after_shift` is a session in which it has not.

What the backend answered is read off the recorded run of the request (`lookupGiven`, `renameGiven`).
-/
import ComponentLens.Proofs.Service.Cancellation
import ComponentLens.Proofs.Service.Recording

namespace ComponentLens.Service

open Virtual (Build)

variable {σ : Type}

/-! ## 1. Origins -/

/-- A map of the build leads from a place in one of its documents to the span of the file. -/
inductive MapsTo (b : Build) (found : Place) : Span → Prop where
  | code {d : Virtual.CodeDocument} {hit : Hit CodeData} (hd : d ∈ b.codeDocuments)
      (huri : d.document.uri = found.uri) (hhit : hit ∈ d.map.toSources found.span) : MapsTo b found hit.range
  | style {d : Virtual.StyleDocument} {hit : Hit Unit} (hd : d ∈ b.styleDocuments)
      (huri : d.document.uri = found.uri) (hhit : d.map.toSource? found.span = some hit) :
      MapsTo b found hit.range
  | markup {d : Virtual.MarkupDocument} {hit : Hit Unit} (hd : b.markup = some d)
      (huri : d.document.uri = found.uri) (hhit : d.map.toSource? found.span = some hit) :
      MapsTo b found hit.range

/-- What becomes of a place that was found: it is in no generated document and is kept, or it is in a document of a
held build and is mapped to the file of that build. -/
inductive Origin (builds : BuildCache) (found : Place) : Place → Prop where
  | kept (h : builds.generator? found.uri = none) : Origin builds found found
  | mapped {uri : Uri} {span : Span} {h : HeldBuild} (hget : builds.get? uri = some h)
      (hmaps : MapsTo h.build found span) : Origin builds found ⟨uri, span⟩

/-- The place comes from one of those that were found. -/
def Traced (builds : BuildCache) (given : List Place) (p : Place) : Prop :=
  ∃ found ∈ given, Origin builds found p

theorem Traced.mono {builds : BuildCache} {given more : List Place} {p : Place} (h : Traced builds given p)
    (hmore : given ⊆ more) : Traced builds more p := by
  obtain ⟨found, hfound, horigin⟩ := h
  exact ⟨found, hmore hfound, horigin⟩

/-- Every held build is found at the address that it was made for. -/
def Addressed (builds : BuildCache) : Prop := ∀ u h, builds.get? u = some h → h.build.uri = u

/-- The range is that of the place: in the text of the open file, or in a text that the backend gave. -/
def LocatedAt (exchanges : List Exchange) (w : Workspace) (p : Place) (range : Range) : Prop :=
  w.files.rangeOf? p.uri p.span = some range ∨
    ∃ text, .text p.uri (some text) ∈ exchanges ∧ PlainLines.rangeOf? text p.span = some range

/-- The range of a file is that of a place that comes from one of those found. -/
def Reported (exchanges : List Exchange) (given : List Place) (w : Workspace) (uri : Uri) (range : Range) :
    Prop :=
  ∃ span, LocatedAt exchanges w ⟨uri, span⟩ range ∧ Traced w.builds given ⟨uri, span⟩

section
variable {builds : BuildCache} (haddressed : Addressed builds)
include haddressed

theorem Origin.ofBuild {b : Build} {uri : Uri} {found : Place} {span : Span} (hbuild : builds.build? uri = some b)
    (hmaps : MapsTo b found span) : Origin builds found ⟨b.uri, span⟩ := by
  obtain ⟨h, hget, rfl⟩ := BuildCache.build?_eq_some_iff.1 hbuild
  rw [haddressed uri h hget]
  exact .mapped hget hmaps

theorem mapBack_origin {wanted : Capabilities} {q : Place} {p : MappedPlace}
    (hp : p ∈ mapBack builds wanted q) : Origin builds q p.place := by
  unfold mapBack at hp
  split at hp
  next hnone =>
    rw [List.mem_singleton.1 hp]
    exact .kept hnone
  next h hsome =>
    split at hp
    · cases hp
    next d hd =>
      obtain ⟨hit, hhit, rfl⟩ := List.mem_map.1 hp
      obtain ⟨o, -, hget, -⟩ := BuildCache.generator?_eq_some_iff.1 hsome
      exact .ofBuild haddressed (BuildCache.build?_eq_some_iff.2 ⟨h, hget, rfl⟩)
        (.code (List.mem_of_find?_eq_some hd) (by simpa using List.find?_some hd) (List.mem_filter.1 hhit).1)

end

/-! ## 2. What the other services find -/

/-- What the style service answers a look-up with. -/
def styleAnswers (style : Option StyleService) (w : Workspace) (lookup : Lookup) (uri : Uri) (pos : Position) :
    List Place :=
  match lookup with
  | .references => withStyles style w uri pos fun style _ d offset => orNothing (style.references d.document offset)
  | .definition => withStyles style w uri pos fun style _ d offset =>
      orNothing ((style.definition d.document offset).map Option.toList)
  | .typeDefinition => []

/-- What the markup service and the style service edit for a rename. -/
def serviceEdits (tools : Tools σ) (b : Build) (offset : Nat) (newName : String) : List Place :=
  (match tools.markup, b.markup with
  | some markup, some d => (d.map.toTargets (Span.empty offset)).flatMap fun hit =>
      editedPlaces (markup.rename d.document hit.range.start newName)
  | _, _ => []) ++
  match tools.style with
  | some style => (styleOffsets style b offset).flatMap fun (d, offset) =>
      editedPlaces (style.rename d.document offset newName)
  | none => []

theorem styleOffsets_mem {style : StyleService} {b : Build} {offset : Nat}
    {pair : Virtual.StyleDocument × Nat} (h : pair ∈ styleOffsets style b offset) :
    pair.1 ∈ b.styleDocuments := by
  obtain ⟨d, hd, hpair⟩ := List.mem_flatMap.1 h
  obtain ⟨hit, -, rfl⟩ := List.mem_map.1 hpair
  exact (List.mem_filter.1 hd).1

theorem heldBuild_of_build? {w : Workspace} {uri : Uri} {b : Build} (h : w.build? uri = some b) :
    w.builds.build? uri = some b := by
  obtain ⟨-, -, hb⟩ := Option.bind_eq_some_iff.1 h
  exact hb

/-- What becomes of the answers of the style service in each stylesheet, and so in all of them. -/
theorem withStyles_traced {style : Option StyleService} {w : Workspace} {uri : Uri} {pos : Position}
    {find : StyleService → Build → Virtual.StyleDocument → Nat → List MappedPlace}
    {answers : StyleService → Build → Virtual.StyleDocument → Nat → List Place}
    (hfind : ∀ style b d offset, w.builds.build? uri = some b → d ∈ b.styleDocuments →
      ∀ p ∈ find style b d offset, Traced w.builds (answers style b d offset) p.place) :
    ∀ p ∈ withStyles style w uri pos find, Traced w.builds (withStyles style w uri pos answers) p.place := by
  intro p hp
  unfold withStyles at hp ⊢
  split at hp
  next hb _ =>
    obtain ⟨pair, hpair, hp⟩ := List.mem_flatMap.1 hp
    refine (hfind _ _ _ _ (heldBuild_of_build? hb) (styleOffsets_mem hpair) p hp).mono fun q hq => ?_
    exact List.mem_flatMap.2 ⟨pair, hpair, hq⟩
  · cases hp

/-- An edit of a document is an edit of a place in it. -/
theorem mem_placed_of_mem_of {changes : Changes} {uri : Uri} {e : SpanEdit} (h : e ∈ changes.of uri) :
    (⟨uri, e.span⟩ : Place) ∈ changes.placed.map (·.place) := by
  cases hedits : Table.get? changes uri with
  | none => simp [Changes.of, hedits] at h
  | some edits =>
    rw [Changes.of, hedits] at h
    have hentry := (Table.get?_eq_some_iff _ _ _).1 hedits
    refine List.mem_map.2 ⟨⟨⟨uri, e.span⟩, e.newText⟩, List.mem_flatMap.2 ⟨(uri, edits), ?_, ?_⟩, rfl⟩
    · exact List.mem_mergeSort.2 hentry
    · exact List.mem_map.2 ⟨e, h, rfl⟩

theorem embeddedEdits_mem {b : Build} {document : Virtual.Document} {map : SpanMap Unit}
    {reply : Reply Changes} {e : PlacedEdit} (h : e ∈ embeddedEdits b document map reply) :
    ∃ found ∈ editedPlaces reply, ∃ hit, document.uri = found.uri ∧ map.toSource? found.span = some hit ∧
      e.place = ⟨b.uri, hit.range⟩ := by
  obtain ⟨edit, hedit, he⟩ := List.mem_filterMap.1 h
  obtain ⟨hit, hhit, rfl⟩ := Option.map_eq_some_iff.1 he
  refine ⟨⟨document.uri, edit.span⟩, ?_, hit, rfl, hhit, rfl⟩
  cases reply with
  | ok changes => exact mem_placed_of_mem_of hedit
  | error _ => cases hedit

section
variable {w : Workspace} (haddressed : Addressed w.builds)
include haddressed

theorem inComponent?_origin {b : Build} {d : Virtual.StyleDocument} {found : Place} {p : MappedPlace}
    {uri : Uri} (hb : w.builds.build? uri = some b) (hd : d ∈ b.styleDocuments) (huri : d.document.uri = found.uri)
    (hp : inComponent? b d.map found.span = some p) : Origin w.builds found p.place := by
  obtain ⟨hit, hhit, rfl⟩ := Option.map_eq_some_iff.1 hp
  exact .ofBuild haddressed hb (.style hd huri hhit)

theorem styleReferences_traced {style : StyleService} {b : Build} {d : Virtual.StyleDocument} {offset : Nat}
    {uri : Uri} (hb : w.builds.build? uri = some b) (hd : d ∈ b.styleDocuments) :
    ∀ p ∈ styleReferences style b d offset,
      Traced w.builds (orNothing (style.references d.document offset)) p.place := by
  intro p hp
  obtain ⟨found, hfound, hp⟩ := List.mem_filterMap.1 hp
  obtain ⟨hfound, huri⟩ := List.mem_filter.1 hfound
  exact ⟨found, hfound, inComponent?_origin haddressed hb hd (eq_of_beq huri).symm hp⟩

theorem styleDefinition_traced {style : StyleService} {b : Build} {d : Virtual.StyleDocument} {offset : Nat}
    {uri : Uri} (hb : w.builds.build? uri = some b) :
    ∀ p ∈ styleDefinition w.builds style b d offset,
      Traced w.builds (orNothing ((style.definition d.document offset).map Option.toList)) p.place := by
  intro p hp
  unfold styleDefinition at hp
  split at hp
  next found hreply =>
    rw [hreply]
    refine ⟨found, List.mem_cons_self, ?_⟩
    split at hp
    next d hd =>
      exact inComponent?_origin haddressed hb (List.mem_of_find?_eq_some hd) (by simpa using List.find?_some hd)
        (Option.mem_toList.1 hp)
    next =>
      split at hp
      · cases hp
      next howner =>
        rw [List.mem_singleton.1 hp]
        refine .kept ?_
        rw [BuildCache.generator?, Option.not_isSome_iff_eq_none.1 howner]
        rfl
  · cases hp

theorem stylePlaces_traced (style : Option StyleService) (lookup : Lookup) (uri : Uri) (pos : Position) :
    ∀ p ∈ stylePlaces style w lookup uri pos, Traced w.builds (styleAnswers style w lookup uri pos) p.place := by
  unfold stylePlaces styleAnswers
  cases lookup with
  | references => exact withStyles_traced fun _ _ _ _ hb hd => styleReferences_traced haddressed hb hd
  | definition => exact withStyles_traced fun _ _ _ _ hb _ => styleDefinition_traced haddressed hb
  | typeDefinition => exact fun p hp => by cases hp

end

/-! ## 3. Look-ups -/

section
variable {all : List Exchange} {w : Workspace}

theorem records_locate? (backend : Backend σ) (p : Place) :
    Records all (locate? backend w p) (locate? backend.recorded w p) fun o =>
      ∀ l ∈ o, l.uri = p.uri ∧ LocatedAt all w p l.range := by
  unfold locate?
  split
  next range hrange => exact .pure fun l hl => by cases hl; exact ⟨rfl, .inl hrange⟩
  next =>
    refine (Records.record (.text p.uri) _).bind fun text => .pure fun htext l hl => ?_
    obtain ⟨range, hrange, rfl⟩ := Option.map_eq_some_iff.1 hl
    obtain ⟨text, rfl, hrange⟩ := Option.bind_eq_some_iff.1 hrange
    exact ⟨rfl, .inr ⟨text, htext, hrange⟩⟩

theorem records_locations (given : List Place) (backend : Backend σ) (places : List MappedPlace) :
    Records all (locations backend w places) (locations backend.recorded w places) fun ls =>
      (∀ p ∈ places, Traced w.builds given p.place) → ∀ l ∈ ls, Reported all given w l.uri l.range := by
  refine (Records.gather (R := fun p => Traced w.builds given p) (fun p => ?_) _).mono fun ls hls hplaces =>
    hls fun p hp => ?_
  · refine (records_locate? backend p).bind fun o => .pure fun ho hp l hl => ?_
    obtain ⟨huri, hat⟩ := ho l (Option.mem_toList.1 hl)
    rw [huri]
    exact ⟨p.span, hat, hp⟩
  · obtain ⟨mapped, hmapped, rfl⟩ := List.mem_map.1 (List.mem_eraseDups.1 hp)
    exact hplaces mapped hmapped

theorem records_offsetAt? (backend : Backend σ) (uri : Uri) (pos : Position) :
    Records all (offsetAt? backend w uri pos) (offsetAt? backend.recorded w uri pos) fun _ => True := by
  unfold offsetAt?
  split
  · exact .pure trivial
  · exact (Records.record (.text uri) _).bind fun text => .pure fun _ => trivial

end

section
variable {all : List Exchange} {w : Workspace} (haddressed : Addressed w.builds)
include haddressed

theorem records_mappedPlaces (backend : Backend σ) (lookup : Lookup) (starts : List Start) :
    Records all (mappedPlaces backend w.builds lookup starts)
      (mappedPlaces backend.recorded w.builds lookup starts) fun ps =>
        ∀ p ∈ ps, Traced w.builds (answeredPlaces all) p.place := by
  refine (records_followPlaces lookup w.builds starts).bind fun found => .pure fun hfound p hp => ?_
  cases found with
  | none => cases hp
  | some found =>
    obtain ⟨a, ha, hback⟩ := List.mem_flatMap.1 hp
    exact ⟨a.1, hfound found rfl a ha, mapBack_origin haddressed hback⟩

theorem records_codePlaces (backend : Backend σ) (lookup : Lookup) (uri : Uri) (pos : Position) :
    Records all (codePlaces backend w lookup uri pos) (codePlaces backend.recorded w lookup uri pos) fun ps =>
      ∀ p ∈ ps, Traced w.builds (answeredPlaces all) p.place := by
  unfold codePlaces
  split
  · split
    · exact records_mappedPlaces haddressed backend lookup _
    · exact .pure fun p hp => by cases hp
  · refine (records_offsetAt? backend uri pos).bind fun offset => ?_
    cases offset with
    | none => exact .pure fun _ p hp => by cases hp
    | some offset =>
      refine (records_mappedPlaces haddressed backend lookup _).bind fun ps => .pure fun hps _ p hp => ?_
      exact hps p (List.mem_filter.1 hp).1

/-- **A look-up** reports places that come from what the backend and the style service answered. -/
theorem records_symbolLocations (tools : Tools σ) (lookup : Lookup) (uri : Uri) (pos : Position) :
    Records all (symbolLocations tools w lookup uri pos (stylePlaces tools.style w lookup uri pos))
      (symbolLocations tools.recorded w lookup uri pos (stylePlaces tools.style w lookup uri pos)) fun ls =>
        ∀ l ∈ ls,
          Reported all (answeredPlaces all ++ styleAnswers tools.style w lookup uri pos) w l.uri l.range := by
  refine (records_codePlaces haddressed tools.backend lookup uri pos).bind fun places => ?_
  refine (Records.offRecord tools.backend.isCancelled).bind fun cancelled => ?_
  cases cancelled with
  | true => exact .pure fun _ _ l hl => by cases hl
  | false =>
    refine (records_locations _ tools.backend _).mono fun ls hls _ hplaces => hls fun p hp => ?_
    rcases List.mem_append.1 hp with hp | hp
    · exact (hplaces p hp).mono (List.subset_append_left _ _)
    · exact (stylePlaces_traced haddressed tools.style lookup uri pos p hp).mono (List.subset_append_right _ _)

end

theorem records_lookupRequest {all : List Exchange} (tools : Tools σ) (w : Workspace) (lookup : Lookup)
    (uri : Uri) (pos : Position) (haddressed : Addressed (w.refresh uri).builds) :
    Records all (lookupRequest tools w lookup uri pos) (lookupRequest tools.recorded w lookup uri pos)
      fun answer => ∀ l ∈ answer.1,
        Reported all (answeredPlaces all ++ styleAnswers tools.style (w.refresh uri) lookup uri pos)
          (w.refresh uri) l.uri l.range := by
  cases lookup <;> exact (records_symbolLocations haddressed tools _ uri pos).bind fun ls => .pure fun hls => hls

/-! ## 4. Renaming -/

theorem mem_of_mem_eraseDupsBy {α : Type} {r : α → α → Bool} {a : α} {as : List α}
    (h : a ∈ as.eraseDupsBy r) : a ∈ as := by
  induction hn : as.length using Nat.strongRecOn generalizing as with
  | ind n ih =>
    cases as with
    | nil => exact h
    | cons b rest =>
      rw [List.eraseDupsBy_cons] at h
      rcases List.mem_cons.1 h with rfl | h
      · exact List.mem_cons_self
      · have hlt : (rest.filter fun c => decide (r c b = false)).length < n :=
          hn ▸ Nat.lt_succ_of_le (List.length_filter_le _ rest)
        exact List.mem_cons_of_mem _ (List.mem_filter.1 (ih _ hlt h rfl)).1

theorem mem_of_mem_firstNonempty {α : Type} {a : α} {lists : List (List α)}
    (h : a ∈ firstNonempty lists) : ∃ list ∈ lists, a ∈ list := by
  induction lists with
  | nil => cases h
  | cons list rest ih =>
    rw [firstNonempty] at h
    split at h
    · obtain ⟨found, hfound, ha⟩ := ih h
      exact ⟨found, List.mem_cons_of_mem _ hfound, ha⟩
    · exact ⟨list, List.mem_cons_self, h⟩

section
variable {w : Workspace} (haddressed : Addressed w.builds)
include haddressed

theorem records_codeEdits {all : List Exchange} (backend : Backend σ) (b : Build) (offset : Nat)
    (newName : String) :
    Records all (codeEdits backend w.builds b offset newName)
      (codeEdits backend.recorded w.builds b offset newName) fun es =>
        ∀ e ∈ es, Traced w.builds (answeredPlaces all) e.place := by
  refine (records_followEdits w.builds _).bind fun found => .pure fun hfound e he => ?_
  obtain ⟨a, ha, he⟩ := List.mem_flatMap.1 (mem_of_mem_eraseDupsBy he)
  obtain ⟨p, hp, he⟩ := List.mem_filterMap.1 he
  obtain ⟨text, -, rfl⟩ := Option.map_eq_some_iff.1 he
  refine ⟨a.1, ?_, mapBack_origin haddressed hp⟩
  cases found with
  | none => cases ha
  | some found => exact hfound found rfl a ha

theorem markupEdits_traced {tools : Tools σ} {b : Build} {uri : Uri} {offset : Nat} {newName : String}
    (hb : w.builds.build? uri = some b) :
    ∀ e ∈ markupEdits tools.markup b offset newName,
      Traced w.builds (serviceEdits tools b offset newName) e.place := by
  intro e he
  unfold markupEdits at he
  split at he
  next markup d hmarkup hd =>
    obtain ⟨hit, hhit, he⟩ := List.mem_flatMap.1 (mem_of_mem_eraseDupsBy he)
    obtain ⟨found, hfound, source, huri, hsource, hplace⟩ := embeddedEdits_mem he
    rw [hplace]
    refine ⟨found, List.mem_append_left _ ?_, .ofBuild haddressed hb (.markup hd huri hsource)⟩
    rw [hmarkup, hd]
    exact List.mem_flatMap.2 ⟨hit, hhit, hfound⟩
  · cases he

theorem styleEdits_traced {tools : Tools σ} {b : Build} {uri : Uri} {offset : Nat} {newName : String}
    (hb : w.builds.build? uri = some b) :
    ∀ e ∈ styleEdits tools.style b offset newName,
      Traced w.builds (serviceEdits tools b offset newName) e.place := by
  intro e he
  unfold styleEdits at he
  split at he
  next style hstyle =>
    obtain ⟨pair, hpair, he⟩ := List.mem_flatMap.1 (mem_of_mem_eraseDupsBy he)
    obtain ⟨found, hfound, source, huri, hsource, hplace⟩ := embeddedEdits_mem he
    rw [hplace]
    refine ⟨found, List.mem_append_right _ ?_, .ofBuild haddressed hb (.style (styleOffsets_mem hpair) huri hsource)⟩
    rw [hstyle]
    exact List.mem_flatMap.2 ⟨pair, hpair, hfound⟩
  · cases he

theorem records_renameEdits {all : List Exchange} (tools : Tools σ) {b : Build} {uri : Uri} (offset : Nat)
    (newName : String) (hb : w.builds.build? uri = some b) :
    Records all (renameEdits tools w b offset newName) (renameEdits tools.recorded w b offset newName)
      fun es => ∀ e ∈ es,
        Traced w.builds (answeredPlaces all ++ serviceEdits tools b offset newName) e.place := by
  refine (records_codeEdits haddressed tools.backend b offset newName).bind fun es => ?_
  refine (Records.offRecord tools.backend.isCancelled).bind fun cancelled => ?_
  cases cancelled with
  | true => exact .pure fun _ _ e he => by cases he
  | false =>
    refine .pure fun _ hes e he => ?_
    obtain ⟨list, hlist, he⟩ := mem_of_mem_firstNonempty he
    simp only [List.mem_cons, List.not_mem_nil, or_false] at hlist
    rcases hlist with hlist | rfl | rfl
    · rw [hlist] at he
      exact (hes e he).mono (List.subset_append_left _ _)
    · exact (markupEdits_traced haddressed hb e he).mono (List.subset_append_right _ _)
    · exact (styleEdits_traced haddressed hb e he).mono (List.subset_append_right _ _)

end

section
variable {all : List Exchange} {w : Workspace} (given : List Place)

theorem records_rangeEdits (backend : Backend σ) (uri : Uri) (edits : List PlacedEdit) :
    Records all (rangeEdits backend w uri edits) (rangeEdits backend.recorded w uri edits) fun es =>
      (∀ e ∈ edits, e.place.uri = uri ∧ Traced w.builds given e.place) →
        ∀ e ∈ es, Reported all given w uri e.range := by
  have hreported : ∀ edit ∈ edits, (∀ e ∈ edits, e.place.uri = uri ∧ Traced w.builds given e.place) →
      ∀ range, LocatedAt all w ⟨uri, edit.place.span⟩ range → Reported all given w uri range := by
    intro edit hedit hedits range hat
    obtain ⟨rfl, htraced⟩ := hedits edit hedit
    exact ⟨edit.place.span, hat, htraced⟩
  unfold rangeEdits
  split
  · refine .pure fun hedits e he => ?_
    obtain ⟨edit, hedit, he⟩ := List.mem_filterMap.1 he
    obtain ⟨range, hrange, rfl⟩ := Option.map_eq_some_iff.1 he
    exact hreported edit hedit hedits range (.inl hrange)
  · refine (Records.record (.text uri) _).bind fun text => .pure fun htext hedits e he => ?_
    obtain ⟨edit, hedit, he⟩ := List.mem_filterMap.1 he
    obtain ⟨range, hrange, rfl⟩ := Option.map_eq_some_iff.1 he
    refine hreported edit hedit hedits range ?_
    cases text with
    | some text => exact .inr ⟨text, htext, hrange⟩
    | none => exact .inl hrange

/-- A file that is edited is that of some edit, even if none of its edits lies in the text. -/
theorem records_editsByFile (backend : Backend σ) (edits : List PlacedEdit) :
    Records all (editsByFile backend w edits) (editsByFile backend.recorded w edits) fun files =>
      (∀ e ∈ edits, Traced w.builds given e.place) → ∀ file ∈ files,
        (∃ p, p.uri = file.1 ∧ Traced w.builds given p) ∧ ∀ e ∈ file.2, Reported all given w file.1 e.range := by
  refine (Records.gather (R := fun uri => (∀ e ∈ edits, Traced w.builds given e.place) ∧
    ∃ e ∈ edits, e.place.uri = uri) (fun uri => ?_) _).mono fun files hfiles hedits => hfiles fun uri huri => ?_
  · refine (records_rangeEdits given backend uri _).bind fun es => .pure fun hes huri file hfile => ?_
    rw [List.mem_singleton.1 hfile]
    obtain ⟨hedits, edit, hedit, hsame⟩ := huri
    refine ⟨⟨edit.place, hsame, hedits edit hedit⟩, hes fun e he => ?_⟩
    obtain ⟨he, huri⟩ := List.mem_filter.1 he
    exact ⟨by simpa using huri, hedits e he⟩
  · exact ⟨hedits, by simpa using huri⟩

end

/-- What the other services edit for a rename at a position. -/
def renameServices (tools : Tools σ) (w : Workspace) (uri : Uri) (pos : Position) (newName : String) :
    List Place :=
  match w.build? uri, w.files.offsetAt? uri pos with
  | some b, some offset => serviceEdits tools b offset newName
  | _, _ => []

/-- **A rename** edits places that come from what the backend and the other services edit. -/
theorem records_rename {all : List Exchange} (tools : Tools σ) (w : Workspace) (uri : Uri) (pos : Position)
    (newName : String) (haddressed : Addressed (w.refresh uri).builds) :
    Records all (rename tools w uri pos newName) (rename tools.recorded w uri pos newName) fun answer =>
      ∀ files ∈ answer.1, ∀ file ∈ files,
        (∃ p, p.uri = file.1 ∧ Traced (w.refresh uri).builds
          (answeredPlaces all ++ renameServices tools (w.refresh uri) uri pos newName) p) ∧
        ∀ e ∈ file.2, Reported all (answeredPlaces all ++ renameServices tools (w.refresh uri) uri pos newName)
          (w.refresh uri) file.1 e.range := by
  unfold rename renameServices
  dsimp only
  cases hb : (w.refresh uri).build? uri with
  | none => exact .pure fun files hfiles => by cases hfiles
  | some b =>
    cases (w.refresh uri).files.offsetAt? uri pos with
    | none => exact .pure fun files hfiles => by cases hfiles
    | some offset =>
      refine (records_renameEdits haddressed tools offset newName (heldBuild_of_build? hb)).bind fun edits => ?_
      split
      · exact .pure fun _ files hfiles => by cases hfiles
      · refine (records_editsByFile (answeredPlaces all ++ serviceEdits tools b offset newName) tools.backend
          edits).bind fun files => .pure fun hfiles hedits files' h => ?_
        cases h
        exact hfiles hedits

/-! ## 5. Reports of a session -/

/-- What is said to the backend by a look-up that starts in state `s`. -/
def lookupExchanges (tools : Tools σ) (w : Workspace) (lookup : Lookup) (uri : Uri) (pos : Position) (s : σ) :
    List Exchange :=
  (lookupRequest tools.recorded w lookup uri pos (.start s)).2.exchanges

/-- The places that the tools answer the look-up with. -/
def lookupGiven (tools : Tools σ) (w : Workspace) (lookup : Lookup) (uri : Uri) (pos : Position) (s : σ) :
    List Place :=
  answeredPlaces (lookupExchanges tools w lookup uri pos s) ++
    styleAnswers tools.style (w.refresh uri) lookup uri pos

/-- What is said to the backend by a rename that starts in state `s`. -/
def renameExchanges (tools : Tools σ) (w : Workspace) (uri : Uri) (pos : Position) (newName : String) (s : σ) :
    List Exchange :=
  (rename tools.recorded w uri pos newName (.start s)).2.exchanges

/-- The places that the tools edit for the rename. -/
def renameGiven (tools : Tools σ) (w : Workspace) (uri : Uri) (pos : Position) (newName : String) (s : σ) :
    List Place :=
  answeredPlaces (renameExchanges tools w uri pos newName s) ++
    renameServices tools (w.refresh uri) uri pos newName

theorem lookupRequest_reported (tools : Tools σ) (w : Workspace) (lookup : Lookup) (uri : Uri) (pos : Position)
    (haddressed : Addressed (w.refresh uri).builds) (s : σ) :
    ∀ l ∈ (lookupRequest tools w lookup uri pos s).1.1,
      Reported (lookupExchanges tools w lookup uri pos s) (lookupGiven tools w lookup uri pos s) (w.refresh uri)
        l.uri l.range :=
  (records_lookupRequest tools w lookup uri pos haddressed).result s

theorem rename_reported (tools : Tools σ) (w : Workspace) (uri : Uri) (pos : Position) (newName : String)
    (haddressed : Addressed (w.refresh uri).builds) (s : σ) :
    ∀ files ∈ (rename tools w uri pos newName s).1.1, ∀ file ∈ files,
      (∃ p, p.uri = file.1 ∧
        Traced (w.refresh uri).builds (renameGiven tools w uri pos newName s) p) ∧
      ∀ e ∈ file.2, Reported (renameExchanges tools w uri pos newName s)
        (renameGiven tools w uri pos newName s) (w.refresh uri) file.1 e.range :=
  (records_rename tools w uri pos newName haddressed).result s

namespace Session

variable {tools : Tools σ} {settings : Settings} {history : List (Event σ)}

theorem Tracked.addressed (h : Tracked tools settings history) :
    Addressed (after tools settings history).builds := by
  intro uri held hget
  obtain ⟨file, -, hstands⟩ := h.held uri held hget
  rw [hstands.build]
  rfl

variable (tools settings history) in
/-- The range was reported by a request about the file `asked`, and this is how it came about. It is that of a
place which stands for one that the request was given. If the latter lies in no generated document, the two are
the same. Else the held build of the file has the document that it lies in, and the document's map leads from it
to the place. In the file asked about this is a build of the present text or of one with the same digest. In
another open component it is a build of the present text exactly when that is the text that its build was made
from. -/
def ReportedFrom (asked : Uri) (exchanges : List Exchange) (given : List Place) (uri : Uri) (range : Range) :
    Prop :=
  let w := (after tools settings history).refresh asked
  ∃ found ∈ given, ∃ span, LocatedAt exchanges w ⟨uri, span⟩ range ∧
    ((w.builds.generator? found.uri = none ∧ found = ⟨uri, span⟩) ∨
      ∃ h, w.builds.get? uri = some h ∧ MapsTo h.build found span ∧ ∀ file, w.component? uri = some file →
        (uri = asked → Digest.ofString h.build.text = Digest.ofString file.text) ∧
        (uri ≠ asked → (h.build.text = file.text ↔
          builtFrom tools settings uri history = some file.text)))

theorem Tracked.reportedFrom (h : Tracked tools settings history) {asked uri : Uri} {exchanges : List Exchange}
    {given : List Place} {range : Range}
    (hreported : Reported exchanges given ((after tools settings history).refresh asked) uri range) :
    ReportedFrom tools settings history asked exchanges given uri range := by
  obtain ⟨span, hat, found, hfound, horigin⟩ := hreported
  refine ⟨found, hfound, span, hat, ?_⟩
  cases horigin with
  | kept hnone => exact .inl ⟨hnone, rfl⟩
  | @mapped _ _ held hget hmaps =>
    refine .inr ⟨held, hget, hmaps, fun file hfile => ⟨fun huri => ?_, fun huri => ?_⟩⟩
    · subst huri
      rw [component?_refresh] at hfile
      obtain ⟨new, hnew, hstands, hversion, -⟩ :=
        refresh_standsFor hfile fun _ hheld => h.standsFor (get?_of_component? hfile) hheld
      rw [hnew] at hget
      cases hget
      exact hstands.current hversion
    · rw [get?_builds_refresh_of_ne _ huri] at hget
      have htext := h.text uri
      rw [BuildCache.build?, hget] at htext
      rw [← htext]
      simp

variable (tools settings history) in
/-- **The builds that reports are mapped through.**  After any history in which the versions of an open file
rise, and with any backend, every location that a request for references, definitions or type definitions
reports, and every edit of a rename, stands for a place that the tools answered this request with.  If that lies
in no generated document, it is the place reported; else it was mapped through the held build of the file.  That
is a build of the present text of the file asked about, as far as digests tell, and of the present text of another
open component if and only if that text is the one its build was made from. -/
theorem reported_from (hrising : Rising history) (uri : Uri) (pos : Position) (newName : String) (state : σ) :
    (∀ lookup, ∀ l ∈ (lookupRequest tools (after tools settings history) lookup uri pos state).1.1,
      ReportedFrom tools settings history uri
        (lookupExchanges tools (after tools settings history) lookup uri pos state)
        (lookupGiven tools (after tools settings history) lookup uri pos state) l.uri l.range) ∧
    (∀ files ∈ (rename tools (after tools settings history) uri pos newName state).1.1,
      ∀ file ∈ files, ∀ e ∈ file.2, ReportedFrom tools settings history uri
        (renameExchanges tools (after tools settings history) uri pos newName state)
        (renameGiven tools (after tools settings history) uri pos newName state) file.1 e.range) := by
  have htracked := tracked tools settings history hrising
  have haddressed : Addressed ((after tools settings history).refresh uri).builds :=
    (htracked.asked (.build uri) state).addressed
  constructor
  · intro lookup l hl
    exact htracked.reportedFrom (lookupRequest_reported tools _ lookup uri pos haddressed state l hl)
  · intro files hfiles file hfile e he
    exact htracked.reportedFrom
      ((rename_reported tools _ uri pos newName haddressed state files hfiles file hfile).2 e he)

/-! ## 6. A file that is moved behind the back of its build -/

/-- A backend that finds every symbol at the start of the script of `B.vue`. -/
def scriptOfB : Backend Unit :=
  { silentBackend with find := fun _ _ _ => pure (.ok [⟨⟨"file:///B.vue.__VLS_script.js"⟩, ⟨0, 1⟩⟩]) }

/-- Two components are opened and one is built; then a line break is put in front of that one. -/
def shifted : List (Event Unit) :=
  [.changed ⟨"file:///B.vue"⟩ 2 [⟨some ⟨⟨0, 0⟩, ⟨0, 0⟩⟩, "\n"⟩], .asked (.build ⟨"file:///B.vue"⟩) (),
    .opened ⟨⟨"file:///B.vue"⟩, 1, "vue", "<script>b</script>"⟩,
    .opened ⟨⟨"file:///A.vue"⟩, 1, "vue", "<script>a</script>"⟩]

/-- The place that is reported to `A.vue` stands for the one that the backend found, which lies in a generated
document. -/
theorem reported_from_shifted :
    ReportedFrom ⟨scriptOfB, none, none⟩ {} shifted ⟨"file:///A.vue"⟩
      (lookupExchanges ⟨scriptOfB, none, none⟩ (after ⟨scriptOfB, none, none⟩ {} shifted) .references
        ⟨"file:///A.vue"⟩ ⟨0, 8⟩ ())
      [⟨⟨"file:///B.vue.__VLS_script.js"⟩, ⟨0, 1⟩⟩] ⟨"file:///B.vue"⟩ ⟨⟨1, 7⟩, ⟨1, 8⟩⟩ ∧
    (((after ⟨scriptOfB, none, none⟩ {} shifted).refresh ⟨"file:///A.vue"⟩).builds.generator?
      ⟨"file:///B.vue.__VLS_script.js"⟩).isSome = true := by
  have hrising : Rising shifted := by
    simp [shifted, Rising, latestVersion?]
  have hrun : (references ⟨scriptOfB, none, none⟩ (after ⟨scriptOfB, none, none⟩ {} shifted)
        ⟨"file:///A.vue"⟩ ⟨0, 8⟩ ()).1.1 = [⟨⟨"file:///B.vue"⟩, ⟨⟨1, 7⟩, ⟨1, 8⟩⟩⟩] ∧
      lookupGiven ⟨scriptOfB, none, none⟩ (after ⟨scriptOfB, none, none⟩ {} shifted) .references
        ⟨"file:///A.vue"⟩ ⟨0, 8⟩ () = [⟨⟨"file:///B.vue.__VLS_script.js"⟩, ⟨0, 1⟩⟩] ∧
      (((after ⟨scriptOfB, none, none⟩ {} shifted).refresh ⟨"file:///A.vue"⟩).builds.generator?
        ⟨"file:///B.vue.__VLS_script.js"⟩).isSome = true := by decide +kernel
  obtain ⟨hreferences, hgiven, hgenerated⟩ := hrun
  have hreported := (reported_from ⟨scriptOfB, none, none⟩ {} shifted hrising ⟨"file:///A.vue"⟩ ⟨0, 8⟩ "" ()).1
    .references ⟨⟨"file:///B.vue"⟩, ⟨⟨1, 7⟩, ⟨1, 8⟩⟩⟩ (hreferences ▸ List.mem_cons_self)
  rw [hgiven] at hreported
  exact ⟨hreported, hgenerated⟩

/-- The only place that is reported to `A.vue` was found in the script of `B.vue` and mapped through a build of
a text that `B.vue` no longer has: its range ends before the symbol. A request that has `B.vue` built first
reports the symbol. -/
theorem references_after_shift :
    Rising shifted ∧
    ((after ⟨scriptOfB, none, none⟩ {} (.asked (.build ⟨"file:///A.vue"⟩) () :: shifted)).builds.generator?
      ⟨"file:///B.vue.__VLS_script.js"⟩).map (·.build.text) = some "<script>b</script>" ∧
    ((after ⟨scriptOfB, none, none⟩ {} shifted).component? ⟨"file:///B.vue"⟩).map (·.text) =
      some "\n<script>b</script>" ∧
    (references ⟨scriptOfB, none, none⟩ (after ⟨scriptOfB, none, none⟩ {} shifted)
      ⟨"file:///A.vue"⟩ ⟨0, 8⟩ ()).1.1 = [⟨⟨"file:///B.vue"⟩, ⟨⟨1, 7⟩, ⟨1, 8⟩⟩⟩] ∧
    (references ⟨scriptOfB, none, none⟩ (after ⟨scriptOfB, none, none⟩ {}
      (.asked (.build ⟨"file:///B.vue"⟩) () :: shifted)) ⟨"file:///A.vue"⟩ ⟨0, 8⟩ ()).1.1 =
      [⟨⟨"file:///B.vue"⟩, ⟨⟨1, 8⟩, ⟨1, 9⟩⟩⟩] := by
  refine ⟨?_, ?_, ?_, ?_, ?_⟩
  · simp [shifted, Rising, latestVersion?]
  · decide +kernel
  · decide +kernel
  · decide +kernel
  · decide +kernel

end Session

end ComponentLens.Service
