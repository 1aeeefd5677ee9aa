/-
# Following links reaches everything

A walk asks the backend again at the far ends of links, and passes over what it has seen.  It prunes twice: a
place that comes up again brings no questions, and a far end that has been seen is not asked about.  What is
seen is shared between all starts of a request.  The result is nevertheless the whole closure:
`follow_isLeast` says that the places found are the least set that holds what the starts are answered with and
that is closed under following links, each place once.  Nothing in that set knows of an order.

The backend is taken to answer in classes: each place of an answer is answered with that same answer
(`Consistent`).  This is what makes pruning harmless.  The invariant `Walk.Inv` holds between questions: the
class of a seen place is seen, and so is the class of a far end of a seen place, unless its question is still
open.

Section 2 shows that the bound of questions is never met, since a walk that has asked as often would have seen
more places than offsets of 32 bits allow.
-/
import ComponentLens.Service.Symbols
import Mathlib.Algebra.BigOperators.Ring.List
import Mathlib.Algebra.Order.BigOperators.Group.List
import Mathlib.Algebra.Order.Ring.Nat
import Mathlib.Data.Finset.Card
import Mathlib.Data.Finset.Prod
import Mathlib.Order.Bounds.Defs

namespace ComponentLens.Service

/-! ## 1. Answers in classes -/

/-- What the backend knows: the places that a question about an offset is answered with. -/
abbrev Answers := Uri → Nat → Set Place

/-- Each place of an answer is answered with that answer. -/
def Answers.Consistent (q : Answers) : Prop :=
  ∀ u o, ∀ p ∈ q u o, q p.uri p.span.start = q u o

/-- Both ends of the place have 32 bits. -/
def Place.IsSmall (p : Place) : Prop := p.span.start < UInt32.size ∧ p.span.stop < UInt32.size

/-- Offsets have 32 bits. -/
def Answers.Small (q : Answers) : Prop := ∀ u o, ∀ p ∈ q u o, p.IsSmall

/-- The set holds what the questions are answered with, and with every place what its links lead to. -/
structure Closed (q : Answers) (ends : Place → List LinkEnd) (asked : List Question) (S : Set Place) :
    Prop where
  start : ∀ k ∈ asked, q k.uri k.offset ⊆ S
  hop : ∀ p ∈ S, ∀ e ∈ ends p, q p.uri e.range.start ⊆ S

/-! ## 2. How many questions there can be -/

/-- The number of links of a document, if it is the document of the given address. -/
def linksAt (uri : Uri) (d : Virtual.CodeDocument) : Nat :=
  if d.document.uri = uri then d.links.map.mappings.length else 0

/-- The documents of the held builds. -/
def heldDocuments (builds : BuildCache) : List Virtual.CodeDocument :=
  builds.held.values.flatMap (·.build.codeDocuments)

theorem length_ends_le (links : LinkMap) (span : Span) (origin : Region) :
    (links.ends span origin).length ≤ 2 * links.map.mappings.length := by
  have hhits : ∀ direction, (links.map.hits direction span).length ≤ links.map.mappings.length :=
    fun _ => List.length_filterMap_le ..
  have hforward : (links.forward span origin).length ≤ links.map.mappings.length := by
    rw [LinkMap.forward, List.length_map]
    exact (List.length_filter_le ..).trans (hhits _)
  have hbackward : (links.backward span origin).length ≤ links.map.mappings.length := by
    rw [LinkMap.backward, List.length_map]
    exact (List.length_filter_le ..).trans (hhits _)
  rw [LinkMap.ends, List.length_append]
  omega

theorem find?_mem {κ ν : Type} [DecidableEq κ] {key : κ} {entries : List (κ × ν)} {value : ν}
    (h : Table.find? key entries = some value) : value ∈ entries.map (·.2) := by
  induction entries with
  | nil => simp [Table.find?] at h
  | cons entry rest ih =>
    obtain ⟨k, v⟩ := entry
    rw [Table.find?] at h
    split at h
    · simp_all
    · exact List.mem_cons_of_mem _ (ih h)

/-- A document that is found is a document of a held build, and has the address asked for. -/
theorem codeDocument?_mem {builds : BuildCache} {uri : Uri} {b : Virtual.Build} {d : Virtual.CodeDocument}
    (h : builds.codeDocument? uri = some (b, d)) : d ∈ heldDocuments builds ∧ d.document.uri = uri := by
  obtain ⟨held, hgenerator, hdocument⟩ := Option.bind_eq_some_iff.1 h
  obtain ⟨d', hfind, heq⟩ := Option.map_eq_some_iff.1 hdocument
  cases heq
  obtain ⟨owner, -, hget⟩ := Option.bind_eq_some_iff.1 (Option.filter_eq_some_iff.1 hgenerator).1
  refine ⟨List.mem_flatMap.2 ⟨held, find?_mem hget, List.mem_of_find?_eq_some hfind⟩, ?_⟩
  simpa using List.find?_some hfind

/-- A place leads on at most twice through each link of its document. -/
theorem length_linkEnds_le (builds : BuildCache) (wanted : LinkCapabilities) (origin : Region)
    (p : Place) :
    (linkEnds builds wanted origin p).length ≤ 2 * ((heldDocuments builds).map (linksAt p.uri)).sum := by
  unfold linkEnds
  split
  next b d hfound =>
    obtain ⟨hmem, huri⟩ := codeDocument?_mem hfound
    have hone : linksAt p.uri d ≤ ((heldDocuments builds).map (linksAt p.uri)).sum :=
      List.single_le_sum (fun _ _ => Nat.zero_le _) _ (List.mem_map_of_mem hmem)
    rw [linksAt, if_pos huri] at hone
    exact (List.length_filter_le ..).trans ((length_ends_le ..).trans (Nat.mul_le_mul_left 2 hone))
  · simp

/-- There are as many spans as pairs of ends. -/
theorem length_spans_le (n : Nat) {spans : List Span} (hnodup : spans.Nodup)
    (hsmall : ∀ s ∈ spans, s.start < n ∧ s.stop < n) : spans.length ≤ n * n := by
  have hinj : ((spans.map fun s => (s.start, s.stop)) : List (Nat × Nat)).Nodup := by
    refine hnodup.map_on fun s _ s' _ heq => ?_
    obtain ⟨start, stop⟩ := s
    cases heq
    rfl
  have hsub : (spans.map fun s => (s.start, s.stop)).toFinset ⊆ Finset.range n ×ˢ Finset.range n := by
    intro pair hpair
    obtain ⟨s, hs, rfl⟩ := List.mem_map.1 (List.mem_toFinset.1 hpair)
    simpa using hsmall s hs
  have hcard := Finset.card_le_card hsub
  rwa [Finset.card_product, Finset.card_range, List.toFinset_card_of_nodup hinj, List.length_map] at hcard

/-- A document has at most `spanCount` places. -/
theorem count_places_le {ps : List Place} (hnodup : ps.Nodup) (hsmall : ∀ p ∈ ps, p.IsSmall) (uri : Uri) :
    (ps.filter (·.uri = uri)).length ≤ spanCount := by
  rw [← List.length_map (f := (·.span))]
  refine length_spans_le _ ?_ fun s hs => ?_
  · refine (List.Nodup.filter _ hnodup).map_on fun p hp p' hp' heq => ?_
    have huri : p.uri = uri := by simpa using (List.mem_filter.1 hp).2
    have huri' : p'.uri = uri := by simpa using (List.mem_filter.1 hp').2
    obtain ⟨u, s⟩ := p
    obtain ⟨u', s'⟩ := p'
    cases heq
    cases huri
    cases huri'
    rfl
  · obtain ⟨p, hp, rfl⟩ := List.mem_map.1 hs
    exact hsmall p (List.mem_filter.1 hp).1

/-- The places of one document lead on once for each of its links. -/
theorem sum_linksAt (ps : List Place) (d : Virtual.CodeDocument) :
    (ps.map fun p => linksAt p.uri d).sum =
      (ps.filter (·.uri = d.document.uri)).length * d.links.map.mappings.length := by
  induction ps with
  | nil => simp
  | cons p ps ih =>
    rw [List.map_cons, List.sum_cons, ih, linksAt, List.filter_cons]
    by_cases huri : d.document.uri = p.uri
    · simp [huri, Nat.add_mul, Nat.add_comm]
    · simp [huri, Ne.symm huri]

theorem sum_linksAt_le {ps : List Place} (hnodup : ps.Nodup) (hsmall : ∀ p ∈ ps, p.IsSmall)
    (ds : List Virtual.CodeDocument) :
    (ps.map fun p => (ds.map (linksAt p.uri)).sum).sum ≤
      spanCount * (ds.flatMap (·.links.map.mappings)).length := by
  induction ds with
  | nil => simp
  | cons d ds ih =>
    have hcount := Nat.mul_le_mul_right d.links.map.mappings.length
      (count_places_le hnodup hsmall d.document.uri)
    simp only [List.map_cons, List.sum_cons, List.flatMap_cons, List.length_append, List.sum_map_add,
      Nat.mul_add, sum_linksAt]
    omega

/-- **The bound.**  All places of a walk together lead on fewer times than a walk may ask. -/
theorem sum_linkEnds_le (builds : BuildCache) (wanted : LinkCapabilities) (origin : Region)
    {ps : List Place} (hnodup : ps.Nodup) (hsmall : ∀ p ∈ ps, p.IsSmall) :
    (ps.map fun p => (linkEnds builds wanted origin p).length).sum < maxQuestions builds := by
  have hplaces : (ps.map fun p => (linkEnds builds wanted origin p).length).sum ≤
      2 * (ps.map fun p => ((heldDocuments builds).map (linksAt p.uri)).sum).sum := by
    rw [← List.sum_map_mul_left]
    exact List.sum_le_sum fun p _ => length_linkEnds_le builds wanted origin p
  have hbound := sum_linksAt_le hnodup hsmall (heldDocuments builds)
  have hlinks : (heldDocuments builds).flatMap (·.links.map.mappings) =
      (builds.held.values.flatMap (·.build.codeDocuments)).flatMap (·.links.map.mappings) := rfl
  rw [maxQuestions, linkCount, ← hlinks]
  omega

/-! ## 3. One answer

What a walk gains by an answer, whatever the backend knows. -/

variable {σ α : Type} {ends : Place → List LinkEnd} {k : Question}

/-- The places that brought something new, in order. -/
def Walk.places (w : Walk α) : List Place := w.found.map (·.1)

/-- How often the places found lead on. -/
def Walk.leads (ends : Place → List LinkEnd) (w : Walk α) : Nat :=
  (w.places.map fun p => (ends p).length).sum

/-- The question about the far end of a link at a place is open. -/
def Walk.Asks (w : Walk α) (uri : Uri) (offset : Nat) : Prop :=
  ∃ k ∈ w.open_, k.uri = uri ∧ k.offset = offset

/-- From `w` to `w'` the places of `added` were taken in. -/
structure Walk.Grows (ends : Place → List LinkEnd) (added : List Place) (w w' : Walk α) : Prop where
  mem_seen : ∀ p, p ∈ w'.seen ↔ p ∈ w.seen ∨ p ∈ added
  /-- What is new is seen and found alike. -/
  trace : ∃ new, w'.seen = new.reverse ++ w.seen ∧ w'.places = w.places ++ new
  nodup : w.seen.Nodup → w'.seen.Nodup
  kept : w.open_ ⊆ w'.open_
  /-- Every far end of a new place is seen or asked about. -/
  hop : ∀ p ∈ w'.seen, p ∉ w.seen → ∀ e ∈ ends p,
    ⟨p.uri, e.range⟩ ∈ w'.seen ∨ w'.Asks p.uri e.range.start
  /-- No other question is added. -/
  asked : ∀ k ∈ w'.open_, k ∈ w.open_ ∨
    ∃ p ∈ w'.seen, ∃ e ∈ ends p, k.uri = p.uri ∧ k.offset = e.range.start
  count : w'.open_.length + w.leads ends ≤ w.open_.length + w'.leads ends

namespace Walk.Grows

variable {w w' w'' : Walk α} {added more : List Place}

theorem refl (ends : Place → List LinkEnd) (w : Walk α) : Walk.Grows ends [] w w where
  mem_seen := by simp
  trace := ⟨[], by simp, by simp⟩
  nodup h := h
  kept := List.Subset.refl _
  hop p hp hnew := absurd hp hnew
  asked k hk := .inl hk
  count := Nat.le_refl _

theorem trans (h : Walk.Grows ends added w w') (h' : Walk.Grows ends more w' w'') :
    Walk.Grows ends (added ++ more) w w'' where
  mem_seen p := by rw [h'.mem_seen, h.mem_seen, List.mem_append, or_assoc]
  trace := by
    obtain ⟨new, hseen, hplaces⟩ := h.trace
    obtain ⟨new', hseen', hplaces'⟩ := h'.trace
    exact ⟨new ++ new', by rw [hseen', hseen]; simp, by rw [hplaces', hplaces]; simp⟩
  nodup hnodup := h'.nodup (h.nodup hnodup)
  kept := List.Subset.trans h.kept h'.kept
  hop p hp hnew e he := by
    by_cases hp' : p ∈ w'.seen
    · rcases h.hop p hp' hnew e he with hseen | ⟨k, hk, heq⟩
      · exact .inl ((h'.mem_seen _).2 (.inl hseen))
      · exact .inr ⟨k, h'.kept hk, heq⟩
    · exact h'.hop p hp hp' e he
  asked k hk := by
    rcases h'.asked k hk with hk | hnew
    · rcases h.asked k hk with hk | ⟨p, hp, hlead⟩
      · exact .inl hk
      · exact .inr ⟨p, (h'.mem_seen p).2 (.inl hp), hlead⟩
    · exact .inr hnew
  count := by
    have h1 := h.count
    have h2 := h'.count
    omega

end Walk.Grows

/-- **One place.**  Taking it in is a step of the kind above. -/
theorem Walk.take_grows (ends : Place → List LinkEnd) (k : Question) (w : Walk α) (answer : Place × α) :
    Walk.Grows ends [answer.1] w (w.take ends k answer) := by
  unfold Walk.take
  dsimp only
  split
  next hseen =>
    have hseen : answer.1 ∈ w.seen := by simpa using hseen
    refine { Walk.Grows.refl ends w with mem_seen := fun p => ?_ }
    simp only [List.mem_singleton]
    exact ⟨.inl, fun h => h.elim id fun heq => heq ▸ hseen⟩
  next hnew =>
    have hnew : answer.1 ∉ w.seen := by simpa using hnew
    constructor
    · intro p
      simp [or_comm]
    · exact ⟨[answer.1], by simp, by simp [Walk.places]⟩
    · exact fun hnodup => List.nodup_cons.2 ⟨hnew, hnodup⟩
    · exact List.subset_append_left _ _
    · intro p hp hp' e he
      obtain rfl : p = answer.1 := (List.mem_cons.1 hp).resolve_right hp'
      by_cases htarget : (⟨answer.1.uri, e.range⟩ : Place) ∈ answer.1 :: w.seen
      · exact .inl htarget
      · refine .inr ⟨k.follow answer.1.uri e, List.mem_append_right _ (List.mem_map_of_mem ?_), rfl, rfl⟩
        exact List.mem_filter.2 ⟨he, by simpa using htarget⟩
    · intro k' hk'
      rcases List.mem_append.1 hk' with hk' | hk'
      · exact .inl hk'
      · obtain ⟨e, he, rfl⟩ := List.mem_map.1 hk'
        exact .inr ⟨answer.1, List.mem_cons_self, e, (List.mem_filter.1 he).1, rfl, rfl⟩
    · have hfurther := List.length_filter_le
        (fun e => !(answer.1 :: w.seen).contains ⟨answer.1.uri, e.range⟩) (ends answer.1)
      simp only [Walk.leads, Walk.places, List.length_append, List.length_map, List.map_append,
        List.map_cons, List.map_nil, List.sum_append, List.sum_cons, List.sum_nil]
      omega

/-- All places of an answer. -/
theorem Walk.foldl_take_grows (ends : Place → List LinkEnd) (k : Question) (answers : List (Place × α))
    (w : Walk α) :
    Walk.Grows ends (answers.map (·.1)) w (answers.foldl (Walk.take ends k) w) := by
  induction answers generalizing w with
  | nil => exact .refl ends w
  | cons answer answers ih => exact (Walk.take_grows ends k w answer).trans (ih _)

/-! ## 4. Between questions -/

/-- What a question about the offset is answered with has been seen, or the question is open. -/
def Walk.Settles (q : Answers) (w : Walk α) (uri : Uri) (offset : Nat) : Prop :=
  (∀ p ∈ q uri offset, p ∈ w.seen) ∨ w.Asks uri offset

/-- **What holds between questions**, when `asked` are the starts so far and `old` are the places that the
walk began with. -/
structure Walk.Inv (q : Answers) (ends : Place → List LinkEnd) (asked : List Question) (old : List Place)
    (w : Walk α) : Prop where
  /-- With a place its whole class has been seen. -/
  class_ : ∀ p ∈ w.seen, ∀ x ∈ q p.uri p.span.start, x ∈ w.seen
  hop : ∀ p ∈ w.seen, ∀ e ∈ ends p, w.Settles q p.uri e.range.start
  start : ∀ k ∈ asked, w.Settles q k.uri k.offset
  /-- Nothing has been seen, and nothing will be, but what every closed set holds. -/
  sound : ∀ S, Closed q ends asked S → (∀ p ∈ w.seen, p ∈ S) ∧ ∀ k ∈ w.open_, q k.uri k.offset ⊆ S
  seen : w.seen = w.places.reverse ++ old
  nodup : w.seen.Nodup
  small : ∀ p ∈ w.seen, p.IsSmall

variable {q : Answers} {asked : List Question} {old : List Place}

/-- **One question.**  Its answer is the class that the backend knows, in any order. -/
theorem Walk.Inv.answer {w : Walk α} {rest : List Question} {answers : List (Place × α)}
    (hq : q.Consistent) (hsmall : q.Small) (h : w.Inv q ends asked old) (hopen : w.open_ = k :: rest)
    (hanswers : ∀ p, p ∈ answers.map (·.1) ↔ p ∈ q k.uri k.offset) :
    (answers.foldl (Walk.take ends k) { w with open_ := rest }).Inv q ends asked old := by
  have hgrows := Walk.foldl_take_grows ends k answers { w with open_ := rest }
  generalize answers.foldl (Walk.take ends k) { w with open_ := rest } = w' at hgrows
  have hseen : ∀ p, p ∈ w'.seen ↔ p ∈ w.seen ∨ p ∈ q k.uri k.offset := by
    intro p
    rw [hgrows.mem_seen, hanswers]
  have hclass : ∀ p ∈ w'.seen, ∀ x ∈ q p.uri p.span.start, x ∈ w'.seen := by
    intro p hp x hx
    rcases (hseen p).1 hp with hp | hp
    · exact (hseen x).2 (.inl (h.class_ p hp x hx))
    · exact (hseen x).2 (.inr (hq k.uri k.offset p hp ▸ hx))
  -- what was settled stays so: the question answered is settled by its answer
  have hsettles : ∀ uri offset, w.Settles q uri offset → w'.Settles q uri offset := by
    rintro uri offset (hall | ⟨k', hk', huri, hoffset⟩)
    · exact .inl fun p hp => (hseen p).2 (.inl (hall p hp))
    · rw [hopen] at hk'
      rcases List.mem_cons.1 hk' with rfl | hk'
      · refine .inl fun p hp => (hseen p).2 (.inr ?_)
        rwa [huri, hoffset]
      · exact .inr ⟨k', hgrows.kept hk', huri, hoffset⟩
  constructor
  · exact hclass
  · intro p hp e he
    by_cases hold : p ∈ w.seen
    · exact hsettles _ _ (h.hop p hold e he)
    · rcases hgrows.hop p hp hold e he with htarget | hasks
      · exact .inl (hclass _ htarget)
      · exact .inr hasks
  · exact fun k' hk' => hsettles _ _ (h.start k' hk')
  · intro S hS
    obtain ⟨hin, hopenIn⟩ := h.sound S hS
    have hin' : ∀ p ∈ w'.seen, p ∈ S := by
      intro p hp
      rcases (hseen p).1 hp with hp | hp
      · exact hin p hp
      · exact hopenIn k (hopen ▸ List.mem_cons_self) hp
    refine ⟨hin', fun k' hk' => ?_⟩
    rcases hgrows.asked k' hk' with hk' | ⟨p, hp, e, he, huri, hoffset⟩
    · exact hopenIn k' (hopen ▸ List.mem_cons_of_mem _ hk')
    · rw [huri, hoffset]
      exact hS.hop p (hin' p hp) e he
  · obtain ⟨new, hnew, hplaces⟩ := hgrows.trace
    have hplaces : w'.places = w.places ++ new := hplaces
    have hnew : w'.seen = new.reverse ++ w.seen := hnew
    rw [hnew, hplaces, List.reverse_append, List.append_assoc, h.seen]
  · exact hgrows.nodup h.nodup
  · intro p hp
    rcases (hseen p).1 hp with hp | hp
    · exact h.small p hp
    · exact hsmall _ _ p hp

/-! ## 5. A whole walk -/

/-- The one who is asked knows `q`: each answer is the class known, an answer that fails stands for none, and
nothing is cancelled. -/
structure Knows (isCancelled : StateM σ Bool) (ask : Question → StateM σ (Reply (List (Place × α))))
    (q : Answers) : Prop where
  goes_on : ∀ s, (isCancelled s).1 = false
  answer : ∀ k s answers, (ask k s).1 = .ok answers →
    ∀ p, p ∈ answers.map (·.1) ↔ p ∈ q k.uri k.offset
  failure : ∀ k s e, (ask k s).1 = .error e → e ≠ .cancelled ∧ q k.uri k.offset = ∅

variable {isCancelled : StateM σ Bool} {ask : Question → StateM σ (Reply (List (Place × α)))}

/-- A walk without an open question ends where it is. -/
theorem Walk.run_nil {w : Walk α} (fuel : Nat) (s : σ) (hopen : w.open_ = []) :
    Walk.run isCancelled ask ends fuel w s = (some w, s) := by
  cases fuel with
  | zero =>
    unfold Walk.run
    rw [hopen]
    rfl
  | succ fuel =>
    unfold Walk.run
    rw [hopen]
    rfl

/-- What one question of a walk does. -/
theorem Walk.run_cons {w : Walk α} {rest : List Question} (fuel : Nat) (s : σ)
    (hopen : w.open_ = k :: rest) (hgoes : (isCancelled s).1 = false) :
    Walk.run isCancelled ask ends (fuel + 1) w s =
      match ask k (isCancelled s).2 with
      | (.ok answers, s') => Walk.run isCancelled ask ends fuel
          (answers.foldl (Walk.take ends k) { w with open_ := rest }) s'
      | (.error .cancelled, s') => (none, s')
      | (.error _, s') => Walk.run isCancelled ask ends fuel { w with open_ := rest } s' := by
  obtain ⟨open_, seen, found⟩ := w
  subst hopen
  conv => lhs; unfold Walk.run
  obtain ⟨goes, s1, hcancel⟩ : ∃ goes s1, isCancelled s = (goes, s1) := ⟨_, _, rfl⟩
  obtain ⟨reply, s2, hask⟩ : ∃ reply s2, ask k s1 = (reply, s2) := ⟨_, _, rfl⟩
  obtain rfl : goes = false := by rw [hcancel] at hgoes; exact hgoes
  simp only [bind, StateT.bind, hcancel, hask, Bool.false_eq_true, if_false, pure]
  cases reply with
  | ok answers => rfl
  | error e => cases e <;> rfl

/-- The places found are distinct. -/
theorem Walk.Inv.nodup_places {w : Walk α} (h : w.Inv q ends asked old) : w.places.Nodup := by
  have hnodup := h.nodup
  rw [h.seen] at hnodup
  exact List.nodup_reverse.1 (List.nodup_append.1 hnodup).1

theorem Walk.Inv.small_places {w : Walk α} (h : w.Inv q ends asked old) : ∀ p ∈ w.places, p.IsSmall := by
  intro p hp
  refine h.small p ?_
  rw [h.seen]
  exact List.mem_append_left _ (List.mem_reverse.2 hp)

/-- **A walk ends, with no question open.**  The bound is one that no set of distinct places leads on so
often to reach; what is left of it pays for the open questions. -/
theorem Walk.run_spec (hknows : Knows isCancelled ask q) (hq : q.Consistent) (hsmall : q.Small)
    {bound : Nat} (hbound : ∀ ps : List Place, ps.Nodup → (∀ p ∈ ps, p.IsSmall) →
      (ps.map fun p => (ends p).length).sum < bound)
    (fuel : Nat) (w : Walk α) (s : σ) (h : w.Inv q ends asked old)
    (hfuel : w.open_.length + bound ≤ fuel + w.leads ends + 1) :
    ∃ w' s', Walk.run isCancelled ask ends fuel w s = (some w', s') ∧ w'.Inv q ends asked old ∧
      w'.open_ = [] := by
  induction fuel generalizing w s with
  | zero =>
    cases hopen : w.open_ with
    | nil => exact ⟨w, s, Walk.run_nil 0 s hopen, h, hopen⟩
    | cons k rest =>
      have hlt := hbound w.places h.nodup_places h.small_places
      rw [hopen, List.length_cons] at hfuel
      simp only [Walk.leads] at hfuel
      omega
  | succ fuel ih =>
    cases hopen : w.open_ with
    | nil => exact ⟨w, s, Walk.run_nil (fuel + 1) s hopen, h, hopen⟩
    | cons k rest =>
      rw [hopen, List.length_cons] at hfuel
      have hstep : ∀ answers : List (Place × α),
          (∀ p, p ∈ answers.map (·.1) ↔ p ∈ q k.uri k.offset) → ∀ s',
          ∃ w' s'', Walk.run isCancelled ask ends fuel
            (answers.foldl (Walk.take ends k) { w with open_ := rest }) s' = (some w', s'') ∧
            w'.Inv q ends asked old ∧ w'.open_ = [] := by
        intro answers hanswers s'
        refine ih _ s' (h.answer hq hsmall hopen hanswers) ?_
        have hcount := (Walk.foldl_take_grows ends k answers { w with open_ := rest }).count
        have hleads : ({ w with open_ := rest } : Walk α).leads ends = w.leads ends := rfl
        rw [hleads] at hcount
        simp only at hcount
        omega
      rw [Walk.run_cons fuel s hopen (hknows.goes_on s)]
      obtain ⟨reply, s2, hask⟩ : ∃ reply s2, ask k (isCancelled s).2 = (reply, s2) := ⟨_, _, rfl⟩
      have hreply : (ask k (isCancelled s).2).1 = reply := by rw [hask]
      rw [hask]
      cases reply with
      | ok answers => exact hstep answers (hknows.answer k _ answers hreply) s2
      | error e =>
        obtain ⟨hgoes, hempty⟩ := hknows.failure k _ e hreply
        have hnone := hstep [] (by simp [hempty]) s2
        cases e with
        | cancelled => exact absurd rfl hgoes
        | unknownDocument uri => exact hnone
        | failed message => exact hnone

/-! ## 6. Several starts -/

/-- A walk from one more start begins where the invariant holds. -/
theorem Walk.Inv.begin {seen : List Place} (k : Question)
    (h : ({ open_ := [], seen } : Walk α).Inv q ends asked seen) :
    ({ open_ := [k], seen } : Walk α).Inv q ends (asked ++ [k]) seen where
  class_ := h.class_
  hop p hp e he := .inl ((h.hop p hp e he).resolve_right (by simp [Walk.Asks]))
  start k' hk' := by
    rcases List.mem_append.1 hk' with hk' | hk'
    · exact .inl ((h.start k' hk').resolve_right (by simp [Walk.Asks]))
    · obtain rfl := List.mem_singleton.1 hk'
      exact .inr ⟨k', by simp, rfl, rfl⟩
  sound S hS := by
    refine ⟨(h.sound S ⟨fun k' hk' => hS.start k' (by simp [hk']), hS.hop⟩).1, fun k' hk' => ?_⟩
    exact hS.start k' (List.mem_append_right _ hk')
  seen := h.seen
  nodup := h.nodup
  small := h.small

/-- What a walk without open questions has seen can be built on. -/
theorem Walk.Inv.finish {w : Walk α} (h : w.Inv q ends asked old) (hopen : w.open_ = []) :
    ({ open_ := [], seen := w.seen } : Walk α).Inv q ends asked w.seen where
  class_ := h.class_
  hop p hp e he := .inl ((h.hop p hp e he).resolve_right (by simp [Walk.Asks, hopen]))
  start k hk := .inl ((h.start k hk).resolve_right (by simp [Walk.Asks, hopen]))
  sound S hS := ⟨(h.sound S hS).1, by simp⟩
  seen := rfl
  nodup := h.nodup
  small := h.small

variable {builds : BuildCache} {wanted : LinkCapabilities} {origin : Region}

/-- **All starts.**  The walks share what has been seen, and each leaves it closed. -/
theorem follow_spec (hknows : Knows isCancelled ask q) (hq : q.Consistent) (hsmall : q.Small)
    (starts : List Start) (horigin : ∀ start ∈ starts, start.origin = origin) (seen : List Place)
    (asked : List Question) (s : σ)
    (h : ({ open_ := [], seen } : Walk α).Inv q (linkEnds builds wanted origin) asked seen) :
    ∃ found s', follow isCancelled ask builds wanted seen starts s = (some found, s') ∧
      ({ open_ := [], seen := (found.map (·.1)).reverse ++ seen } : Walk α).Inv q
        (linkEnds builds wanted origin) (asked ++ starts.map (·.question))
        ((found.map (·.1)).reverse ++ seen) := by
  induction starts generalizing seen asked s with
  | nil => exact ⟨[], s, rfl, by simpa using h⟩
  | cons start starts ih =>
    obtain ⟨w, s1, hrun, hw, hopen⟩ := Walk.run_spec hknows hq hsmall
      (fun ps hnodup hps => sum_linkEnds_le builds wanted origin hnodup hps) (maxQuestions builds)
      { open_ := [start.question], seen } s (h.begin start.question) (by simp [Walk.leads, Walk.places]; omega)
    obtain ⟨later, s2, hlater, hfinal⟩ := ih (fun st hst => horigin st (by simp [hst])) w.seen _ s1
      (hw.finish hopen)
    have hseen : (later.map (·.1)).reverse ++ w.seen =
        ((w.found ++ later).map (·.1)).reverse ++ seen := by
      rw [hw.seen]
      simp [Walk.places]
    refine ⟨w.found ++ later, s2, ?_, ?_⟩
    · unfold follow
      rw [horigin start (by simp)]
      simp only [bind, StateT.bind, hrun, hlater]
      rfl
    · rw [hseen, List.append_assoc] at hfinal
      simpa using hfinal

/-- The least set that the starts lead to, as a list without repetition. -/
theorem follow_closure (hknows : Knows isCancelled ask q) (hq : q.Consistent) (hsmall : q.Small)
    (starts : List Start) (horigin : ∀ start ∈ starts, start.origin = origin) (s : σ) :
    ∃ found s', follow isCancelled ask builds wanted [] starts s = (some found, s') ∧
      (found.map (·.1)).Nodup ∧
      IsLeast {S | Closed q (linkEnds builds wanted origin) (starts.map (·.question)) S}
        {p | p ∈ found.map (·.1)} := by
  have hnothing : ({ open_ := [], seen := [] } : Walk α).Inv q (linkEnds builds wanted origin) [] [] :=
    ⟨by simp, by simp, by simp, by simp, rfl, by simp, by simp⟩
  obtain ⟨found, s', hfollow, h⟩ := follow_spec hknows hq hsmall starts horigin [] [] s hnothing
  rw [List.append_nil, List.nil_append] at h
  have hnodup : (found.map (·.1)).Nodup := List.nodup_reverse.1 h.nodup
  refine ⟨found, s', hfollow, hnodup, ⟨?_, ?_⟩, ?_⟩
  · intro k hk p hp
    have hsettled := (h.start k hk).resolve_right (by simp [Walk.Asks])
    simpa using hsettled p hp
  · intro p hp e he x hx
    have hp : p ∈ (found.map (·.1)).reverse := List.mem_reverse.2 hp
    have hsettled := (h.hop p hp e he).resolve_right (by simp [Walk.Asks])
    simpa using hsettled x hx
  · intro S hS p hp
    exact (h.sound S hS).1 p (List.mem_reverse.2 hp)

/-- The order of the starts and of the answers does not matter: two runs find the same places. -/
theorem follow_perm {ask' : Question → StateM σ (Reply (List (Place × α)))}
    (hknows : Knows isCancelled ask q) (hknows' : Knows isCancelled ask' q) (hq : q.Consistent)
    (hsmall : q.Small) {starts starts' : List Start} (hperm : starts.Perm starts')
    (horigin : ∀ start ∈ starts, start.origin = origin) (s s' : σ) :
    ∃ found found' t t', follow isCancelled ask builds wanted [] starts s = (some found, t) ∧
      follow isCancelled ask' builds wanted [] starts' s' = (some found', t') ∧
      (found.map (·.1)).Perm (found'.map (·.1)) := by
  have horigin' : ∀ start ∈ starts', start.origin = origin :=
    fun start hstart => horigin start (hperm.mem_iff.2 hstart)
  obtain ⟨found, t, hrun, hnodup, hleast⟩ : ∃ found t,
      follow isCancelled ask builds wanted [] starts s = (some found, t) ∧ _ :=
    follow_closure hknows hq hsmall starts horigin s
  obtain ⟨found', t', hrun', hnodup', hleast'⟩ : ∃ found t,
      follow isCancelled ask' builds wanted [] starts' s' = (some found, t) ∧ _ :=
    follow_closure hknows' hq hsmall starts' horigin' s'
  refine ⟨found, found', t, t', hrun, hrun', (List.perm_ext_iff_of_nodup hnodup hnodup').2 fun p => ?_⟩
  have hclosed : ∀ S, Closed q (linkEnds builds wanted origin) (starts.map (·.question)) S ↔
      Closed q (linkEnds builds wanted origin) (starts'.map (·.question)) S := fun S =>
    ⟨fun h => ⟨fun k hk => h.start k ((hperm.map _).mem_iff.2 hk), h.hop⟩,
      fun h => ⟨fun k hk => h.start k ((hperm.map _).mem_iff.1 hk), h.hop⟩⟩
  exact ⟨fun hp => hleast.2 ((hclosed _).2 hleast'.1) hp, fun hp => hleast'.2 ((hclosed _).1 hleast.1) hp⟩

/-! ## 7. Looking up places -/

/-- The backend knows `q` for a look-up, and is not cancelled.  A failure for any other reason stands for no
places. -/
structure Backend.Knows (backend : Backend σ) (lookup : Lookup) (q : Answers) : Prop where
  goes_on : ∀ s, (backend.isCancelled s).1 = false
  answer : ∀ uri offset s places, (backend.find lookup uri offset s).1 = .ok places →
    ∀ p, p ∈ places ↔ p ∈ q uri offset
  failure : ∀ uri offset s e, (backend.find lookup uri offset s).1 = .error e →
    e ≠ .cancelled ∧ q uri offset = ∅

/-- Whoever asks the backend is answered by what the backend knows. -/
theorem Backend.Knows.knows {backend : Backend σ} {lookup : Lookup} (h : backend.Knows lookup q) :
    ComponentLens.Service.Knows backend.isCancelled (askPlaces backend lookup) q where
  goes_on := h.goes_on
  answer k s answers hanswers := by
    have hmap : ((backend.find lookup k.uri k.offset s).1.map fun places => places.map (·, ())) =
        .ok answers := hanswers
    cases hfind : (backend.find lookup k.uri k.offset s).1 with
    | error e => simp [hfind, Except.map] at hmap
    | ok places =>
      rw [hfind] at hmap
      cases hmap
      simpa using h.answer k.uri k.offset s places hfind
  failure k s e he := by
    have hmap : ((backend.find lookup k.uri k.offset s).1.map fun places => places.map (·, ())) =
        .error e := he
    cases hfind : (backend.find lookup k.uri k.offset s).1 with
    | error e' =>
      rw [hfind] at hmap
      cases hmap
      exact h.failure k.uri k.offset s e hfind
    | ok places => simp [hfind, Except.map] at hmap

/-- **Following links is complete and depends on no order.**  Let the backend know `q`, and let it answer in
classes.  Then from any starts of one origin, over any held builds and for any look-up, the places found are
the least set that holds the answers to the starts and, with every place, the answers at the far ends of the
links that the look-up may follow from it; and each place is found once. -/
theorem follow_isLeast (backend : Backend σ) (builds : BuildCache) (lookup : Lookup) (origin : Region)
    (starts : List Start) (s : σ) (q : Answers) (hq : q.Consistent) (hsmall : q.Small)
    (hknows : backend.Knows lookup q) (horigin : ∀ start ∈ starts, start.origin = origin) :
    ∃ found s', follow backend.isCancelled (askPlaces backend lookup) builds lookup.linkCapability []
        starts s = (some found, s') ∧
      (found.map (·.1)).Nodup ∧
      IsLeast {S | Closed q (linkEnds builds lookup.linkCapability origin) (starts.map (·.question)) S}
        {p | p ∈ found.map (·.1)} :=
  follow_closure hknows.knows hq hsmall starts horigin s

/-- The address of a document of the text `a b`. -/
def twoSymbolsUri : Uri := ⟨"file:///A.vue.__VLS_script.ts"⟩

/-- The two symbols of the document, each by itself. -/
def twoSymbols : Answers := fun uri offset =>
  {p | (uri = twoSymbolsUri ∧ (offset = 0 ∨ offset = 2)) ∧ p = ⟨twoSymbolsUri, ⟨offset, offset + 1⟩⟩}

/-- A backend that knows the two symbols. -/
def twoSymbolsBackend : Backend Unit where
  isCancelled := pure false
  find _ uri offset := pure <|
    if uri = twoSymbolsUri ∧ (offset = 0 ∨ offset = 2) then
      .ok [⟨twoSymbolsUri, ⟨offset, offset + 1⟩⟩]
    else .error (.unknownDocument uri)
  rename _ _ _ := pure (.ok ∅)
  diagnostics _ _ := pure (.ok [])
  completionDetails _ _ _ := pure (.ok none)
  text? _ := pure none

/-- A held build whose document links the two symbols. -/
def twoSymbolsBuilds : BuildCache :=
  let link : Mapping LinkData :=
    ⟨{ direction := .sibling, capabilities := .all }, .offset, ⟨0, 1⟩, ⟨2, 3⟩, []⟩
  let document : Virtual.CodeDocument := ⟨⟨twoSymbolsUri, "typescript", "a b"⟩, {}, ⟨⟨[link]⟩⟩⟩
  let build : Virtual.Build :=
    ⟨⟨"file:///A.vue"⟩, "", {}, some document, none, none, none, [], [], {}, []⟩
  { held := (∅ : Table Uri HeldBuild).insert build.uri ⟨0, 0, build, 0⟩
    owners := (∅ : Table Uri Uri).insert twoSymbolsUri build.uri
    made := 1 }

theorem twoSymbolsBackend_knows : twoSymbolsBackend.Knows .references twoSymbols where
  goes_on _ := rfl
  answer uri offset s places hfind p := by
    have hfind : (if uri = twoSymbolsUri ∧ (offset = 0 ∨ offset = 2) then
        (.ok [⟨twoSymbolsUri, ⟨offset, offset + 1⟩⟩] : Reply (List Place))
      else .error (.unknownDocument uri)) = .ok places := hfind
    split at hfind
    next h =>
      cases hfind
      simp [twoSymbols, h]
    · cases hfind
  failure uri offset s e hfind := by
    have hfind : (if uri = twoSymbolsUri ∧ (offset = 0 ∨ offset = 2) then
        (.ok [⟨twoSymbolsUri, ⟨offset, offset + 1⟩⟩] : Reply (List Place))
      else .error (.unknownDocument uri)) = .error e := hfind
    split at hfind
    · cases hfind
    next h =>
      cases hfind
      exact ⟨by simp, Set.eq_empty_of_forall_notMem fun p hp => h hp.1⟩

/-- The premises can be met where a link leads from the one symbol to the other. -/
theorem follow_isLeast_twoSymbols :
    ∃ found s', follow twoSymbolsBackend.isCancelled (askPlaces twoSymbolsBackend .references)
        twoSymbolsBuilds Lookup.references.linkCapability [] [⟨⟨twoSymbolsUri, 0, ""⟩, .template⟩] () =
        (some found, s') ∧
      (found.map (·.1)).Nodup ∧
      IsLeast {S | Closed twoSymbols
        (linkEnds twoSymbolsBuilds Lookup.references.linkCapability .template)
        [⟨twoSymbolsUri, 0, ""⟩] S} {p | p ∈ found.map (·.1)} := by
  refine follow_isLeast twoSymbolsBackend twoSymbolsBuilds .references .template
    [⟨⟨twoSymbolsUri, 0, ""⟩, .template⟩] () twoSymbols ?_ ?_ twoSymbolsBackend_knows (by simp)
  · rintro uri offset p ⟨⟨rfl, -⟩, rfl⟩
    rfl
  · rintro uri offset p ⟨⟨rfl, rfl | rfl⟩, rfl⟩
    · exact ⟨by decide, by decide⟩
    · exact ⟨by decide, by decide⟩

end ComponentLens.Service
