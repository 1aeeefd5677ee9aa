/-
# Renaming a variable and renaming its handle

A variable of a labelled statement has two declarations in the script document: under its own name, and as a
handle with a dollar sign in front.  A rename may start at the one or at the other.  `follow_symmetric` says that
this makes no difference: both find the same places, with the same new text at each.

The backend is taken to answer in classes, as in `follow_isLeast`, and the classes are taken to go with the links
(`Answers.Respects`).  Two runs ask in different orders, and the text of a place is that of the question which
comes to it first.  What decides is the class of the place alone: `$name` where it holds the declaration of a
handle, and `name` everywhere else (`Spells`).  Every question of a run has the name that its class asks for, since
a link that leads into the class of a handle, or out of it, respells the name on the way (`Spells.hop`).

Links are looked up by address, so it is not enough that the build is held: its script has to be found at its
address.  That fails where another component has given up a document of the same address.  There the two renames
have no place in common (`follow_asymmetric_givenUp`).
-/
import ComponentLens.Proofs.Service.Closure
import ComponentLens.Proofs.Virtual.LabelDeclarations
import ComponentLens.Proofs.Virtual.LinksBothWays
import ComponentLens.Proofs.Workspace.Owners
import ComponentLens.Service.Rename

namespace ComponentLens.Service

open Virtual (Build CodeDocument)

variable {σ α : Type}

/-! ## 1. Names on a walk

What a walk finds satisfies whatever the answers to its questions satisfy. -/

section
variable {isCancelled : StateM σ Bool} {ask : Question → StateM σ (Reply (List (Place × α)))}
  {ends : Place → List LinkEnd} {K : Question → Prop} {F : Place × α → Prop}

/-- The open questions and the places found are as they should be. -/
structure Walk.Proper (K : Question → Prop) (F : Place × α → Prop) (w : Walk α) : Prop where
  open_ : ∀ k ∈ w.open_, K k
  found : ∀ a ∈ w.found, F a

/-- **One place.**  An answer adds itself and the questions about its links. -/
theorem Walk.Proper.take {k : Question} {w : Walk α} {a : Place × α} (h : w.Proper K F) (hfound : F a)
    (hhop : ∀ e ∈ ends a.1, K (k.follow a.1.uri e)) : (w.take ends k a).Proper K F := by
  unfold Walk.take
  dsimp only
  split
  · exact h
  · constructor
    · intro k' hk'
      rcases List.mem_append.1 hk' with hk' | hk'
      · exact h.open_ k' hk'
      · obtain ⟨e, he, rfl⟩ := List.mem_map.1 hk'
        exact hhop e (List.mem_filter.1 he).1
    · intro a' ha'
      rcases List.mem_append.1 ha' with ha' | ha'
      · exact h.found a' ha'
      · rw [List.mem_singleton.1 ha']
        exact hfound

/-- **One question.** -/
theorem Walk.Proper.foldl_take {k : Question} {answers : List (Place × α)} {w : Walk α} (h : w.Proper K F)
    (hanswers : ∀ a ∈ answers, F a ∧ ∀ e ∈ ends a.1, K (k.follow a.1.uri e)) :
    (answers.foldl (Walk.take ends k) w).Proper K F := by
  induction answers generalizing w with
  | nil => exact h
  | cons a answers ih =>
    obtain ⟨hfound, hhop⟩ := hanswers a List.mem_cons_self
    exact ih (h.take hfound hhop) fun a' ha' => hanswers a' (List.mem_cons_of_mem _ ha')

/-- **A whole walk**, if every answer to a proper question is proper and leads to proper questions. -/
theorem Walk.Proper.run (hgoes : ∀ s, (isCancelled s).1 = false)
    (hask : ∀ k s answers, K k → (ask k s).1 = .ok answers →
      ∀ a ∈ answers, F a ∧ ∀ e ∈ ends a.1, K (k.follow a.1.uri e))
    {fuel : Nat} {w w' : Walk α} {s s' : σ} (h : w.Proper K F)
    (hrun : Walk.run isCancelled ask ends fuel w s = (some w', s')) : w'.Proper K F := by
  induction fuel generalizing w s with
  | zero =>
    cases hopen : w.open_ with
    | nil =>
      rw [Walk.run_nil 0 s hopen] at hrun
      cases hrun
      exact h
    | cons k rest =>
      unfold Walk.run at hrun
      rw [hopen] at hrun
      cases hrun
  | succ fuel ih =>
    cases hopen : w.open_ with
    | nil =>
      rw [Walk.run_nil (fuel + 1) s hopen] at hrun
      cases hrun
      exact h
    | cons k rest =>
      have hrest : ({ w with open_ := rest } : Walk α).Proper K F :=
        ⟨fun k' hk' => h.open_ k' (hopen ▸ List.mem_cons_of_mem _ hk'), h.found⟩
      rw [Walk.run_cons fuel s hopen (hgoes s)] at hrun
      obtain ⟨reply, s2, hreply⟩ : ∃ reply s2, ask k (isCancelled s).2 = (reply, s2) := ⟨_, _, rfl⟩
      rw [hreply] at hrun
      cases reply with
      | ok answers =>
        have hk := h.open_ k (hopen ▸ List.mem_cons_self)
        exact ih (hrest.foldl_take (hask k _ answers hk (by rw [hreply]))) hrun
      | error e =>
        cases e with
        | cancelled => cases hrun
        | unknownDocument uri => exact ih hrest hrun
        | failed message => exact ih hrest hrun

/-- **All starts.** -/
theorem proper_follow {builds : BuildCache} {wanted : LinkCapabilities}
    (hgoes : ∀ s, (isCancelled s).1 = false)
    (hask : ∀ k s answers, K k → (ask k s).1 = .ok answers →
      ∀ a ∈ answers, F a ∧ ∀ origin, ∀ e ∈ linkEnds builds wanted origin a.1, K (k.follow a.1.uri e))
    {starts : List Start} (hstarts : ∀ start ∈ starts, K start.question) {seen : List Place} {s s' : σ}
    {found : List (Place × α)} (h : follow isCancelled ask builds wanted seen starts s = (some found, s')) :
    ∀ a ∈ found, F a := by
  induction starts generalizing seen s s' found with
  | nil =>
    cases h
    simp
  | cons start starts ih =>
    unfold follow at h
    simp only [bind, StateT.bind] at h
    obtain ⟨walk, s1, hrun⟩ : ∃ walk s1, Walk.run isCancelled ask (linkEnds builds wanted start.origin)
        (maxQuestions builds) { open_ := [start.question], seen } s = (walk, s1) := ⟨_, _, rfl⟩
    rw [hrun] at h
    cases walk with
    | none => cases h
    | some walk =>
      have hfound : (follow isCancelled ask builds wanted walk.seen starts s1).1.map (walk.found ++ ·) =
          some found := congrArg Prod.fst h
      obtain ⟨later, hlater, rfl⟩ := Option.map_eq_some_iff.1 hfound
      have hbegin : ({ open_ := [start.question], seen } : Walk α).Proper K F :=
        ⟨fun k hk => by rw [List.mem_singleton.1 hk]; exact hstarts start List.mem_cons_self, by simp⟩
      have hwalk := hbegin.run hgoes (fun k s answers hk hanswers a ha =>
        ⟨(hask k s answers hk hanswers a ha).1, (hask k s answers hk hanswers a ha).2 start.origin⟩) hrun
      intro a ha
      rcases List.mem_append.1 ha with ha | ha
      · exact hwalk.found a ha
      · exact ih (fun st hst => hstarts st (List.mem_cons_of_mem _ hst)) (Prod.ext hlater rfl) a ha

end

/-! ## 2. Ends of links -/

/-- The links of every document that is found join what they say, and keep apart. -/
def Linked (builds : BuildCache) : Prop :=
  ∀ u b d, builds.codeDocument? u = some (b, d) →
    (∀ link ∈ d.links.map.mappings, Joins d.document.text.toList link) ∧ Separate d.links.map.mappings

theorem linked_after (actions : List BuildCache.Action) : Linked (BuildCache.after actions) := by
  intro u b d h
  obtain ⟨held, hgenerator, hdocument⟩ := Option.bind_eq_some_iff.1 h
  obtain ⟨d', hfind, heq⟩ := Option.map_eq_some_iff.1 hdocument
  cases heq
  obtain ⟨owner, -, hget, -⟩ := BuildCache.generator?_eq_some_iff.1 hgenerator
  obtain ⟨text, options, hbuild⟩ :=
    BuildCache.build?_after (BuildCache.build?_eq_some_iff.2 ⟨held, hget, rfl⟩)
  have hmem := List.mem_of_find?_eq_some hfind
  rw [hbuild] at hmem
  exact Virtual.build_links_sound owner text options hmem

/-- The place is an end of a link of its document. -/
def IsLinkEnd (builds : BuildCache) (p : Place) : Prop :=
  ∃ b d, builds.codeDocument? p.uri = some (b, d) ∧
    ∃ link ∈ d.links.map.mappings, p.span = link.source ∨ p.span = link.target

/-- The place is the declaration of a handle. -/
def IsHandleDeclaration (builds : BuildCache) (p : Place) : Prop :=
  ∃ b d, builds.codeDocument? p.uri = some (b, d) ∧
    ∃ link ∈ d.links.map.mappings, link.data.nameToTarget = some .addDollar ∧ p.span = link.target

theorem IsHandleDeclaration.isLinkEnd {builds : BuildCache} {p : Place} (h : IsHandleDeclaration builds p) :
    IsLinkEnd builds p := by
  obtain ⟨b, d, hdocument, link, hlink, -, hspan⟩ := h
  exact ⟨b, d, hdocument, link, hlink, .inr hspan⟩

/-- What the backend knows goes with links that have the given ends, some of which declare handles. -/
structure Answers.GoesWith (q : Answers) (isEnd isHandle : Place → Prop) : Prop where
  consistent : q.Consistent
  small : q.Small
  /-- The end of a link belongs to the class at its start. -/
  ends : ∀ p, isEnd p → p ∈ q p.uri p.span.start
  /-- No answer lies properly inside the end of a link. -/
  whole : ∀ u o, ∀ p ∈ q u o, ∀ e, isEnd e → e.uri = p.uri → e.span.contains p.span = true → p = e
  /-- The class of a handle holds no end of a link but its declaration. -/
  handles : ∀ h, isHandle h → ∀ e ∈ q h.uri h.span.start, isEnd e → e = h

/-- What the backend knows goes with the links of the documents that are found at their addresses. -/
abbrev Answers.Respects (q : Answers) (builds : BuildCache) : Prop :=
  q.GoesWith (IsLinkEnd builds) (IsHandleDeclaration builds)

/-- Of fewer links less is asked. -/
theorem Answers.GoesWith.mono {q : Answers} {isEnd isHandle isEnd' isHandle' : Place → Prop}
    (h : q.GoesWith isEnd isHandle) (hend : ∀ p, isEnd' p → isEnd p) (hhandle : ∀ p, isHandle' p → isHandle p) :
    q.GoesWith isEnd' isHandle' where
  consistent := h.consistent
  small := h.small
  ends p hp := h.ends p (hend p hp)
  whole u o p hp e he := h.whole u o p hp e (hend e he)
  handles p hp e he hend' := h.handles p (hhandle p hp) e he (hend e hend')

/-- From one end of a link to the other, and the other way around. -/
inductive Hop (builds : BuildCache) (p : Place) (e : LinkEnd) : Prop where
  | forward {b : Build} {d : CodeDocument} {link : Mapping LinkData}
      (hdocument : builds.codeDocument? p.uri = some (b, d)) (hlink : link ∈ d.links.map.mappings)
      (hplace : p = ⟨p.uri, link.source⟩) (hrange : e.range = link.target)
      (hname : e.nameTransform = link.data.nameToTarget)
  | backward {b : Build} {d : CodeDocument} {link : Mapping LinkData}
      (hdocument : builds.codeDocument? p.uri = some (b, d)) (hlink : link ∈ d.links.map.mappings)
      (hplace : p = ⟨p.uri, link.target⟩) (hrange : e.range = link.source)
      (hname : e.nameTransform = link.data.nameToSource)

variable {builds : BuildCache} {q : Answers} {name : String}

section
variable {uri : Uri} {b : Build} {d : CodeDocument} {link : Mapping LinkData}

theorem isLinkEnd_source (hdocument : builds.codeDocument? uri = some (b, d))
    (hlink : link ∈ d.links.map.mappings) : IsLinkEnd builds ⟨uri, link.source⟩ :=
  ⟨b, d, hdocument, link, hlink, .inl rfl⟩

theorem isLinkEnd_target (hdocument : builds.codeDocument? uri = some (b, d))
    (hlink : link ∈ d.links.map.mappings) : IsLinkEnd builds ⟨uri, link.target⟩ :=
  ⟨b, d, hdocument, link, hlink, .inr rfl⟩

/-- The near end of a link declares no handle. -/
theorem not_handle_source (hlinked : Linked builds) (hdocument : builds.codeDocument? uri = some (b, d))
    (hlink : link ∈ d.links.map.mappings) : ¬IsHandleDeclaration builds ⟨uri, link.source⟩ := by
  rintro ⟨b', d', hdocument', other, hother, hrespells, hspan⟩
  rw [hdocument] at hdocument'
  cases hdocument'
  obtain ⟨hjoins, hseparate⟩ := hlinked uri b d hdocument
  by_cases hsame : link = other
  · subst hsame
    obtain ⟨name, -, hsource, htarget⟩ := (hjoins link hlink).isHandle hrespells
    have hlength : byteLength ('$' :: name) = byteLength name := by
      rw [← htarget.length_eq, ← hsource.length_eq]
      exact congrArg Span.length hspan.symm
    have hdollar : '$'.utf8Size = 1 := rfl
    rw [byteLength_cons, hdollar] at hlength
    omega
  · exact (hseparate other hother hrespells link hlink hsame).1 hspan

/-- The far end of a plain link declares no handle. -/
theorem not_handle_target (hlinked : Linked builds) (hdocument : builds.codeDocument? uri = some (b, d))
    (hlink : link ∈ d.links.map.mappings) (hplain : link.data.nameToTarget = none) :
    ¬IsHandleDeclaration builds ⟨uri, link.target⟩ := by
  rintro ⟨b', d', hdocument', other, hother, hrespells, hspan⟩
  rw [hdocument] at hdocument'
  cases hdocument'
  have hne : link ≠ other := by
    rintro rfl
    rw [hplain] at hrespells
    cases hrespells
  exact ((hlinked uri b d hdocument).2 other hother hrespells link hlink hne).2 hspan

/-- The end of a link fits into an offset. -/
theorem Answers.GoesWith.stop_le (hq : q.Respects builds) {p : Place} (hp : IsLinkEnd builds p) :
    p.span.stop ≤ maxOffset := by
  have hsmall := (hq.small _ _ p (hq.ends p hp)).2
  have hmax : maxOffset = UInt32.size - 1 := rfl
  omega

/-- **An answer leads on only from the end of a link**, and to its other end. -/
theorem hop_of_mem_linkEnds (hq : q.Respects builds) (hlinked : Linked builds) {wanted : LinkCapabilities}
    {origin : Region} {u : Uri} {o : Nat} {p : Place} (hp : p ∈ q u o) {e : LinkEnd}
    (he : e ∈ linkEnds builds wanted origin p) : Hop builds p e := by
  unfold linkEnds at he
  split at he
  next b d hdocument =>
    obtain ⟨hjoins, -⟩ := hlinked p.uri b d hdocument
    rcases List.mem_append.1 (List.mem_filter.1 he).1 with he | he
    · obtain ⟨link, hlink, -, hcarry, -, hname⟩ := LinkMap.mem_forward.1 he
      have hsource := isLinkEnd_source hdocument hlink
      have hp := hq.whole u o p hp _ hsource rfl ((hjoins link hlink).source_contains hcarry)
      have hforth := (hjoins link hlink).carry_source (hq.stop_le (isLinkEnd_target hdocument hlink))
      rw [hp, hforth] at hcarry
      exact .forward hdocument hlink hp (Option.some.inj hcarry).symm hname
    · obtain ⟨link, hlink, -, hcarry, -, hname⟩ := LinkMap.mem_backward.1 he
      have htarget := isLinkEnd_target hdocument hlink
      have hp := hq.whole u o p hp _ htarget rfl ((hjoins link hlink).target_contains hcarry)
      have hback := (hjoins link hlink).carry_target (hq.stop_le (isLinkEnd_source hdocument hlink))
      rw [hp, hback] at hcarry
      exact .backward hdocument hlink hp (Option.some.inj hcarry).symm hname
  · cases he

end

/-! ## 3. The text of a place -/

/-- The new text of a place: the name, behind a dollar sign where the class of the place is that of a handle. -/
inductive Spells (builds : BuildCache) (q : Answers) (name : String) (p : Place) : String → Prop where
  | handle {h : Place} (hdeclares : IsHandleDeclaration builds h) (hclass : p ∈ q h.uri h.span.start) :
      Spells builds q name p ("$" ++ name)
  | plain (hnone : ∀ h, IsHandleDeclaration builds h → p ∉ q h.uri h.span.start) : Spells builds q name p name

/-- A place has one text. -/
theorem Spells.unique {p : Place} {s t : String} (hs : Spells builds q name p s) (ht : Spells builds q name p t) :
    s = t := by
  cases hs with
  | handle hdeclares hclass =>
    cases ht with
    | handle => rfl
    | plain hnone => exact absurd hclass (hnone _ hdeclares)
  | plain hnone =>
    cases ht with
    | handle hdeclares hclass => exact absurd hclass (hnone _ hdeclares)
    | plain => rfl

section
variable (hq : q.Respects builds)
include hq

/-- The class of an end that declares no handle is that of no handle. -/
theorem spells_of_end (name : String) {e : Place} (hend : IsLinkEnd builds e) (hnot : ¬IsHandleDeclaration builds e) :
    ∀ p ∈ q e.uri e.span.start, Spells builds q name p name := by
  intro p hp
  refine .plain fun h hdeclares hclass => hnot ?_
  have hsame : q h.uri h.span.start = q e.uri e.span.start := by
    rw [← hq.consistent _ _ p hp, ← hq.consistent _ _ p hclass]
  rw [← hq.handles h hdeclares e (hsame ▸ hq.ends e hend) hend] at hdeclares
  exact hdeclares

/-- **One hop.**  A name that is right for a place is respelled to one that is right for the class that a link
leads to. -/
theorem Spells.hop (hlinked : Linked builds) {wanted : LinkCapabilities} {origin : Region} {u : Uri} {o : Nat}
    {p : Place} (hp : p ∈ q u o) {text : String} (htext : Spells builds q name p text) {e : LinkEnd}
    (he : e ∈ linkEnds builds wanted origin p) :
    ∀ p' ∈ q p.uri e.range.start, Spells builds q name p' (respell e.nameTransform text) := by
  cases hop_of_mem_linkEnds hq hlinked hp he with
  | @forward b d link hdocument hlink hplace hrange hname =>
    -- the near end of a link declares no handle, so the name comes without a dollar sign
    have hsource := isLinkEnd_source hdocument hlink
    have hplain := spells_of_end hq name hsource (not_handle_source hlinked hdocument hlink) _
      (hq.ends _ hsource)
    rw [← hplace] at hplain
    rw [htext.unique hplain, hrange, hname]
    cases (hlinked p.uri b d hdocument).1 link hlink with
    | same _ kind _ _ =>
      rw [kind.toTarget]
      exact spells_of_end hq name (isLinkEnd_target hdocument hlink)
        (not_handle_target hlinked hdocument hlink kind.toTarget)
    | dollar _ kind _ _ =>
      rw [kind.toTarget]
      have hhandle : IsHandleDeclaration builds ⟨p.uri, link.target⟩ :=
        ⟨b, d, hdocument, link, hlink, kind.toTarget, rfl⟩
      exact fun p' hp' => .handle hhandle hp'
  | @backward b d link hdocument hlink hplace hrange hname =>
    have htarget := isLinkEnd_target hdocument hlink
    have hsource := spells_of_end hq name (isLinkEnd_source hdocument hlink)
      (not_handle_source hlinked hdocument hlink)
    rw [hrange, hname]
    cases (hlinked p.uri b d hdocument).1 link hlink with
    | same _ kind _ _ =>
      have hplain := spells_of_end hq name htarget
        (not_handle_target hlinked hdocument hlink kind.toTarget) _ (hq.ends _ htarget)
      rw [← hplace] at hplain
      rw [htext.unique hplain, kind.toSource]
      exact hsource
    | dollar _ kind _ _ =>
      have hdeclares : IsHandleDeclaration builds p :=
        ⟨b, d, hdocument, link, hlink, kind.toTarget, congrArg Place.span hplace⟩
      rw [htext.unique (.handle hdeclares (hq.ends p hdeclares.isLinkEnd)), kind.toSource]
      have hback : respell (some .stripDollar) ("$" ++ name) = name := by
        simp [respell, NameTransform.apply, Naming.dropDollar]
      rw [hback]
      exact hsource

end

/-! ## 4. A backend that renames -/

/-- The backend renames in the classes of `q`, and is not cancelled: it gives the new name to each place of the
class.  A failure stands for no places. -/
structure Backend.Renames (backend : Backend σ) (q : Answers) : Prop where
  goes_on : ∀ s, (backend.isCancelled s).1 = false
  answer : ∀ uri offset name s changes, (backend.rename uri offset name s).1 = .ok changes →
    (∀ p, p ∈ changes.placed.map (·.place) ↔ p ∈ q uri offset) ∧ ∀ e ∈ changes.placed, e.newText = name
  failure : ∀ uri offset name s e, (backend.rename uri offset name s).1 = .error e →
    e ≠ .cancelled ∧ q uri offset = ∅

theorem exists_of_map_eq_ok {β : Type} {f : α → β} {reply : Reply α} {b : β} (h : reply.map f = .ok b) :
    ∃ a, reply = .ok a ∧ b = f a := by
  cases reply with
  | ok a => exact ⟨a, rfl, (Except.ok.inj h).symm⟩
  | error e => cases h

theorem eq_error_of_map {β : Type} {f : α → β} {reply : Reply α} {e : BackendError}
    (h : reply.map f = .error e) : reply = .error e := by
  cases reply with
  | ok a => cases h
  | error e' =>
    cases h
    rfl

section
variable {backend : Backend σ} {k : Question} {s : σ}

theorem askEdits_ok {answers : List (Place × String)} (h : (askEdits backend k s).1 = .ok answers) :
    ∃ changes, (backend.rename k.uri k.offset k.name s).1 = .ok changes ∧
      answers = changes.placed.map fun e => (e.place, e.newText) := exists_of_map_eq_ok h

/-- Whoever asks the backend for edits is answered by what it knows. -/
theorem Backend.Renames.knows (h : backend.Renames q) :
    ComponentLens.Service.Knows backend.isCancelled (askEdits backend) q where
  goes_on := h.goes_on
  answer k s answers hanswers := by
    obtain ⟨changes, hrename, rfl⟩ := askEdits_ok hanswers
    intro p
    rw [← (h.answer _ _ _ _ _ hrename).1 p, List.map_map]
    rfl
  failure k s e he := h.failure _ _ _ _ e (eq_error_of_map he)

/-- The edits that a question leads to have the name of the question. -/
theorem Backend.Renames.text_eq (h : backend.Renames q) {answers : List (Place × String)}
    (hanswers : (askEdits backend k s).1 = .ok answers) : ∀ a ∈ answers, a.2 = k.name := by
  obtain ⟨changes, hrename, rfl⟩ := askEdits_ok hanswers
  intro a ha
  obtain ⟨e, he, rfl⟩ := List.mem_map.1 ha
  exact (h.answer _ _ _ _ _ hrename).2 e he

/-- **One rename.**  It finds the least closed set of places, and gives to each of them the text that its class
asks for, if it starts out with such a text. -/
theorem Backend.Renames.follow_spells (h : backend.Renames q) (hq : q.Respects builds) (hlinked : Linked builds)
    (start : Start)
    (hstart : ∀ p ∈ q start.question.uri start.question.offset, Spells builds q name p start.question.name)
    (s : σ) :
    ∃ found s', follow backend.isCancelled (askEdits backend) builds .rename [] [start] s = (some found, s') ∧
      (found.map (·.1)).Nodup ∧
      IsLeast {S | Closed q (linkEnds builds .rename start.origin) [start.question] S}
        {p | p ∈ found.map (·.1)} ∧
      ∀ edit ∈ found, Spells builds q name edit.1 edit.2 := by
  obtain ⟨found, s', hfollow, hnodup, hleast⟩ : ∃ found s',
      follow backend.isCancelled (askEdits backend) builds .rename [] [start] s = (some found, s') ∧
        (found.map (·.1)).Nodup ∧
        IsLeast {S | Closed q (linkEnds builds .rename start.origin) [start.question] S} _ :=
    follow_closure h.knows hq.consistent hq.small [start] (by simp) s
  refine ⟨found, s', hfollow, hnodup, hleast, ?_⟩
  refine proper_follow (K := fun k => ∀ p ∈ q k.uri k.offset, Spells builds q name p k.name)
    (F := fun a => Spells builds q name a.1 a.2) h.goes_on ?_ (by simpa using hstart) hfollow
  intro k s answers hk hanswers a ha
  have hclass : a.1 ∈ q k.uri k.offset :=
    (h.knows.answer k s answers hanswers a.1).1 (List.mem_map_of_mem ha)
  have htext := hk a.1 hclass
  refine ⟨?_, fun origin e he => ?_⟩
  · rw [h.text_eq hanswers a ha]
    exact htext
  · exact htext.hop hq hlinked hclass he

end

/-! ## 5. Both ends of a handle -/

/-- A link that every request for a rename may follow in both directions makes the same sets closed for a start at
the one end as for a start at the other. -/
theorem closed_iff_of_handleLink (hq : q.Respects builds) (hlinked : Linked builds) {uri : Uri} {b : Build}
    {d : CodeDocument} (hdocument : builds.codeDocument? uri = some (b, d)) {variable_ handle : Span}
    (hlink : handleLink variable_ handle ∈ d.links.map.mappings) (origin : Region) (n n' : String)
    (S : Set Place) :
    Closed q (linkEnds builds .rename origin) [⟨uri, variable_.start, n⟩] S ↔
      Closed q (linkEnds builds .rename origin) [⟨uri, handle.start, n'⟩] S := by
  have hjoins := (hlinked uri b d hdocument).1 _ hlink
  have hvariable := isLinkEnd_source hdocument hlink
  have hhandle := isLinkEnd_target hdocument hlink
  have hrename : (LinkCapabilities.references ||| .rename).has .rename = true := by decide
  have hforward : ⟨handle, (handleLink variable_ handle).data, some .addDollar⟩ ∈
      linkEnds builds .rename origin ⟨uri, variable_⟩ := by
    unfold linkEnds
    rw [hdocument]
    refine List.mem_filter.2 ⟨List.mem_append_left _ (LinkMap.mem_forward.2 ?_), hrename⟩
    exact ⟨_, hlink, rfl, hjoins.carry_source (hq.stop_le hhandle), rfl, rfl⟩
  have hbackward : ⟨variable_, (handleLink variable_ handle).data, some .stripDollar⟩ ∈
      linkEnds builds .rename origin ⟨uri, handle⟩ := by
    unfold linkEnds
    rw [hdocument]
    refine List.mem_filter.2 ⟨List.mem_append_right _ (LinkMap.mem_backward.2 ?_), hrename⟩
    exact ⟨_, hlink, rfl, hjoins.carry_target (hq.stop_le hvariable), rfl, rfl⟩
  constructor
  · intro h
    have hmem : ⟨uri, variable_⟩ ∈ S := h.start _ List.mem_cons_self (hq.ends _ hvariable)
    refine ⟨fun k hk => ?_, h.hop⟩
    rw [List.mem_singleton.1 hk]
    exact h.hop _ hmem _ hforward
  · intro h
    have hmem : ⟨uri, handle⟩ ∈ S := h.start _ List.mem_cons_self (hq.ends _ hhandle)
    refine ⟨fun k hk => ?_, h.hop⟩
    rw [List.mem_singleton.1 hk]
    exact h.hop _ hmem _ hbackward

/-- The script document of a held build is found at its address. -/
theorem codeDocument?_script {held : HeldBuild} {d : CodeDocument}
    (hheld : builds.generator? d.document.uri = some held) (hscript : held.build.script = some d) :
    builds.codeDocument? d.document.uri = some (held.build, d) := by
  have hfind : held.build.codeDocument? d.document.uri = some d := by
    simp [Build.codeDocument?, Build.codeDocuments, hscript]
  rw [BuildCache.codeDocument?, hheld, Option.bind_some, hfind]
  rfl

/-- A held build declares the variables of its labels, wherever its script is found. -/
theorem exists_declares_of_get? {actions : List BuildCache.Action} {owner : Uri} {held : HeldBuild}
    {d : CodeDocument} (hget : (BuildCache.after actions).get? owner = some held)
    (hscript : held.build.script = some d) {block : Block} {facts : Script.SetupFacts}
    (hsetup : (Virtual.logicBlocks held.build.text).setup = some (block, facts)) {label : Script.RefLabel}
    (hlabel : label ∈ facts.labels) {b : Script.LabelBinding} (hb : b ∈ label.bindings) {v : Script.LabelVar}
    (hv : v ∈ b.vars) :
    ∃ variable_ handle, Declares d.document.text.toList d.map.mappings d.links.map.mappings
      (v.span.shift block.span.start) v.name.toList variable_ handle := by
  obtain ⟨text, options, hbuild⟩ :=
    BuildCache.build?_after (BuildCache.build?_eq_some_iff.2 ⟨held, hget, rfl⟩)
  rw [hbuild] at hscript hsetup
  exact Virtual.build_declares owner text options hscript hsetup hlabel hb hv

/-- Two lists of edits are the same but for their order, if they edit the same places, each once, and the place
decides the text. -/
theorem perm_of_spells {found found' : List (Place × String)} (hnodup : (found.map (·.1)).Nodup)
    (hnodup' : (found'.map (·.1)).Nodup) (hplaces : ∀ p, p ∈ found.map (·.1) ↔ p ∈ found'.map (·.1))
    (htext : ∀ a ∈ found, Spells builds q name a.1 a.2) (htext' : ∀ a ∈ found', Spells builds q name a.1 a.2) :
    found.Perm found' := by
  refine (List.perm_ext_iff_of_nodup hnodup.of_map hnodup'.of_map).2 fun a => ?_
  constructor
  · intro ha
    obtain ⟨a', ha', hplace⟩ := List.mem_map.1 ((hplaces a.1).1 (List.mem_map_of_mem ha))
    have hsame : a'.2 = a.2 := (hplace ▸ htext' a' ha').unique (htext a ha)
    rwa [← Prod.ext hplace hsame]
  · intro ha
    obtain ⟨a', ha', hplace⟩ := List.mem_map.1 ((hplaces a.1).2 (List.mem_map_of_mem ha))
    have hsame : a'.2 = a.2 := (hplace ▸ htext a' ha').unique (htext' a ha)
    rwa [← Prod.ext hplace hsame]

/-- **Renaming a variable and renaming its handle come to the same.**  Take any held builds, and a backend that
renames in classes which go with their links.  Let the script of one be found at its address.  Every variable of a
label of its setup block is declared there, with its handle.  A rename that starts at the variable with a name and
one that starts at the handle with that name behind a dollar sign both end, and find the same places with the same
texts: the name with a dollar sign in the classes of handles, and the name everywhere else.  The places are all
that links lead to. -/
theorem follow_symmetric (actions : List BuildCache.Action) (backend : Backend σ) (q : Answers)
    (hq : q.Respects (BuildCache.after actions)) (hbackend : backend.Renames q) {held : HeldBuild}
    {d : CodeDocument} (hheld : (BuildCache.after actions).generator? d.document.uri = some held)
    (hscript : held.build.script = some d) {block : Block} {facts : Script.SetupFacts}
    (hsetup : (Virtual.logicBlocks held.build.text).setup = some (block, facts)) {label : Script.RefLabel}
    (hlabel : label ∈ facts.labels) {b : Script.LabelBinding} (hb : b ∈ label.bindings) {v : Script.LabelVar}
    (hv : v ∈ b.vars) :
    (∃ variable_ handle, Declares d.document.text.toList d.map.mappings d.links.map.mappings
      (v.span.shift block.span.start) v.name.toList variable_ handle) ∧
    ∀ variable_ handle, Declares d.document.text.toList d.map.mappings d.links.map.mappings
      (v.span.shift block.span.start) v.name.toList variable_ handle → ∀ (name : String) (s s' : σ),
        ∃ found found' t t',
          follow backend.isCancelled (askEdits backend) (BuildCache.after actions) .rename []
            [⟨⟨d.document.uri, variable_.start, name⟩, .scriptSetup⟩] s = (some found, t) ∧
          follow backend.isCancelled (askEdits backend) (BuildCache.after actions) .rename []
            [⟨⟨d.document.uri, handle.start, "$" ++ name⟩, .scriptSetup⟩] s' = (some found', t') ∧
          found.Perm found' ∧ (∀ edit ∈ found, Spells (BuildCache.after actions) q name edit.1 edit.2) ∧
          IsLeast {S | Closed q (linkEnds (BuildCache.after actions) .rename .scriptSetup)
            [⟨d.document.uri, variable_.start, name⟩] S} {p | p ∈ found.map (·.1)} := by
  have hlinked := linked_after actions
  have hdocument := codeDocument?_script hheld hscript
  constructor
  · obtain ⟨owner, -, hget, -⟩ := BuildCache.generator?_eq_some_iff.1 hheld
    exact exists_declares_of_get? hget hscript hsetup hlabel hb hv
  · intro variable_ handle hdeclares name s s'
    have hsource := isLinkEnd_source hdocument hdeclares.linked
    have hhandle : IsHandleDeclaration (BuildCache.after actions) ⟨d.document.uri, handle⟩ :=
      ⟨_, d, hdocument, _, hdeclares.linked, rfl, rfl⟩
    have hstart : ∀ p ∈ q d.document.uri variable_.start, Spells (BuildCache.after actions) q name p name :=
      spells_of_end hq name hsource (not_handle_source hlinked hdocument hdeclares.linked)
    have hstart' : ∀ p ∈ q d.document.uri handle.start,
        Spells (BuildCache.after actions) q name p ("$" ++ name) := fun p hp => .handle hhandle hp
    obtain ⟨found, t, hfollow, hnodup, hleast, htext⟩ := hbackend.follow_spells hq hlinked
      ⟨⟨d.document.uri, variable_.start, name⟩, .scriptSetup⟩ hstart s
    obtain ⟨found', t', hfollow', hnodup', hleast', htext'⟩ := hbackend.follow_spells hq hlinked
      ⟨⟨d.document.uri, handle.start, "$" ++ name⟩, .scriptSetup⟩ hstart' s'
    have hclosed := closed_iff_of_handleLink hq hlinked hdocument hdeclares.linked .scriptSetup name
      ("$" ++ name)
    refine ⟨found, found', t, t', hfollow, hfollow', ?_, htext, hleast⟩
    refine perm_of_spells hnodup hnodup' (fun p => ⟨fun hp => ?_, fun hp => ?_⟩) htext htext'
    · exact hleast.2 ((hclosed _).2 hleast'.1) hp
    · exact hleast'.2 ((hclosed _).1 hleast.1) hp

/-! ## 6. A backend that knows the ends of links -/

/-- The ends of the links of the held documents. -/
def linkPlaces (builds : BuildCache) : List Place :=
  (heldDocuments builds).flatMap fun d => d.links.map.mappings.flatMap fun link =>
    [⟨d.document.uri, link.source⟩, ⟨d.document.uri, link.target⟩]

/-- The declarations of handles in the held documents. -/
def handlePlaces (builds : BuildCache) : List Place :=
  (heldDocuments builds).flatMap fun d =>
    (d.links.map.mappings.filter (·.data.nameToTarget = some .addDollar)).map fun link =>
      ⟨d.document.uri, link.target⟩

theorem IsLinkEnd.mem_linkPlaces {p : Place} (h : IsLinkEnd builds p) : p ∈ linkPlaces builds := by
  obtain ⟨uri, span⟩ := p
  obtain ⟨b, d, hdocument, link, hlink, hspan⟩ := h
  obtain ⟨hheld, huri⟩ := codeDocument?_mem hdocument
  refine List.mem_flatMap.2 ⟨d, hheld, List.mem_flatMap.2 ⟨link, hlink, ?_⟩⟩
  simpa [huri] using hspan

theorem IsHandleDeclaration.mem_handlePlaces {p : Place} (h : IsHandleDeclaration builds p) :
    p ∈ handlePlaces builds := by
  obtain ⟨uri, span⟩ := p
  obtain ⟨b, d, hdocument, link, hlink, hrespells, hspan⟩ := h
  obtain ⟨hheld, huri⟩ := codeDocument?_mem hdocument
  refine List.mem_flatMap.2 ⟨d, hheld, List.mem_map.2 ⟨link, List.mem_filter.2 ⟨hlink, ?_⟩, ?_⟩⟩
  · simpa using hrespells
  · rw [huri, show span = link.target from hspan]

theorem mem_linkPlaces_of_mem_handlePlaces {p : Place} (h : p ∈ handlePlaces builds) : p ∈ linkPlaces builds := by
  obtain ⟨d, hd, hp⟩ := List.mem_flatMap.1 h
  obtain ⟨link, hlink, rfl⟩ := List.mem_map.1 hp
  exact List.mem_flatMap.2 ⟨d, hd, List.mem_flatMap.2 ⟨link, (List.mem_filter.1 hlink).1, by simp⟩⟩

/-- The ends that start at an offset. -/
def endsAt (builds : BuildCache) (uri : Uri) (offset : Nat) : List Place :=
  (linkPlaces builds).filter fun p => p.uri = uri ∧ p.span.start = offset

/-- The backend knows the ends of links, and nothing else. -/
def knownEnds (builds : BuildCache) : Answers := fun uri offset => {p | p ∈ endsAt builds uri offset}

theorem mem_knownEnds {uri : Uri} {offset : Nat} {p : Place} : p ∈ knownEnds builds uri offset ↔
    p ∈ linkPlaces builds ∧ p.uri = uri ∧ p.span.start = offset := by
  simp [knownEnds, endsAt]

/-- This goes with the links where no end lies in another, and no two ends start together. -/
theorem knownEnds_goesWith
    (hsmall : ∀ p ∈ linkPlaces builds, p.span.start < UInt32.size ∧ p.span.stop < UInt32.size)
    (hapart : ∀ p ∈ linkPlaces builds, ∀ e ∈ linkPlaces builds, e.uri = p.uri →
      e.span.contains p.span = true ∨ p.span.start = e.span.start → p = e) :
    (knownEnds builds).GoesWith (· ∈ linkPlaces builds) (· ∈ handlePlaces builds) where
  consistent := by
    intro u o p hp
    obtain ⟨-, rfl, rfl⟩ := mem_knownEnds.1 hp
    rfl
  small := fun u o p hp => hsmall p (mem_knownEnds.1 hp).1
  ends := fun p hp => mem_knownEnds.2 ⟨hp, rfl, rfl⟩
  whole := fun u o p hp e he huri hinside => hapart p (mem_knownEnds.1 hp).1 e he huri (.inl hinside)
  handles := by
    intro h hh e he hend
    obtain ⟨hmem, huri, hstart⟩ := mem_knownEnds.1 he
    exact hapart e hmem h (mem_linkPlaces_of_mem_handlePlaces hh) huri.symm (.inr hstart)

/-- A backend that renames the ends of links. -/
def endsBackend (builds : BuildCache) : Backend Unit where
  isCancelled := pure false
  find _ _ _ := pure (.ok [])
  rename uri offset name :=
    pure (.ok ((∅ : Changes).insert uri ((endsAt builds uri offset).map fun p => ⟨p.span, name⟩)))
  diagnostics _ _ := pure (.ok [])
  completionDetails _ _ _ := pure (.ok none)
  text? _ := pure none

/-- The edits of a single document. -/
theorem placed_insert_empty (uri : Uri) (edits : List SpanEdit) :
    Changes.placed ((∅ : Changes).insert uri edits) = edits.map fun e => ⟨⟨uri, e.span⟩, e.newText⟩ := by
  have hentries : ((∅ : Changes).insert uri edits).entries = [(uri, edits)] := rfl
  simp [Changes.placed, hentries]

theorem endsBackend_renames (builds : BuildCache) : (endsBackend builds).Renames (knownEnds builds) where
  goes_on _ := rfl
  answer uri offset name s changes hrename := by
    obtain rfl : (∅ : Changes).insert uri ((endsAt builds uri offset).map fun p => ⟨p.span, name⟩) =
        changes := Except.ok.inj hrename
    have hplaces : ∀ p ∈ endsAt builds uri offset, (⟨uri, p.span⟩ : Place) = p := by
      intro p hp
      obtain ⟨-, rfl, -⟩ := mem_knownEnds.1 hp
      rfl
    rw [placed_insert_empty]
    constructor
    · intro p
      simp only [List.map_map, Function.comp_def]
      rw [List.map_congr_left hplaces, List.map_id']
      rfl
    · simp
  failure _ _ _ _ _ hrename := by cases hrename

/-- A component with one labelled statement. -/
def labelled : List BuildCache.Action :=
  [.refresh ⟨"file:///A.vue"⟩ 1 "<script setup>ref: a = 1</script>" {}]

/-- The premises can be met where a component has a label. -/
theorem follow_symmetric_labelled :
    ∃ (d : CodeDocument) (variable_ handle : Span), handleLink variable_ handle ∈ d.links.map.mappings ∧
      ∃ found found' t t',
        follow (endsBackend (BuildCache.after labelled)).isCancelled
          (askEdits (endsBackend (BuildCache.after labelled))) (BuildCache.after labelled) .rename []
          [⟨⟨d.document.uri, variable_.start, "b"⟩, .scriptSetup⟩] () = (some found, t) ∧
        follow (endsBackend (BuildCache.after labelled)).isCancelled
          (askEdits (endsBackend (BuildCache.after labelled))) (BuildCache.after labelled) .rename []
          [⟨⟨d.document.uri, handle.start, "$" ++ "b"⟩, .scriptSetup⟩] () = (some found', t') ∧
        found.Perm found' := by
  have hq : (knownEnds (BuildCache.after labelled)).Respects (BuildCache.after labelled) :=
    (knownEnds_goesWith (by decide +kernel) (by decide +kernel)).mono (fun _ h => h.mem_linkPlaces)
      fun _ h => h.mem_handlePlaces
  have hrun : ((BuildCache.after labelled).generator? ⟨"file:///A.vue.__VLS_script.js"⟩).any (fun held =>
      held.build.script.any (·.document.uri = ⟨"file:///A.vue.__VLS_script.js"⟩) &&
        (Virtual.logicBlocks held.build.text).setup.any fun setup =>
          setup.2.labels.any fun label => label.bindings.any fun b => !b.vars.isEmpty) = true := by
    decide +kernel
  obtain ⟨held, hheld, hrun⟩ := (Option.any_eq_true _ _).1 hrun
  obtain ⟨hscript, hsetup⟩ := Bool.and_eq_true_iff.1 hrun
  obtain ⟨d, hscript, huri⟩ := (Option.any_eq_true _ _).1 hscript
  obtain ⟨⟨block, facts⟩, hsetup, hlabels⟩ := (Option.any_eq_true _ _).1 hsetup
  obtain ⟨label, hlabel, hbindings⟩ := List.any_eq_true.1 hlabels
  obtain ⟨b, hb, hvars⟩ := List.any_eq_true.1 hbindings
  obtain ⟨v, hv⟩ : ∃ v, v ∈ b.vars := List.exists_mem_of_ne_nil _ (by simpa using hvars)
  rw [← of_decide_eq_true huri] at hheld
  obtain ⟨⟨variable_, handle, hdeclares⟩, hsymmetric⟩ := follow_symmetric labelled
    (endsBackend (BuildCache.after labelled)) (knownEnds (BuildCache.after labelled)) hq
    (endsBackend_renames _) hheld hscript hsetup hlabel hb hv
  obtain ⟨found, found', t, t', hrun, hrun', hperm, -⟩ := hsymmetric variable_ handle hdeclares "b" () ()
  exact ⟨d, variable_, handle, hdeclares.linked, found, found', t, t', hrun, hrun', hperm⟩

/-! ## 7. A document that is held and not found -/

/-- A component whose name is that of a stylesheet generated for `A.vue`, up to its extension. -/
def sheetComponent : Uri := ⟨"file:///A.vue.__VLS_style_0.x.vue"⟩

/-- The stylesheet of `A.vue` has the address of the script of that component. The component is built after
`A.vue`, so the address is its own by the time that `A.vue` gives the stylesheet up, and is taken from it then. -/
def sheetGivenUp : List BuildCache.Action :=
  [.refresh ⟨"file:///A.vue"⟩ 2 "<script>a</script>" {},
    .refresh sheetComponent 1 "<script setup>ref: a = 1</script>" {},
    .refresh ⟨"file:///A.vue"⟩ 1 "<script>a</script><style lang=\"x.vue.__VLS_script.js\"></style>" {}]

/-- What a rename that starts at the offset finds, with the backend that renames the ends of links. -/
def renamedFrom (builds : BuildCache) (uri : Uri) (offset : Nat) (name : String) :
    Option (List (Place × String)) :=
  (follow (endsBackend builds).isCancelled (askEdits (endsBackend builds)) builds .rename []
    [⟨⟨uri, offset, name⟩, .scriptSetup⟩] ()).1

/-- A build is held, and its script declares a variable with its handle, but the script is not found at its
address. A rename follows no links there. One that starts at the variable finds the variable alone, and one that
starts at the handle finds the handle alone, though the backend goes with the links of all held documents. -/
theorem follow_asymmetric_givenUp :
    (knownEnds (BuildCache.after sheetGivenUp)).GoesWith (· ∈ linkPlaces (BuildCache.after sheetGivenUp))
      (· ∈ handlePlaces (BuildCache.after sheetGivenUp)) ∧
    (endsBackend (BuildCache.after sheetGivenUp)).Renames (knownEnds (BuildCache.after sheetGivenUp)) ∧
    ∃ held d block facts label b v variable_ handle,
      (BuildCache.after sheetGivenUp).get? sheetComponent = some held ∧ held.build.script = some d ∧
      (Virtual.logicBlocks held.build.text).setup = some (block, facts) ∧ label ∈ facts.labels ∧
      b ∈ label.bindings ∧ v ∈ b.vars ∧
      Declares d.document.text.toList d.map.mappings d.links.map.mappings (v.span.shift block.span.start)
        v.name.toList variable_ handle ∧
      variable_ ≠ handle ∧
      renamedFrom (BuildCache.after sheetGivenUp) d.document.uri variable_.start "b" =
        some [(⟨d.document.uri, variable_⟩, "b")] ∧
      renamedFrom (BuildCache.after sheetGivenUp) d.document.uri handle.start "$b" =
        some [(⟨d.document.uri, handle⟩, "$b")] := by
  refine ⟨knownEnds_goesWith (by decide +kernel) (by decide +kernel), endsBackend_renames _, ?_⟩
  have hrun : ((BuildCache.after sheetGivenUp).get? sheetComponent).any (fun held =>
      held.build.script.any (fun d =>
        (d.links.map.mappings.filter (·.data.nameToTarget = some .addDollar)).all fun link =>
          decide (link.source ≠ link.target ∧
            renamedFrom (BuildCache.after sheetGivenUp) d.document.uri link.source.start "b" =
              some [(⟨d.document.uri, link.source⟩, "b")] ∧
            renamedFrom (BuildCache.after sheetGivenUp) d.document.uri link.target.start "$b" =
              some [(⟨d.document.uri, link.target⟩, "$b")])) &&
      (Virtual.logicBlocks held.build.text).setup.any fun setup =>
        setup.2.labels.any fun label => label.bindings.any fun b => !b.vars.isEmpty) = true := by
    decide +kernel
  obtain ⟨held, hheld, hrun⟩ := (Option.any_eq_true _ _).1 hrun
  obtain ⟨hscript, hsetup⟩ := Bool.and_eq_true_iff.1 hrun
  obtain ⟨d, hscript, hlinks⟩ := (Option.any_eq_true _ _).1 hscript
  obtain ⟨⟨block, facts⟩, hsetup, hlabels⟩ := (Option.any_eq_true _ _).1 hsetup
  obtain ⟨label, hlabel, hbindings⟩ := List.any_eq_true.1 hlabels
  obtain ⟨b, hb, hvars⟩ := List.any_eq_true.1 hbindings
  obtain ⟨v, hv⟩ : ∃ v, v ∈ b.vars := List.exists_mem_of_ne_nil _ (by simpa using hvars)
  obtain ⟨variable_, handle, hdeclares⟩ := exists_declares_of_get? hheld hscript hsetup hlabel hb hv
  have hlink := List.all_eq_true.1 hlinks _ (List.mem_filter.2 ⟨hdeclares.linked, decide_eq_true rfl⟩)
  exact ⟨held, d, block, facts, label, b, v, variable_, handle, hheld, hscript, hsetup, hlabel, hb, hv, hdeclares,
    of_decide_eq_true hlink⟩

end ComponentLens.Service
