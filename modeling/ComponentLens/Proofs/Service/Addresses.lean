/-
# The addresses in an answer

A generated document exists in the memory of the service alone, and an answer that names it is of no use to an
editor.  So every place that the backend finds in one is mapped back to its component; a place is kept as it is
only if its address has no generator.

Whether an address has one is read off the table of owners, and `addresses_owned` says when that is enough.  An
answer names no document that a held build generates, unless a held component has that very address, or two held
components generated the document at some moment of the session.  The second exception is real: a component that
gives up a document takes the address out of the table, whoever it belongs to by then
(`references_after_release`).
-/
import ComponentLens.Proofs.Service.Reports

namespace ComponentLens.Service

open Virtual (Build)

variable {σ : Type}

/-! ## 1. What an answer names -/

/-- The files that an answer names: those of its locations, those that it edits, and those of the places that
explain a diagnostic. -/
def Request.addresses (tools : Tools σ) (w : Workspace) (state : σ) : Request → List Uri
  | .references uri pos => (Service.references tools w uri pos state).1.1.map (·.uri)
  | .definitions uri pos => (Service.definitions tools w uri pos state).1.1.map (·.uri)
  | .typeDefinitions uri pos => (Service.typeDefinitions tools w uri pos state).1.1.map (·.uri)
  | .rename uri pos newName => ((Service.rename tools w uri pos newName state).1.1.getD []).map (·.1)
  | .diagnostics uri => (Service.diagnostics tools w uri state).1.1.flatMap fun d => d.related.map (·.1.uri)
  | .build _ | .colors _ | .linkedRanges _ _ | .closingTag _ _ | .resolveCompletion _ => []

/-- The address is outside the generated documents, or that of a file with a held build. -/
def Nameable (builds : BuildCache) (u : Uri) : Prop := builds.generator? u = none ∨ (builds.build? u).isSome

theorem Origin.nameable {builds : BuildCache} {found p : Place} (h : Origin builds found p) :
    Nameable builds p.uri := by
  cases h with
  | kept hnone => exact .inl hnone
  | mapped hget _ => exact .inr (by rw [BuildCache.build?, hget]; rfl)

theorem Traced.nameable {builds : BuildCache} {given : List Place} {p : Place} (h : Traced builds given p) :
    Nameable builds p.uri := by
  obtain ⟨_, -, horigin⟩ := h
  exact horigin.nameable

theorem Reported.nameable {exchanges : List Exchange} {given : List Place} {w : Workspace} {uri : Uri}
    {range : Range} (h : Reported exchanges given w uri range) : Nameable w.builds uri := by
  obtain ⟨_, -, htraced⟩ := h
  exact htraced.nameable

/-! ## 2. Places that explain a diagnostic

They are mapped one at a time, whatever has been answered before. -/

/-- The action gives something that satisfies `P`, in whatever state it starts. -/
def Gives {α : Type} (m : StateM σ α) (P : α → Prop) : Prop := ∀ s, P (m s).1

section
variable {α β : Type} {P : α → Prop} {Q : β → Prop}

theorem Gives.pure {a : α} (h : P a) : Gives (σ := σ) (pure a) P := fun _ => h

theorem Gives.bind {m : StateM σ α} {f : α → StateM σ β} (hm : Gives m P) (hf : ∀ a, P a → Gives (f a) Q) :
    Gives (m >>= f) Q := fun s => hf _ (hm s) _

theorem Gives.of_forall {m : StateM σ α} (h : ∀ a, P a) : Gives m P := fun _ => h _

theorem gives_gather {f : α → StateM σ (List β)} {as : List α}
    (h : ∀ a ∈ as, Gives (f a) fun bs => ∀ b ∈ bs, Q b) : Gives (gather f as) fun bs => ∀ b ∈ bs, Q b := by
  induction as with
  | nil => exact Gives.pure fun b hb => by cases hb
  | cons a rest ih =>
    refine (h a List.mem_cons_self).bind fun bs hbs => ?_
    refine (ih fun a ha => h a (List.mem_cons_of_mem _ ha)).bind fun more hmore => ?_
    refine Gives.pure fun b hb => ?_
    rcases List.mem_append.1 hb with hb | hb
    · exact hbs b hb
    · exact hmore b hb

end

/-- A place is located in its own file. -/
theorem gives_locate? (backend : Backend σ) (w : Workspace) (p : Place) :
    Gives (locate? backend w p) fun o => ∀ l ∈ o, l.uri = p.uri := fun s l hl =>
  ((records_locate? backend p).result s l hl).1

section
variable {w : Workspace} (haddressed : Addressed w.builds)
include haddressed

theorem gives_relatedLocation? (backend : Backend σ) (place : Place) :
    Gives (relatedLocation? backend w place) fun o => ∀ l ∈ o, Nameable w.builds l.uri := by
  unfold relatedLocation?
  split
  next p rest hmapped =>
    have horigin := mapBack_origin haddressed (hmapped ▸ List.mem_cons_self : p ∈ mapBack _ _ _)
    intro state l hl
    rw [gives_locate? backend w p.place state l hl]
    exact horigin.nameable
  · exact Gives.pure fun l hl => by cases hl

theorem gives_mapDiagnostic? (backend : Backend σ) (b : Build) (d : Virtual.CodeDocument)
    (diagnostic : BackendDiagnostic) :
    Gives (mapDiagnostic? backend w b d diagnostic) fun o =>
      ∀ d ∈ o, ∀ r ∈ d.related, Nameable w.builds r.1.uri := by
  unfold mapDiagnostic?
  dsimp only
  split
  · exact Gives.pure fun d hd => by cases hd
  next range _ =>
    have hrelated : ∀ pair ∈ diagnostic.related, Gives
        (do return ((← relatedLocation? backend w pair.1).map (·, pair.2)).toList) fun related =>
          ∀ r ∈ related, Nameable w.builds r.1.uri := by
      intro pair _
      refine (gives_relatedLocation? haddressed backend pair.1).bind fun o ho => Gives.pure fun r hr => ?_
      obtain ⟨l, hl, rfl⟩ := Option.map_eq_some_iff.1 (Option.mem_toList.1 hr)
      exact ho l hl
    refine (gives_gather hrelated).bind fun related hrelated => Gives.pure fun d hd => ?_
    cases hd
    exact hrelated

theorem gives_codeDiagnostics (backend : Backend σ) (b : Build) (documents : List Virtual.CodeDocument) :
    Gives (codeDiagnostics backend w b documents) fun ds =>
      ∀ d ∈ ds, ∀ r ∈ d.related, Nameable w.builds r.1.uri := by
  induction documents with
  | nil => exact Gives.pure fun d hd => by cases hd
  | cons document rest ih =>
    refine Gives.bind (Gives.of_forall fun _ => trivial) fun cancelled _ => ?_
    split
    · exact Gives.pure fun d hd => by cases hd
    refine Gives.bind (Gives.of_forall fun _ => trivial) fun reply _ => ?_
    split
    · exact Gives.pure fun d hd => by cases hd
    · exact ih
    next diagnostics =>
      have hmapped : ∀ x ∈ diagnostics, Gives
          (do return (← mapDiagnostic? backend w b document x).toList) fun ds =>
            ∀ d ∈ ds, ∀ r ∈ d.related, Nameable w.builds r.1.uri := fun x _ =>
        (gives_mapDiagnostic? haddressed backend b document x).bind fun o ho =>
          Gives.pure fun d hd => ho d (Option.mem_toList.1 hd)
      refine (gives_gather hmapped).bind fun mapped hmapped => ih.bind fun more hmore => Gives.pure ?_
      intro d hd
      rcases List.mem_append.1 hd with hd | hd
      · exact hmapped d hd
      · exact hmore d hd

end

theorem gives_diagnostics (tools : Tools σ) (w : Workspace) (uri : Uri)
    (haddressed : Addressed (w.refresh uri).builds) :
    Gives (diagnostics tools w uri) fun answer =>
      ∀ d ∈ answer.1, ∀ r ∈ d.related, Nameable (w.refresh uri).builds r.1.uri := by
  unfold diagnostics
  dsimp only
  split
  · exact Gives.pure fun d hd => by cases hd
  next b _ =>
    refine (gives_codeDiagnostics haddressed tools.backend b _).bind fun found hfound => Gives.pure ?_
    intro d hd
    rcases List.mem_append.1 hd with hd | hd
    · exact hfound d hd
    -- A fault of the component is explained by no other place.
    · split at hd
      · obtain ⟨f, -, hd⟩ := List.mem_filterMap.1 hd
        obtain ⟨range, -, rfl⟩ := Option.map_eq_some_iff.1 hd
        intro r hr
        cases hr
      · cases hd

/-! ## 3. All requests -/

/-- An answer names files, as far as the builds that it leaves can tell. -/
theorem Request.addresses_nameable (tools : Tools σ) (w : Workspace) (state : σ) (request : Request)
    (haddressed : Addressed (request.leaves tools w state).builds) :
    ∀ u ∈ request.addresses tools w state, Nameable (request.leaves tools w state).builds u := by
  rw [request.leaves_eq] at haddressed ⊢
  intro u hu
  cases request with
  | references uri pos =>
    obtain ⟨l, hl, rfl⟩ := List.mem_map.1 hu
    exact (lookupRequest_reported tools w .references uri pos haddressed state l hl).nameable
  | definitions uri pos =>
    obtain ⟨l, hl, rfl⟩ := List.mem_map.1 hu
    exact (lookupRequest_reported tools w .definition uri pos haddressed state l hl).nameable
  | typeDefinitions uri pos =>
    obtain ⟨l, hl, rfl⟩ := List.mem_map.1 hu
    exact (lookupRequest_reported tools w .typeDefinition uri pos haddressed state l hl).nameable
  | rename uri pos newName =>
    obtain ⟨file, hfile, rfl⟩ := List.mem_map.1 hu
    cases hanswer : (Service.rename tools w uri pos newName state).1.1 with
    | none =>
      rw [hanswer] at hfile
      cases hfile
    | some files =>
      rw [hanswer] at hfile
      obtain ⟨⟨p, huri, htraced⟩, -⟩ :=
        rename_reported tools w uri pos newName haddressed state files hanswer file hfile
      rw [← huri]
      exact htraced.nameable
  | diagnostics uri =>
    obtain ⟨d, hd, hu⟩ := List.mem_flatMap.1 hu
    obtain ⟨r, hr, rfl⟩ := List.mem_map.1 hu
    exact gives_diagnostics tools w uri haddressed state d hd r hr
  | build _ => cases hu
  | colors _ => cases hu
  | linkedRanges _ _ => cases hu
  | closingTag _ _ => cases hu
  | resolveCompletion _ => cases hu

/-! ## 4. The builds of a session -/

/-- A run of the cache holds every build where it was made for. -/
theorem addressed_after (actions : List BuildCache.Action) : Addressed (BuildCache.after actions) := by
  intro u held hget
  obtain ⟨text, options, hbuild⟩ :=
    BuildCache.build?_after (BuildCache.build?_eq_some_iff.2 ⟨held, hget, rfl⟩)
  rw [hbuild]
  rfl

namespace Session

variable {tools : Tools σ} {settings : Settings}

theorem builds_refresh_cases (w : Workspace) (uri : Uri) : (w.refresh uri).builds = w.builds ∨
    ∃ action, (w.refresh uri).builds = w.builds.act action := by
  cases hfile : w.component? uri with
  | none =>
    rw [refresh_of_component?_eq_none hfile]
    exact .inl rfl
  | some file =>
    rw [builds_refresh hfile]
    exact .inr ⟨.refresh uri file.version file.text w.settings.buildOptions, rfl⟩

/-- An event does at most one thing to the held builds. -/
theorem builds_step (tools : Tools σ) (w : Workspace) (event : Event σ) :
    (step tools w event).builds = w.builds ∨ ∃ action, (step tools w event).builds = w.builds.act action := by
  cases event with
  | opened file => exact .inl rfl
  | changed uri version changes =>
    rcases step_changed tools w uri version changes with ⟨-, heq⟩ | ⟨file, -, heq⟩
    · rw [heq]
      exact .inl rfl
    · rw [heq]
      exact .inl rfl
  | closed uri => exact .inr ⟨.erase uri, rfl⟩
  | configured settings => exact .inr ⟨.clear, rfl⟩
  | asked request state =>
    rw [step, request.leaves_eq]
    cases request.subject? tools with
    | none => exact .inl rfl
    | some uri => exact builds_refresh_cases w uri

variable (tools settings) in
/-- The held builds of a session are those of a run, and every moment of the run is one of the session. -/
theorem exists_actions (history : List (Event σ)) :
    ∃ actions, (after tools settings history).builds = BuildCache.after actions ∧
      ∀ earlier, earlier <:+ actions →
        ∃ past, past <:+ history ∧ (after tools settings past).builds = BuildCache.after earlier := by
  induction history with
  | nil =>
    refine ⟨[], rfl, fun earlier hearlier => ⟨[], List.suffix_refl _, ?_⟩⟩
    rw [List.suffix_nil.1 hearlier]
    rfl
  | cons event past ih =>
    obtain ⟨actions, hbuilds, hmoments⟩ := ih
    have hearlier : ∀ earlier, earlier <:+ actions → ∃ moment, moment <:+ event :: past ∧
        (after tools settings moment).builds = BuildCache.after earlier := by
      intro earlier hsuffix
      obtain ⟨moment, hmoment, heq⟩ := hmoments earlier hsuffix
      exact ⟨moment, hmoment.trans (List.suffix_cons _ _), heq⟩
    rcases builds_step tools (after tools settings past) event with hsame | ⟨action, hact⟩
    · exact ⟨actions, hsame.trans hbuilds, hearlier⟩
    · have hnow : (after tools settings (event :: past)).builds = BuildCache.after (action :: actions) := by
        rw [BuildCache.after, ← hbuilds]
        exact hact
      refine ⟨action :: actions, hnow, fun earlier hsuffix => ?_⟩
      rcases List.suffix_cons_iff.1 hsuffix with rfl | hsuffix
      · exact ⟨event :: past, List.suffix_refl _, hnow⟩
      · exact hearlier earlier hsuffix

/-! ## 5. The addresses of a session's answers -/

variable (tools settings) in
/-- At some moment of the history, two held components had a document of the address. -/
def Contested (history : List (Event σ)) (u : Uri) : Prop :=
  ∃ past, past <:+ history ∧ ¬(after tools settings past).builds.ApartAt u

/-- A document of a held build has a generator, unless its address has been contested. -/
theorem generator?_isSome {history : List (Event σ)} {o u : Uri} {b : Build}
    (hb : (after tools settings history).builds.build? o = some b) (howns : b.owns u = true)
    (hcontested : ¬Contested tools settings history u) :
    ((after tools settings history).builds.generator? u).isSome := by
  obtain ⟨actions, hbuilds, hmoments⟩ := exists_actions tools settings history
  have hapart : ∀ earlier, earlier <:+ actions → (BuildCache.after earlier).ApartAt u := by
    intro earlier hearlier
    obtain ⟨past, hpast, heq⟩ := hmoments earlier hearlier
    rw [← heq]
    exact Classical.byContradiction fun hnot => hcontested ⟨past, hpast, hnot⟩
  have hcomplete := BuildCache.completeAt_after hapart
  rw [← hbuilds] at hcomplete
  obtain ⟨h, hget, rfl⟩ := BuildCache.build?_eq_some_iff.1 hb
  rw [BuildCache.generator?_eq_some_iff.2 ⟨o, hcomplete o h.build hb howns, hget, howns⟩]
  rfl

/-- **No generated document is named.**  After any history, and with any tools, let an answer name an address
at which a held build has a document once the request is done.  Then a held component has that very address, or
at some moment of the session, the request included, two held components had a document of that address. -/
theorem addresses_owned (tools : Tools σ) (settings : Settings) (history : List (Event σ)) (request : Request)
    (state : σ) :
    ∀ u ∈ request.addresses tools (after tools settings history) state,
      ∀ o b, (after tools settings (.asked request state :: history)).builds.build? o = some b →
        b.owns u = true →
          ((after tools settings (.asked request state :: history)).builds.build? u).isSome ∨
            Contested tools settings (.asked request state :: history) u := by
  intro u hu o b hb howns
  obtain ⟨actions, hbuilds, -⟩ := exists_actions tools settings (.asked request state :: history)
  have haddressed : Addressed (after tools settings (.asked request state :: history)).builds := by
    rw [hbuilds]
    exact addressed_after actions
  rcases request.addresses_nameable tools (after tools settings history) state haddressed u hu with
    hnone | hheld
  · by_cases hcontested : Contested tools settings (.asked request state :: history) u
    · exact .inr hcontested
    · have hsome := generator?_isSome hb howns hcontested
      rw [after, step, hnone] at hsome
      cases hsome
  · exact .inl hheld

/-! ## 6. A document that is given up by another component -/

/-- A component whose name is that of a stylesheet generated for `A.vue`, up to its extension. -/
def sheet : Uri := ⟨"file:///A.vue.__VLS_style_0.x.vue"⟩

/-- The script of that component. -/
def sheetScript : Uri := ⟨"file:///A.vue.__VLS_style_0.x.vue.__VLS_script.js"⟩

/-- A backend that finds every symbol at the start of that script. -/
def scriptOfSheet : Backend Unit :=
  { silentBackend with
    find := fun _ _ _ => pure (.ok [⟨sheetScript, ⟨0, 1⟩⟩])
    text? := fun _ => pure (some "b") }

/-- The stylesheet of `A.vue` has the address of the script of the other component, which is built after it and
has taken the address over by the time that `A.vue` gives the stylesheet up. -/
def released : List (Event Unit) :=
  [.asked (.build ⟨"file:///A.vue"⟩) (), .changed ⟨"file:///A.vue"⟩ 2 [⟨none, "<script>a</script>"⟩],
    .asked (.build sheet) (), .asked (.build ⟨"file:///A.vue"⟩) (),
    .opened ⟨sheet, 1, "vue", "<script></script>"⟩,
    .opened ⟨⟨"file:///A.vue"⟩, 1, "vue",
      "<script>a</script><style lang=\"x.vue.__VLS_script.js\"></style>"⟩]

/-- The answer about `A.vue` names the script, which the other component alone generates; the address was
contested before. -/
theorem addresses_owned_released :
    sheetScript ∈ (Request.references ⟨"file:///A.vue"⟩ ⟨0, 8⟩).addresses ⟨scriptOfSheet, none, none⟩
      (after ⟨scriptOfSheet, none, none⟩ {} released) () ∧
    Contested ⟨scriptOfSheet, none, none⟩ {}
      (.asked (.references ⟨"file:///A.vue"⟩ ⟨0, 8⟩) () :: released) sheetScript := by
  have hrun : sheetScript ∈ (Request.references ⟨"file:///A.vue"⟩ ⟨0, 8⟩).addresses
        ⟨scriptOfSheet, none, none⟩ (after ⟨scriptOfSheet, none, none⟩ {} released) () ∧
      ((after ⟨scriptOfSheet, none, none⟩ {} (.asked (.references ⟨"file:///A.vue"⟩ ⟨0, 8⟩) () ::
        released)).builds.build? sheet).any (·.owns sheetScript) = true ∧
      ((after ⟨scriptOfSheet, none, none⟩ {} (.asked (.references ⟨"file:///A.vue"⟩ ⟨0, 8⟩) () ::
        released)).builds.build? sheetScript).isSome = false := by decide +kernel
  obtain ⟨hnamed, hheld, hnone⟩ := hrun
  obtain ⟨b, hb, howns⟩ := (Option.any_eq_true _ _).1 hheld
  refine ⟨hnamed, ?_⟩
  rcases addresses_owned ⟨scriptOfSheet, none, none⟩ {} released (.references ⟨"file:///A.vue"⟩ ⟨0, 8⟩) ()
    sheetScript hnamed sheet b hb howns with hcomponent | hcontested
  · rw [hnone] at hcomponent
    cases hcomponent
  · exact hcontested

/-- Two components are open and built. No document is generated for both, and none has the address of either.
A request about the one reports a place in the script of the other as it is. -/
theorem references_after_release :
    (after ⟨scriptOfSheet, none, none⟩ {} released).builds.Apart ∧
    (∀ e ∈ (after ⟨scriptOfSheet, none, none⟩ {} released).builds.held.entries,
      ∀ e' ∈ (after ⟨scriptOfSheet, none, none⟩ {} released).builds.held.entries,
        e'.2.build.owns e.1 = false) ∧
    (references ⟨scriptOfSheet, none, none⟩ (after ⟨scriptOfSheet, none, none⟩ {} released)
      ⟨"file:///A.vue"⟩ ⟨0, 8⟩ ()).1.1 = [⟨sheetScript, ⟨⟨0, 0⟩, ⟨0, 1⟩⟩⟩] ∧
    ((references ⟨scriptOfSheet, none, none⟩ (after ⟨scriptOfSheet, none, none⟩ {} released)
      ⟨"file:///A.vue"⟩ ⟨0, 8⟩ ()).1.2.builds.build? sheet).any (·.owns sheetScript) = true := by
  decide +kernel

end Session

end ComponentLens.Service
