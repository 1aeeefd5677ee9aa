/-
# Whose document an address is

A request that arrives at a generated document asks `BuildCache.generator?` which component it belongs to.
The answer is read off two tables, and they are changed one after the other: a rebuild first assigns the new
documents and then releases those that only the old build had.

`after_generator?_iff` says when the answer is right, after any number of refreshes, erasures and clearings.
An owner always holds a build with the document.  The converse needs one condition: at no moment have two held
components a document of one address (`Apart`).  It is needed at every moment of the run and not at the
last one alone, since the second component takes the address from the first, and letting it go does not give
it back.
-/
import ComponentLens.Workspace.BuildCache

namespace ComponentLens.BuildCache

open Virtual (Build BuildOptions)

/-! ## 1. Runs -/

/-- What can be done to the held builds. -/
inductive Action where
  | refresh (uri : Uri) (version : Int) (text : String) (options : BuildOptions)
  | erase (uri : Uri)
  | clear
  deriving DecidableEq, Repr

/-- The held builds after one action. -/
def act (c : BuildCache) : Action → BuildCache
  | .refresh uri version text options => c.refresh uri version text options
  | .erase uri => c.erase uri
  | .clear => c.clear

/-- The held builds after a list of actions, the latest first. -/
def after : List Action → BuildCache
  | [] => {}
  | action :: past => (after past).act action

/-! ## 2. What one change leaves

Both tables are read through `build?` and `owner?` from here on. -/

variable (c : BuildCache) (uri : Uri) (version : Int) (text : String) (options : BuildOptions)

theorem get?_assign (owners : Table Uri Uri) (build : Build) (u : Uri) :
    (assign owners uri build).get? u = if build.owns u then some uri else owners.get? u := by
  unfold assign Build.owns
  induction build.documents generalizing owners with
  | nil => rfl
  | cons d rest ih =>
    rw [List.foldl_cons, ih, Table.get?_insert, List.any_cons]
    by_cases h : u = d.uri
    · simp [h]
    · have h' : ¬d.uri = u := fun e => h e.symm
      simp [h, h']

theorem get?_release (owners : Table Uri Uri) (old : Build) (kept : Option Build) (u : Uri) :
    (release owners old kept).get? u =
      if old.owns u = true ∧ kept.any (·.owns u) = false then none else owners.get? u := by
  unfold release
  rw [Build.owns]
  induction old.documents generalizing owners with
  | nil => simp
  | cons d rest ih =>
    rw [List.foldl_cons, ih, List.any_cons]
    by_cases h : d.uri = u
    · subst h
      by_cases hkept : kept.any (·.owns d.uri) = true
      · simp [hkept]
      · simp [hkept]
    · have h' : ¬u = d.uri := fun e => h e.symm
      by_cases hkept : kept.any (·.owns d.uri) = true
      · simp [h, hkept]
      · simp [h, h', hkept, Table.get?_erase]

theorem get?_rebuild (o : Uri) : (c.rebuild uri version text options).get? o =
    if o = uri then
      some ⟨version, Digest.ofString text, Virtual.build uri text options, c.made⟩
    else c.get? o :=
  c.held.get?_insert uri o _

theorem get?_erase (o : Uri) : (c.erase uri).get? o = if o = uri then none else c.get? o := by
  unfold erase
  cases h : c.build? uri with
  | none =>
    have hnone : c.get? uri = none := Option.map_eq_none_iff.1 h
    by_cases ho : o = uri
    · simp [ho, hnone]
    · simp [ho]
  | some old => exact c.held.get?_erase uri o

@[simp] theorem build?_rebuild (o : Uri) : (c.rebuild uri version text options).build? o =
    if o = uri then some (Virtual.build uri text options) else c.build? o := by
  rw [build?, get?_rebuild]
  by_cases h : o = uri
  · simp [h]
  · simp [h, build?]

@[simp] theorem build?_erase (o : Uri) :
    (c.erase uri).build? o = if o = uri then none else c.build? o := by
  rw [build?, get?_erase]
  by_cases h : o = uri
  · simp [h]
  · simp [h, build?]

/-- The new documents belong to the component, and the old ones that are not among them to nobody. -/
theorem owner?_rebuild (u : Uri) : (c.rebuild uri version text options).owner? u =
    if (Virtual.build uri text options).owns u then some uri
    else if (c.build? uri).any (·.owns u) then none else c.owner? u := by
  simp only [owner?, rebuild]
  cases c.build? uri with
  | none => simp [get?_assign]
  | some old =>
    simp only [get?_release, get?_assign, Option.any_some]
    by_cases h : (Virtual.build uri text options).owns u = true
    · simp [h]
    · simp [h]

/-- Its documents then belong to nobody. -/
theorem owner?_erase (u : Uri) :
    (c.erase uri).owner? u = if (c.build? uri).any (·.owns u) then none else c.owner? u := by
  unfold erase
  cases c.build? uri with
  | none => simp
  | some old => simp [owner?, get?_release]

/-- A refresh leaves the other components as they are. -/
theorem get?_refresh_of_ne {o : Uri} (h : o ≠ uri) :
    (c.refresh uri version text options).get? o = c.get? o := by
  unfold refresh
  split
  · simp [get?_rebuild, h]
  · split
    · rfl
    · split
      · exact (c.held.get?_insert uri o _).trans (if_neg h)
      · simp [get?_rebuild, h]

/-- What a refresh leaves for the component: the build it has, if that is of this version; the build it has
under this version, if the texts have one digest; and a new build in all other cases. -/
theorem refresh_cases :
    (∃ h, c.get? uri = some h ∧ h.version = version ∧ c.refresh uri version text options = c) ∨
    (∃ h, c.get? uri = some h ∧ h.version ≠ version ∧ h.digest = Digest.ofString text ∧
      c.refresh uri version text options =
        { c with held := c.held.insert uri { h with version } }) ∨
    ((∀ h, c.get? uri = some h → h.digest ≠ Digest.ofString text) ∧
      c.refresh uri version text options = c.rebuild uri version text options) := by
  unfold refresh
  split
  next heq => exact .inr (.inr ⟨fun h hget => by simp [heq] at hget, rfl⟩)
  next h heq =>
    split
    next hversion => exact .inl ⟨h, heq, hversion, rfl⟩
    next hversion =>
      split
      next hdigest => exact .inr (.inl ⟨h, heq, hversion, hdigest, rfl⟩)
      next hdigest =>
        refine .inr (.inr ⟨fun h' hget => ?_, rfl⟩)
        rw [heq] at hget
        cases hget
        exact hdigest

/-- A refresh either builds anew or keeps every build and every owner. -/
theorem refresh_eq_rebuild_or : c.refresh uri version text options = c.rebuild uri version text options ∨
    ((c.refresh uri version text options).build? = c.build? ∧
      (c.refresh uri version text options).owner? = c.owner?) := by
  rcases c.refresh_cases uri version text options with
    ⟨h, -, -, heq⟩ | ⟨h, hget, -, -, heq⟩ | ⟨-, heq⟩
  · rw [heq]
    exact .inr ⟨rfl, rfl⟩
  · rw [heq]
    refine .inr ⟨funext fun o => ?_, rfl⟩
    simp only [build?, get?, Table.get?_insert]
    by_cases ho : o = uri
    · subst ho
      rw [if_pos rfl]
      exact (congrArg (Option.map (·.build)) hget).symm
    · rw [if_neg ho]
  · exact .inl heq

/-- What is held after an action was held before, or the action has built it. -/
theorem build?_act {o : Uri} {b : Build} (action : Action) (h : (c.act action).build? o = some b) :
    c.build? o = some b ∨ ∃ version text options, action = .refresh o version text options ∧
      b = Virtual.build o text options := by
  cases action with
  | refresh uri version text options =>
    rw [act] at h
    rcases c.refresh_eq_rebuild_or uri version text options with heq | ⟨hbuild, -⟩
    · rw [heq, build?_rebuild] at h
      split at h
      next ho =>
        cases h
        exact .inr ⟨version, text, options, by rw [ho], by rw [ho]⟩
      next => exact .inl h
    · rw [hbuild] at h
      exact .inl h
  | erase uri =>
    rw [act, build?_erase] at h
    split at h
    · cases h
    · exact .inl h
  | clear => cases h

/-- Every held build was built by some refresh of its component. -/
theorem build?_after_of_refresh {actions : List Action} {o : Uri} {b : Build}
    (h : (after actions).build? o = some b) :
    ∃ version text options, .refresh o version text options ∈ actions ∧ b = Virtual.build o text options := by
  induction actions with
  | nil => cases h
  | cons action past ih =>
    rcases (after past).build?_act action h with hold | ⟨version, text, options, rfl, rfl⟩
    · obtain ⟨version, text, options, hmem, rfl⟩ := ih hold
      exact ⟨version, text, options, List.mem_cons_of_mem _ hmem, rfl⟩
    · exact ⟨version, text, options, List.mem_cons_self, rfl⟩

/-- Every held build is the build of some text for the component that it is held for. -/
theorem build?_after {actions : List Action} {o : Uri} {b : Build} (h : (after actions).build? o = some b) :
    ∃ text options, b = Virtual.build o text options := by
  obtain ⟨-, text, options, -, hbuild⟩ := build?_after_of_refresh h
  exact ⟨text, options, hbuild⟩

/-! ## 3. An owner holds a build with the document -/

/-- An owner holds a build with the document. -/
def Sound : Prop := ∀ u o, c.owner? u = some o → ∃ b, c.build? o = some b ∧ b.owns u = true

variable {c}

theorem Sound.rebuild (h : c.Sound) : (c.rebuild uri version text options).Sound := by
  intro u o howner
  rw [owner?_rebuild] at howner
  split at howner
  next hnew =>
    cases howner
    exact ⟨_, by simp, hnew⟩
  next =>
    split at howner
    · cases howner
    next hold =>
      obtain ⟨b, hb, howns⟩ := h u o howner
      have ho : o ≠ uri := by
        rintro rfl
        exact hold (by simp [hb, howns])
      exact ⟨b, by simp [ho, hb], howns⟩

theorem Sound.erase (h : c.Sound) : (c.erase uri).Sound := by
  intro u o howner
  rw [owner?_erase] at howner
  split at howner
  · cases howner
  next hold =>
    obtain ⟨b, hb, howns⟩ := h u o howner
    have ho : o ≠ uri := by
      rintro rfl
      exact hold (by simp [hb, howns])
    exact ⟨b, by simp [ho, hb], howns⟩

theorem Sound.act (h : c.Sound) (action : Action) : (c.act action).Sound := by
  cases action with
  | refresh uri version text options =>
    rcases c.refresh_eq_rebuild_or uri version text options with heq | ⟨hbuild, howner⟩
    · rw [BuildCache.act, heq]
      exact h.rebuild uri version text options
    · unfold Sound
      rw [BuildCache.act, hbuild, howner]
      exact h
  | erase uri => exact h.erase uri
  | clear =>
    intro u o howner
    cases howner

theorem sound_after (actions : List Action) : (after actions).Sound := by
  induction actions with
  | nil =>
    intro u o howner
    cases howner
  | cons action past ih => exact ih.act action

/-! ## 4. A document belongs to whoever holds it

What happens to one address has nothing to do with any other, so the invariant is that of one address. -/

variable (c) in
/-- No two held components have a document of one address. -/
def Apart : Prop := ∀ o o' b b' u, c.build? o = some b → c.build? o' = some b' →
  b.owns u = true → b'.owns u = true → o = o'

variable (c) in
/-- A document of a held build belongs to its component. -/
def Complete : Prop := ∀ o b u, c.build? o = some b → b.owns u = true → c.owner? u = some o

variable (c) in
/-- At most one held component has a document of the address. -/
def ApartAt (u : Uri) : Prop := ∀ o o' b b', c.build? o = some b → c.build? o' = some b' →
  b.owns u = true → b'.owns u = true → o = o'

variable (c) in
/-- A document that a held build has at the address belongs to its component. -/
def CompleteAt (u : Uri) : Prop := ∀ o b, c.build? o = some b → b.owns u = true → c.owner? u = some o

variable {u : Uri}

/-- An address has one owner. -/
theorem CompleteAt.apart (h : c.CompleteAt u) : c.ApartAt u := by
  intro o o' b b' hb hb' howns howns'
  have howner := h o b hb howns
  rw [h o' b' hb' howns'] at howner
  exact (Option.some.inj howner).symm

/-- A component that has a document at the address does not lose it by what another one gives up. -/
theorem CompleteAt.kept (h : c.CompleteAt u) {o : Uri} {b : Build} (hb : c.build? o = some b)
    (howns : b.owns u = true) (ho : o ≠ uri) : ¬(c.build? uri).any (·.owns u) = true := by
  intro hany
  obtain ⟨old, hold, hu⟩ := (Option.any_eq_true _ _).1 hany
  exact ho (h.apart o uri b old hb hold howns hu)

/-- What the component takes over was its own before, or nobody's. -/
theorem CompleteAt.rebuild (h : c.CompleteAt u) (hapart : (c.rebuild uri version text options).ApartAt u) :
    (c.rebuild uri version text options).CompleteAt u := by
  intro o b hb howns
  rw [owner?_rebuild]
  by_cases ho : o = uri
  · subst ho
    rw [build?_rebuild, if_pos rfl] at hb
    cases hb
    rw [if_pos howns]
  · have hheld : c.build? o = some b := by simpa [ho] using hb
    have hnew : ¬(Virtual.build uri text options).owns u = true := fun hnew =>
      ho (hapart o uri b _ hb (by simp) howns hnew)
    rw [if_neg hnew, if_neg (h.kept uri hheld howns ho)]
    exact h o b hheld howns

theorem CompleteAt.erase (h : c.CompleteAt u) : (c.erase uri).CompleteAt u := by
  intro o b hb howns
  have ho : o ≠ uri := by
    rintro rfl
    simp at hb
  have hheld : c.build? o = some b := by simpa [ho] using hb
  rw [owner?_erase, if_neg (h.kept uri hheld howns ho)]
  exact h o b hheld howns

theorem CompleteAt.act (h : c.CompleteAt u) (action : Action) (hapart : (c.act action).ApartAt u) :
    (c.act action).CompleteAt u := by
  cases action with
  | refresh uri version text options =>
    rw [BuildCache.act] at hapart ⊢
    rcases c.refresh_eq_rebuild_or uri version text options with heq | ⟨hbuild, howner⟩
    · rw [heq] at hapart ⊢
      exact h.rebuild uri version text options hapart
    · unfold CompleteAt
      rw [hbuild, howner]
      exact h
  | erase uri => exact h.erase uri
  | clear =>
    intro o b hb
    cases hb

theorem completeAt_after {actions : List Action}
    (hapart : ∀ past, past <:+ actions → (after past).ApartAt u) : (after actions).CompleteAt u := by
  induction actions with
  | nil =>
    intro o b hb
    cases hb
  | cons action past ih =>
    have hpast : (after past).CompleteAt u :=
      ih fun earlier hearlier => hapart earlier (hearlier.trans (List.suffix_cons action past))
    exact hpast.act action (hapart _ (List.suffix_refl _))

theorem complete_after {actions : List Action}
    (hapart : ∀ past, past <:+ actions → (after past).Apart) : (after actions).Complete :=
  fun o b u => completeAt_after (fun past hpast o o' b b' => hapart past hpast o o' b b' u) o b

/-! ## 5. The generator of a document -/

theorem generator?_eq_some_iff {u : Uri} {h : HeldBuild} :
    c.generator? u = some h ↔ ∃ o, c.owner? u = some o ∧ c.get? o = some h ∧ h.build.owns u = true := by
  simp only [generator?, Option.filter_eq_some_iff, Option.bind_eq_some_iff]
  constructor
  · rintro ⟨⟨o, howner, hget⟩, howns⟩
    exact ⟨o, howner, hget, howns⟩
  · rintro ⟨o, howner, hget, howns⟩
    exact ⟨⟨o, howner, hget⟩, howns⟩

theorem build?_eq_some_iff {o : Uri} {b : Build} :
    c.build? o = some b ↔ ∃ h, c.get? o = some h ∧ h.build = b :=
  Option.map_eq_some_iff

/-- **The index of generated documents.**  After any list of actions the owner of an address holds a build
with a document of that address.  If at no moment two held components have a document of one address, then
an address has a generator exactly when some held build has a document there; the generator is that build,
and the owner is its component. -/
theorem after_generator?_iff (actions : List Action) :
    (∀ u o, (after actions).owner? u = some o →
      ∃ h, (after actions).get? o = some h ∧ h.build.owns u = true) ∧
    ((∀ past, past <:+ actions → (after past).Apart) → ∀ u,
      (∀ h, (after actions).generator? u = some h ↔
        ∃ o, (after actions).get? o = some h ∧ h.build.owns u = true) ∧
      ∀ o h, (after actions).get? o = some h → h.build.owns u = true →
        (after actions).owner? u = some o) := by
  constructor
  · intro u o howner
    obtain ⟨b, hb, howns⟩ := sound_after actions u o howner
    obtain ⟨h, hget, rfl⟩ := build?_eq_some_iff.1 hb
    exact ⟨h, hget, howns⟩
  · intro hapart u
    have howner : ∀ o h, (after actions).get? o = some h → h.build.owns u = true →
        (after actions).owner? u = some o := fun o h hget howns =>
      complete_after hapart o h.build u (build?_eq_some_iff.2 ⟨h, hget, rfl⟩) howns
    refine ⟨fun h => ?_, howner⟩
    rw [generator?_eq_some_iff]
    constructor
    · rintro ⟨o, -, hget, howns⟩
      exact ⟨o, hget, howns⟩
    · rintro ⟨o, hget, howns⟩
      exact ⟨o, howner o h hget howns, hget, howns⟩

/-! ## 6. A run -/

/-- Whether two held components have a document of one address can be looked up. -/
theorem apart_iff : c.Apart ↔ ∀ e ∈ c.held.entries, ∀ e' ∈ c.held.entries,
    ∀ d ∈ e.2.build.documents, e'.2.build.owns d.uri = true → e.1 = e'.1 := by
  have hheld : ∀ o b, c.build? o = some b ↔ ∃ h, (o, h) ∈ c.held.entries ∧ h.build = b := by
    intro o b
    simp only [build?_eq_some_iff, get?, Table.get?_eq_some_iff]
  have howns : ∀ (b : Build) u, b.owns u = true ↔ ∃ d ∈ b.documents, d.uri = u := by
    intro b u
    simp [Build.owns]
  constructor
  · intro h e he e' he' d hd howns'
    exact h e.1 e'.1 e.2.build e'.2.build d.uri ((hheld _ _).2 ⟨e.2, he, rfl⟩)
      ((hheld _ _).2 ⟨e'.2, he', rfl⟩) ((howns _ _).2 ⟨d, hd, rfl⟩) howns'
  · intro h o o' b b' u hb hb' hu hu'
    obtain ⟨held, hmem, rfl⟩ := (hheld _ _).1 hb
    obtain ⟨held', hmem', rfl⟩ := (hheld _ _).1 hb'
    obtain ⟨d, hd, rfl⟩ := (howns _ _).1 hu
    exact h _ hmem _ hmem' d hd hu'

instance : Decidable c.Apart := decidable_of_iff _ apart_iff.symm

/-- Two components get a stylesheet each; then one is changed and has none, and the other is closed and opened
again. -/
def twoStylesheets : List Action :=
  [.refresh ⟨"file:///B.vue"⟩ 1 "<style></style>" {}, .erase ⟨"file:///B.vue"⟩,
    .refresh ⟨"file:///A.vue"⟩ 2 "" {}, .refresh ⟨"file:///B.vue"⟩ 1 "<style></style>" {},
    .refresh ⟨"file:///A.vue"⟩ 1 "<style></style>" {}]

theorem after_generator?_twoStylesheets :
    (∀ h, (after twoStylesheets).generator? ⟨"file:///A.vue.__VLS_style_0.css"⟩ ≠ some h) ∧
    ∃ h, (after twoStylesheets).get? ⟨"file:///B.vue"⟩ = some h ∧
      (after twoStylesheets).generator? ⟨"file:///B.vue.__VLS_style_0.css"⟩ = some h ∧
      (after twoStylesheets).owner? ⟨"file:///B.vue.__VLS_style_0.css"⟩ = some ⟨"file:///B.vue"⟩ := by
  have hapart : ∀ past, past <:+ twoStylesheets → (after past).Apart := by
    intro past hpast
    simp only [twoStylesheets, List.suffix_cons_iff, List.suffix_nil] at hpast
    rcases hpast with rfl | rfl | rfl | rfl | rfl | rfl <;> decide +kernel
  have hindex := (after_generator?_iff twoStylesheets).2 hapart
  constructor
  · intro h hgenerator
    obtain ⟨o, hget, howns⟩ := ((hindex _).1 h).1 hgenerator
    have hnone : ∀ e ∈ (after twoStylesheets).held.entries,
        e.2.build.owns ⟨"file:///A.vue.__VLS_style_0.css"⟩ = false := by decide +kernel
    rw [hnone _ ((Table.get?_eq_some_iff _ _ _).1 hget)] at howns
    cases howns
  · have hheld : ((after twoStylesheets).get? ⟨"file:///B.vue"⟩).any
        (·.build.owns ⟨"file:///B.vue.__VLS_style_0.css"⟩) = true := by decide +kernel
    obtain ⟨h, hget, howns⟩ := (Option.any_eq_true _ _).1 hheld
    obtain ⟨hgenerator, howner⟩ := hindex ⟨"file:///B.vue.__VLS_style_0.css"⟩
    exact ⟨h, hget, (hgenerator h).2 ⟨_, hget, howns⟩, howner _ h hget howns⟩

end ComponentLens.BuildCache
