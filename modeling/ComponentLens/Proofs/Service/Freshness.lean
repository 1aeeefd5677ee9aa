/-
# What a held build stands for

A request has its own file built and leaves every other build as it finds it.  Whether the build it has will do
is decided by the version first and by the digest of the text after that, and a change may give a version
without a new text, or come without any change and leave the version as well.

`Tracked` says what holds throughout a session whose versions rise.  A held build is made from a text that the
history knows (`builtFrom`), with the settings of the moment, and it passes for a version of the file only if
that text and the text of the file have one digest.  `build?_refresh_after` draws the conclusion for the file
that is asked about: its build is the build of its text.
-/
import ComponentLens.Proofs.Workspace.Owners
import ComponentLens.Service.Session

namespace ComponentLens.Service.Session

open Virtual (Build)

variable {σ : Type} {tools : Tools σ} {settings : Settings}

/-! ## 1. The text that a build is made from -/

/-- The text that a file is built from: that of the build it has, where the digests agree, and its own text
otherwise. -/
def buildText (old : Option String) (file : OpenFile) : String :=
  (old.filter fun text => Digest.ofString text = Digest.ofString file.text).getD file.text

theorem buildText_cases (old : Option String) (file : OpenFile) :
    buildText old file = file.text ∨ old = some (buildText old file) := by
  unfold buildText
  cases hold : old.filter fun text => Digest.ofString text = Digest.ofString file.text with
  | none => exact .inl rfl
  | some text => exact .inr (Option.filter_eq_some_iff.1 hold).1

theorem buildText_some {text : String} {file : OpenFile}
    (h : Digest.ofString text = Digest.ofString file.text) : buildText (some text) file = text := by
  simp [buildText, Option.filter, h]

theorem buildText_eq_text {old : Option String} {file : OpenFile}
    (h : ∀ text, old = some text → Digest.ofString text ≠ Digest.ofString file.text) :
    buildText old file = file.text := by
  cases old with
  | none => rfl
  | some text => simp [buildText, Option.filter, h text rfl]

variable (tools settings) in
/-- The text that the held build of a file is made from: the text that the file had when a request last found
it with another digest. Closing the file and new settings let go of the build. -/
def builtFrom (uri : Uri) : List (Event σ) → Option String
  | [] => none
  | .opened _ :: past | .changed _ _ _ :: past => builtFrom uri past
  | .closed u :: past => if u = uri then none else builtFrom uri past
  | .configured _ :: _ => none
  | .asked request _ :: past =>
    if request.subject? tools = some uri then
      match (after tools settings past).component? uri with
      | none => builtFrom uri past
      | some file => some (buildText (builtFrom uri past) file)
    else builtFrom uri past

theorem mem_texts_of_get? {history : List (Event σ)} {uri : Uri} {file : OpenFile}
    (h : (after tools settings history).files.get? uri = some file) :
    file.text ∈ texts tools settings history := by
  cases history with
  | nil => cases h
  | cons event past =>
    have hentry := (Table.get?_eq_some_iff _ _ _).1 h
    refine List.mem_append_left _ (List.mem_map.2 ⟨file, ?_, rfl⟩)
    exact List.mem_map.2 ⟨_, hentry, rfl⟩

theorem get?_of_component? {w : Workspace} {uri : Uri} {file : OpenFile}
    (h : w.component? uri = some file) : w.files.get? uri = some file :=
  (Option.filter_eq_some_iff.1 h).1

/-- Builds are made from texts that files have had. -/
theorem mem_texts_of_builtFrom {history : List (Event σ)} {uri : Uri} {text : String}
    (h : builtFrom tools settings uri history = some text) : text ∈ texts tools settings history := by
  induction history with
  | nil => cases h
  | cons event past ih =>
    have older : builtFrom tools settings uri past = some text →
        text ∈ texts tools settings (event :: past) := fun h => List.mem_append_right _ (ih h)
    cases event with
    | opened file => exact older h
    | changed u version changes => exact older h
    | closed u =>
      rw [builtFrom] at h
      split at h
      · cases h
      · exact older h
    | configured settings => cases h
    | asked request state =>
      rw [builtFrom] at h
      split at h
      next =>
        split at h
        next => exact older h
        next file hfile =>
          rcases buildText_cases (builtFrom tools settings uri past) file with hnew | hold
          · rw [hnew] at h
            cases h
            exact List.mem_append_right _ (mem_texts_of_get? (get?_of_component? hfile))
          · exact older (hold.trans h)
      next => exact older h

/-! ## 2. The invariant -/

/-- The held build stands for the file at its address, or for an earlier version of it. -/
structure StandsFor (w : Workspace) (uri : Uri) (h : HeldBuild) (file : OpenFile) : Prop where
  build : h.build = Virtual.build uri h.build.text w.settings.buildOptions
  digest : h.digest = Digest.ofString h.build.text
  version_le : h.version ≤ file.version
  current : h.version = file.version → Digest.ofString h.build.text = Digest.ofString file.text

variable (tools settings) in
/-- What holds after a history whose versions rise. -/
structure Tracked (history : List (Event σ)) : Prop where
  version_le : ∀ uri file, (after tools settings history).files.get? uri = some file →
    ∃ v, latestVersion? uri history = some v ∧ file.version ≤ v
  held : ∀ uri h, (after tools settings history).builds.get? uri = some h →
    ∃ file, (after tools settings history).files.get? uri = some file ∧
      StandsFor (after tools settings history) uri h file
  text : ∀ uri, ((after tools settings history).builds.build? uri).map (·.text) =
    builtFrom tools settings uri history

theorem Tracked.standsFor {history : List (Event σ)} (h : Tracked tools settings history) {uri : Uri}
    {file : OpenFile} (hopen : (after tools settings history).files.get? uri = some file)
    {held : HeldBuild} (hget : (after tools settings history).builds.get? uri = some held) :
    StandsFor (after tools settings history) uri held file := by
  obtain ⟨f, hf, hstands⟩ := h.held uri held hget
  rw [hopen] at hf
  cases hf
  exact hstands

/-! ## 3. Files and settings -/

variable {past : List (Event σ)}

/-- Under a version above its own, a file has at most a build of an earlier version. -/
theorem StandsFor.newer {w w' : Workspace} {uri : Uri} {h : HeldBuild} {file newer : OpenFile}
    (hstands : StandsFor w uri h file) (hsettings : w'.settings = w.settings)
    (hlt : file.version < newer.version) : StandsFor w' uri h newer where
  build := by
    rw [hsettings]
    exact hstands.build
  digest := hstands.digest
  version_le := Int.le_of_lt (Int.lt_of_le_of_lt hstands.version_le hlt)
  current heq := absurd heq (Int.ne_of_lt (Int.lt_of_le_of_lt hstands.version_le hlt))

theorem StandsFor.of_settings_eq {w w' : Workspace} {uri : Uri} {h : HeldBuild} {file : OpenFile}
    (hstands : StandsFor w uri h file) (hsettings : w'.settings = w.settings) :
    StandsFor w' uri h file where
  build := by
    rw [hsettings]
    exact hstands.build
  digest := hstands.digest
  version_le := hstands.version_le
  current := hstands.current

theorem Tracked.opened (h : Tracked tools settings past) {file : OpenFile}
    (hrising : ∀ v ∈ latestVersion? file.uri past, v < file.version) :
    Tracked tools settings (.opened file :: past) where
  version_le uri f hfile := by
    simp only [after, step, Workspace.openFile, OpenFiles.get?_insert] at hfile
    by_cases huri : uri = file.uri
    · rw [if_pos huri] at hfile
      cases hfile
      exact ⟨file.version, by simp [latestVersion?, huri], Int.le_refl _⟩
    · rw [if_neg huri] at hfile
      have hne : ¬file.uri = uri := fun e => huri e.symm
      simpa [latestVersion?, hne] using h.version_le uri f hfile
  held uri held hget := by
    obtain ⟨f, hfile, hstands⟩ := h.held uri held hget
    simp only [after, step, Workspace.openFile, OpenFiles.get?_insert]
    by_cases huri : uri = file.uri
    · obtain ⟨v, hv, hle⟩ := h.version_le uri f hfile
      have hlt : f.version < file.version := Int.lt_of_le_of_lt hle (hrising v (huri ▸ hv))
      rw [if_pos huri]
      exact ⟨file, rfl, hstands.newer rfl hlt⟩
    · rw [if_neg huri]
      exact ⟨f, hfile, hstands.of_settings_eq rfl⟩
  text := h.text

/-- A change gives its version, or there is no change at all. -/
theorem change_cases (file : OpenFile) (version : Int) (changes : List TextChange) :
    file.change version changes = file ∨ (file.change version changes).version = version := by
  have hfold : ∀ (changes : List TextChange) (f : OpenFile), f.version = version →
      (f.change version changes).version = version := by
    intro changes
    induction changes with
    | nil => exact fun f hf => hf
    | cons c rest ih => exact fun f _ => ih _ rfl
  cases changes with
  | nil => exact .inl rfl
  | cons c rest => exact .inr (hfold rest _ rfl)

theorem step_changed (tools : Tools σ) (w : Workspace) (uri : Uri) (version : Int)
    (changes : List TextChange) :
    (w.files.get? uri = none ∧ step tools w (.changed uri version changes) = w) ∨
    ∃ file, w.files.get? uri = some file ∧ step tools w (.changed uri version changes) =
      { w with files := ⟨w.files.table.insert uri (file.change version changes)⟩ } := by
  simp only [step, Workspace.change, OpenFiles.change?]
  cases w.files.get? uri with
  | none => exact .inl ⟨rfl, rfl⟩
  | some file => exact .inr ⟨file, rfl, rfl⟩

theorem Tracked.changed (h : Tracked tools settings past) {uri : Uri} {version : Int}
    {changes : List TextChange} (hrising : ∀ v ∈ latestVersion? uri past, v < version) :
    Tracked tools settings (.changed uri version changes :: past) := by
  rcases step_changed tools (after tools settings past) uri version changes with
    ⟨hclosed, heq⟩ | ⟨file, hfile, heq⟩
  · refine ⟨fun u f hf => ?_, ?_, ?_⟩
    · rw [after, heq] at hf
      have hne : ¬uri = u := by
        rintro rfl
        rw [hclosed] at hf
        cases hf
      simpa [latestVersion?, hne] using h.version_le u f hf
    · rw [after, heq]
      exact h.held
    · rw [after, heq]
      exact h.text
  · obtain ⟨latest, hlatest, hle⟩ := h.version_le uri file hfile
    have hlt : file.version < version := Int.lt_of_le_of_lt hle (hrising latest hlatest)
    have hget : ∀ u, OpenFiles.get? ⟨(after tools settings past).files.table.insert uri
        (file.change version changes)⟩ u = if u = uri then some (file.change version changes)
          else (after tools settings past).files.get? u := fun u => Table.get?_insert _ _ _ _
    refine ⟨fun u f hf => ?_, fun u held hheld => ?_, ?_⟩
    · rw [after, heq] at hf
      simp only [hget] at hf
      by_cases hu : u = uri
      · subst hu
        rw [if_pos rfl] at hf
        cases hf
        refine ⟨version, by simp [latestVersion?, hlatest], ?_⟩
        rcases change_cases file version changes with hsame | hversion
        · rw [hsame]
          exact Int.le_of_lt hlt
        · exact Int.le_of_eq hversion
      · rw [if_neg hu] at hf
        have hne : ¬uri = u := fun e => hu e.symm
        simpa [latestVersion?, hne] using h.version_le u f hf
    · rw [after, heq] at hheld ⊢
      obtain ⟨f, hf, hstands⟩ := h.held u held hheld
      simp only [hget]
      by_cases hu : u = uri
      · subst hu
        rw [hfile] at hf
        cases hf
        rw [if_pos rfl]
        refine ⟨_, rfl, ?_⟩
        rcases change_cases file version changes with hsame | hversion
        · rw [hsame]
          exact hstands.of_settings_eq rfl
        · exact hstands.newer rfl (hversion.symm ▸ hlt)
      · rw [if_neg hu]
        exact ⟨f, hf, hstands.of_settings_eq rfl⟩
    · rw [after, heq]
      exact h.text

theorem Tracked.closed (h : Tracked tools settings past) (uri : Uri) :
    Tracked tools settings (.closed uri :: past) where
  version_le u f hfile := by
    simp only [after, step, Workspace.close, OpenFiles.get?_erase] at hfile
    by_cases hu : u = uri
    · rw [if_pos hu] at hfile
      cases hfile
    · rw [if_neg hu] at hfile
      have hne : ¬uri = u := fun e => hu e.symm
      simpa [latestVersion?, hne] using h.version_le u f hfile
  held u held hheld := by
    simp only [after, step, Workspace.close, BuildCache.get?_erase, OpenFiles.get?_erase] at hheld ⊢
    by_cases hu : u = uri
    · rw [if_pos hu] at hheld
      cases hheld
    · rw [if_neg hu] at hheld
      obtain ⟨f, hf, hstands⟩ := h.held u held hheld
      rw [if_neg hu]
      exact ⟨f, hf, hstands.of_settings_eq rfl⟩
  text u := by
    simp only [after, step, Workspace.close, BuildCache.build?_erase, builtFrom]
    by_cases hu : u = uri
    · simp [hu]
    · have hne : ¬uri = u := fun e => hu e.symm
      rw [if_neg hu, if_neg hne]
      exact h.text u

theorem Tracked.configured (h : Tracked tools settings past) (new : Settings) :
    Tracked tools settings (.configured new :: past) where
  version_le := h.version_le
  held u held hheld := by cases hheld
  text u := rfl

/-! ## 4. Requests -/

theorem builds_refresh {w : Workspace} {uri : Uri} {file : OpenFile} (h : w.component? uri = some file) :
    (w.refresh uri).builds =
      w.builds.refresh uri file.version file.text w.settings.buildOptions := by
  simp only [Workspace.refresh, h]

theorem refresh_of_component?_eq_none {w : Workspace} {uri : Uri} (h : w.component? uri = none) :
    w.refresh uri = w := by
  simp only [Workspace.refresh, h]

theorem component?_refresh (w : Workspace) (uri other : Uri) :
    (w.refresh uri).component? other = w.component? other := by
  rw [Workspace.component?, Workspace.files_refresh, Workspace.component?]

/-- After a refresh an open component has a build for its version. -/
theorem refresh_standsFor {w : Workspace} {uri : Uri} {file : OpenFile}
    (hfile : w.component? uri = some file)
    (hheld : ∀ h, w.builds.get? uri = some h → StandsFor w uri h file) :
    ∃ h, (w.refresh uri).builds.get? uri = some h ∧ StandsFor w uri h file ∧
      h.version = file.version ∧
      h.build.text = buildText ((w.builds.build? uri).map (·.text)) file := by
  rw [builds_refresh hfile]
  rcases w.builds.refresh_cases uri file.version file.text w.settings.buildOptions with
    ⟨h, hget, hversion, heq⟩ | ⟨h, hget, -, hdigest, heq⟩ | ⟨hother, heq⟩
  · have hstands := hheld h hget
    refine ⟨h, ?_, hstands, hversion, ?_⟩
    · rw [heq]
      exact hget
    · rw [BuildCache.build?, hget]
      exact (buildText_some (hstands.current hversion)).symm
  · have hstands := hheld h hget
    have hsame : Digest.ofString h.build.text = Digest.ofString file.text := by
      rw [← hstands.digest, hdigest]
    refine ⟨{ h with version := file.version }, ?_, ?_, rfl, ?_⟩
    · rw [heq]
      exact Table.get?_insert_self _ _ _
    · exact ⟨hstands.build, hstands.digest, Int.le_refl _, fun _ => hsame⟩
    · rw [BuildCache.build?, hget]
      exact (buildText_some hsame).symm
  · refine ⟨⟨file.version, Digest.ofString file.text, Virtual.build uri file.text w.settings.buildOptions,
      w.builds.made⟩, ?_, ?_, rfl, ?_⟩
    · rw [heq, BuildCache.get?_rebuild, if_pos rfl]
    · exact ⟨rfl, rfl, Int.le_refl _, fun _ => rfl⟩
    · refine (buildText_eq_text fun text htext => ?_).symm
      obtain ⟨b, hb, rfl⟩ := Option.map_eq_some_iff.1 htext
      obtain ⟨h, hget, rfl⟩ := BuildCache.build?_eq_some_iff.1 hb
      rw [← (hheld h hget).digest]
      exact hother h hget

theorem get?_builds_refresh_of_ne (w : Workspace) {uri other : Uri} (h : other ≠ uri) :
    (w.refresh uri).builds.get? other = w.builds.get? other := by
  cases hfile : w.component? uri with
  | none => rw [refresh_of_component?_eq_none hfile]
  | some file =>
    rw [builds_refresh hfile]
    exact BuildCache.get?_refresh_of_ne _ _ _ _ _ h

/-- The workspace and the texts stay as they are where no component is built. -/
theorem Tracked.of_after_eq (h : Tracked tools settings past) {event : Event σ}
    (hafter : after tools settings (event :: past) = after tools settings past)
    (hversion : ∀ uri, latestVersion? uri (event :: past) = latestVersion? uri past)
    (htext : ∀ uri, builtFrom tools settings uri (event :: past) = builtFrom tools settings uri past) :
    Tracked tools settings (event :: past) where
  version_le uri := by
    rw [hafter, hversion]
    exact h.version_le uri
  held uri := by
    rw [hafter]
    exact h.held uri
  text uri := by
    rw [hafter, htext]
    exact h.text uri

theorem Tracked.asked (h : Tracked tools settings past) (request : Request) (state : σ) :
    Tracked tools settings (.asked request state :: past) := by
  have hafter : after tools settings (.asked request state :: past) =
      ((request.subject? tools).map (after tools settings past).refresh).getD
        (after tools settings past) := request.leaves_eq tools _ state
  cases hsubject : request.subject? tools with
  | none =>
    rw [hsubject] at hafter
    refine h.of_after_eq hafter (fun _ => rfl) fun uri => ?_
    simp [builtFrom, hsubject]
  | some subject =>
    rw [hsubject] at hafter
    cases hfile : (after tools settings past).component? subject with
    | none =>
      refine h.of_after_eq (hafter.trans (refresh_of_component?_eq_none hfile)) (fun _ => rfl)
        fun uri => ?_
      rw [builtFrom]
      split
      next huri =>
        rw [hsubject] at huri
        cases huri
        rw [hfile]
      next => rfl
    | some file =>
      have hopen := get?_of_component? hfile
      obtain ⟨new, hnew, hstands, -, htext⟩ :=
        refresh_standsFor hfile fun held hget => h.standsFor hopen hget
      have hsettings := Workspace.settings_refresh (after tools settings past) subject
      refine ⟨fun uri f hf => ?_, fun uri held hget => ?_, fun uri => ?_⟩
      · rw [hafter, Option.map_some, Option.getD_some, Workspace.files_refresh] at hf
        exact h.version_le uri f hf
      · rw [hafter, Option.map_some, Option.getD_some] at hget ⊢
        rw [Workspace.files_refresh]
        by_cases huri : uri = subject
        · subst huri
          rw [hnew] at hget
          cases hget
          exact ⟨file, hopen, hstands.of_settings_eq hsettings⟩
        · rw [get?_builds_refresh_of_ne _ huri] at hget
          obtain ⟨f, hf, hold⟩ := h.held uri held hget
          exact ⟨f, hf, hold.of_settings_eq hsettings⟩
      · rw [hafter, Option.map_some, Option.getD_some, BuildCache.build?, builtFrom]
        by_cases huri : uri = subject
        · subst huri
          rw [hnew, if_pos hsubject, hfile, ← h.text uri]
          exact congrArg some htext
        · have hne : ¬request.subject? tools = some uri := by
            rw [hsubject]
            exact fun e => huri (Option.some.inj e).symm
          rw [get?_builds_refresh_of_ne _ huri, if_neg hne]
          exact h.text uri

/-! ## 5. Whole sessions -/

variable (tools settings) in
theorem tracked (history : List (Event σ)) (hrising : Rising history) :
    Tracked tools settings history := by
  induction history with
  | nil =>
    refine ⟨fun uri f hf => ?_, fun uri h hget => ?_, fun uri => rfl⟩
    · cases hf
    · cases hget
  | cons event past ih =>
    cases event with
    | opened file => exact (ih hrising.2).opened hrising.1
    | changed uri version changes => exact (ih hrising.2).changed hrising.1
    | closed uri => exact (ih hrising).closed uri
    | configured new => exact (ih hrising).configured new
    | asked request state => exact (ih hrising).asked request state

/-- **A build that is asked for is fresh.**  After any history in which the versions of an open file rise, and
in which no two texts have one digest, a request about a file finds no build if the file is not open or no
component, and otherwise the build of its text with the settings of the moment. -/
theorem build?_refresh_after (tools : Tools σ) (settings : Settings) (history : List (Event σ))
    (hrising : Rising history)
    (hdigest : ∀ s ∈ texts tools settings history, ∀ t ∈ texts tools settings history,
      Digest.ofString s = Digest.ofString t → s = t) (uri : Uri) :
    ((after tools settings history).refresh uri).build? uri =
      ((after tools settings history).component? uri).map fun file =>
        Virtual.build uri file.text (after tools settings history).settings.buildOptions := by
  have htracked := tracked tools settings history hrising
  cases hfile : (after tools settings history).component? uri with
  | none =>
    rw [refresh_of_component?_eq_none hfile, Workspace.build?, hfile]
    rfl
  | some file =>
    have hopen := get?_of_component? hfile
    obtain ⟨h, hget, hstands, hversion, hsource⟩ :=
      refresh_standsFor hfile fun held hget => htracked.standsFor hopen hget
    rw [htracked.text uri] at hsource
    have hknown : h.build.text ∈ texts tools settings history := by
      rw [hsource]
      rcases buildText_cases (builtFrom tools settings uri history) file with hnew | hold
      · rw [hnew]
        exact mem_texts_of_get? hopen
      · exact mem_texts_of_builtFrom hold
    have htext : h.build.text = file.text :=
      hdigest _ hknown _ (mem_texts_of_get? hopen) (hstands.current hversion)
    rw [Workspace.build?, component?_refresh, hfile, Option.bind_some, BuildCache.build?, hget,
      Option.map_some, Option.map_some, hstands.build, htext]

/-- A backend that knows nothing. -/
def silentBackend : Backend Unit where
  isCancelled := pure false
  find _ _ _ := pure (.ok [])
  rename _ _ _ := pure (.ok ∅)
  diagnostics _ _ := pure (.ok [])
  completionDetails _ _ _ := pure (.ok none)
  text? _ := pure none

/-- A component is built, emptied, changed without a change, and built once more. -/
def emptied : List (Event Unit) :=
  [.asked (.diagnostics ⟨"file:///A.vue"⟩) (), .changed ⟨"file:///A.vue"⟩ 3 [],
    .changed ⟨"file:///A.vue"⟩ 2 [⟨none, ""⟩], .asked (.build ⟨"file:///A.vue"⟩) (),
    .opened ⟨⟨"file:///A.vue"⟩, 1, "vue", "<style></style>"⟩]

theorem build?_refresh_after_emptied :
    ((after ⟨silentBackend, none, none⟩ {} emptied).refresh ⟨"file:///A.vue"⟩).build? ⟨"file:///A.vue"⟩ =
      some (Virtual.build ⟨"file:///A.vue"⟩ "" {}) := by
  have hrising : Rising emptied := by
    simp [emptied, Rising, latestVersion?]
  have hdigest : ∀ s ∈ texts ⟨silentBackend, none, none⟩ {} emptied,
      ∀ t ∈ texts ⟨silentBackend, none, none⟩ {} emptied,
        Digest.ofString s = Digest.ofString t → s = t := by decide +kernel
  have hcomponent : (after ⟨silentBackend, none, none⟩ {} emptied).component? ⟨"file:///A.vue"⟩ =
      some ⟨⟨"file:///A.vue"⟩, 2, "vue", ""⟩ := by decide +kernel
  have hoptions : (after ⟨silentBackend, none, none⟩ {} emptied).settings.buildOptions = {} := by
    decide +kernel
  rw [build?_refresh_after _ _ _ hrising hdigest, hcomponent, Option.map_some, hoptions]

end ComponentLens.Service.Session
