/-
# Components do not compete for addresses

The owner of a generated document is right as long as no two held components have a document of one address, at
any moment of the run.  The address of a generated document tells which component it was generated for, so this
holds of every run whose files are plain (`apart_after`): however often the files are built, a document
always belongs to the one component that holds it.
-/
import ComponentLens.Proofs.Virtual.Slots
import ComponentLens.Proofs.Workspace.Owners

namespace ComponentLens.BuildCache

open Virtual (BuildOptions Build Document PlainFile Slot)

/-- A plain file is built, or none. -/
def Action.IsPlain : Action → Prop
  | .refresh uri _ text _ => PlainFile uri text
  | .erase _ => True
  | .clear => True

instance : DecidablePred Action.IsPlain
  | .refresh uri _ text _ => inferInstanceAs (Decidable (PlainFile uri text))
  | .erase _ => .isTrue trivial
  | .clear => .isTrue trivial

/-- The run builds plain files only. -/
def PlainRun (actions : List Action) : Prop := ∀ action ∈ actions, action.IsPlain

instance (actions : List Action) : Decidable (PlainRun actions) :=
  inferInstanceAs (Decidable (∀ action ∈ actions, action.IsPlain))

variable {A B : Uri} {text text' : String} {options options' : BuildOptions} {actions : List Action}

/-- Two builds have no address in common, unless they are of one component. -/
theorem eq_of_owns (h : PlainFile A text) (h' : PlainFile B text') {u : Uri}
    (hu : (Virtual.build A text options).owns u = true) (hu' : (Virtual.build B text' options').owns u = true) :
    A = B := by
  have howns : ∀ b : Build, b.owns u = true → ∃ entry ∈ b.slotted, entry.2.uri = u := by
    intro b hb
    rw [Build.owns, b.documents_eq_slotted, List.any_map] at hb
    obtain ⟨entry, hentry, heq⟩ := List.any_eq_true.1 hb
    exact ⟨entry, hentry, beq_iff_eq.1 heq⟩
  obtain ⟨⟨slot, d⟩, hd, huri⟩ := howns _ hu
  obtain ⟨⟨slot', d'⟩, hd', huri'⟩ := howns _ hu'
  exact (Virtual.slotted_injective h h' hd hd' (huri.trans huri'.symm)).1

/-- **Held components are apart** at every moment of a run that builds plain files. -/
theorem apart_after (h : PlainRun actions) : (after actions).Apart := by
  intro o o' b b' u hb hb' hu hu'
  obtain ⟨version, text, options, hmem, rfl⟩ := build?_after_of_refresh hb
  obtain ⟨version', text', options', hmem', rfl⟩ := build?_after_of_refresh hb'
  exact eq_of_owns (h _ hmem) (h _ hmem') hu hu'

/-- **A document belongs to the component that holds it**, and to no other. -/
theorem owner?_after_iff (h : PlainRun actions) (u o : Uri) :
    (after actions).owner? u = some o ↔ ∃ b, (after actions).build? o = some b ∧ b.owns u = true := by
  constructor
  · exact sound_after actions u o
  · rintro ⟨b, hb, hu⟩
    refine complete_after (fun past hpast => apart_after ?_) o b u hb hu
    exact fun action hmem => h action (hpast.subset hmem)

/-- **The addresses of generated documents are distinct.**  Of two builds of plain files, documents have one address
only if they were generated for one component, are of one kind and index, and are in one language.  So a build
finds each of its documents by its address, and nothing else; and in a run that builds plain files no two
held components have an address in common, so that each document belongs to the component that holds it. -/
theorem addresses_distinct (hA : PlainFile A text) (hB : PlainFile B text') (options options' : BuildOptions)
    (hrun : PlainRun actions) :
    (∀ slot slot' d d', (slot, d) ∈ (Virtual.build A text options).slotted →
      (slot', d') ∈ (Virtual.build B text' options').slotted → d.uri = d'.uri →
      A = B ∧ slot = slot' ∧ d.languageId = d'.languageId) ∧
    ((Virtual.build A text options).documents = (Virtual.build A text options).slotted.map (·.2) ∧
      ((Virtual.build A text options).slotted.map (·.1)).Nodup ∧
      ((Virtual.build A text options).documents.map (·.uri)).Nodup) ∧
    (∀ u,
      (∀ d, (Virtual.build A text options).codeDocument? u = some d ↔
        d ∈ (Virtual.build A text options).codeDocuments ∧ d.document.uri = u) ∧
      (∀ d, (Virtual.build A text options).styleDocument? u = some d ↔
        d ∈ (Virtual.build A text options).styleDocuments ∧ d.document.uri = u) ∧
      (∀ d, (Virtual.build A text options).dataDocument? u = some d ↔
        d ∈ (Virtual.build A text options).data ∧ d.document.uri = u)) ∧
    (after actions).Apart ∧
    ∀ u o, (after actions).owner? u = some o ↔ ∃ b, (after actions).build? o = some b ∧ b.owns u = true := by
  refine ⟨?_, ?_, ?_, apart_after hrun, owner?_after_iff hrun⟩
  · intro slot slot' d d' hd hd' heq
    exact Virtual.slotted_injective hA hB hd hd' heq
  · exact ⟨Build.documents_eq_slotted _, Virtual.nodup_slots, Virtual.nodup_uris hA⟩
  · exact fun u => Virtual.lookups hA u

/-- A component with a stylesheet and a block of data. -/
def styledText : String := "<style lang=\"scss\"></style>\n<i18n lang=\"json\">\x7b\x7d</i18n>\n"

/-- The address of the one component is that of the other with the beginning of a suffix. -/
def extendingRun : List Action :=
  [.refresh ⟨"file:///App.vue"⟩ 2 "" {}, .refresh ⟨"file:///App.vue.__VLS_style_0"⟩ 1 styledText {},
    .refresh ⟨"file:///App.vue"⟩ 1 styledText {}]

/-- The theorem at `extendingRun`: all the same, no document of the one has the address of one of the other. -/
theorem addresses_distinct_extending :
    (PlainFile ⟨"file:///App.vue"⟩ styledText ∧ PlainFile ⟨"file:///App.vue.__VLS_style_0"⟩ styledText ∧
      PlainRun extendingRun) ∧
    (∀ slot slot' d d', (slot, d) ∈ (Virtual.build ⟨"file:///App.vue"⟩ styledText {}).slotted →
      (slot', d') ∈ (Virtual.build ⟨"file:///App.vue.__VLS_style_0"⟩ styledText {}).slotted → d.uri ≠ d'.uri) ∧
    (Virtual.build ⟨"file:///App.vue"⟩ styledText {}).slotted.map (fun entry => (entry.1, entry.2.uri)) =
      [(.style 0, ⟨"file:///App.vue.__VLS_style_0.scss"⟩), (.data 0, ⟨"file:///App.vue.0.json"⟩)] ∧
    (after extendingRun).Apart := by
  have hA : PlainFile ⟨"file:///App.vue"⟩ styledText := by decide +kernel
  have hB : PlainFile ⟨"file:///App.vue.__VLS_style_0"⟩ styledText := by decide +kernel
  have hrun : PlainRun extendingRun := by decide +kernel
  obtain ⟨hdistinct, -, -, hapart, -⟩ := addresses_distinct hA hB {} {} hrun
  refine ⟨⟨hA, hB, hrun⟩, ?_, by decide +kernel, hapart⟩
  intro slot slot' d d' hd hd' heq
  exact absurd (hdistinct slot slot' d d' hd hd' heq).1 (by decide)

end ComponentLens.BuildCache
