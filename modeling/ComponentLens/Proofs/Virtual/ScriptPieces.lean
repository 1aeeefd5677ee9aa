/-
# The pieces of the script document

The program that a setup block becomes is put together from few kinds of pieces: text that stands for nothing,
copies of parts of the block or of its blanked body, and names that only point at a place.  Links and marks
are laid over pieces and leave their text and mappings as they are.

`PiecesJoined` says that a property holds of every such piece, as far as it leads to a span that is allowed,
and of whatever is put together from pieces that have it.  Between the labels and the imports the program leads
to spans that start at the end of one fact and stop at the start of another, so there the spans allowed are
those that cut no character: `SetupJoined.setupProgram` gives a property for the program, whatever the facts
about the block, as soon as it holds of the expanded labels and of the entries returned.  Nothing is said of the
order of the two ends of a span: between nested labels there are inverted ones.

A property that pays no heed to links and marks (`PiecesClosed`) holds of these too.
-/
import ComponentLens.Proofs.Mapping.Closed
import ComponentLens.Proofs.Script.Places
import ComponentLens.Virtual.ScriptDocument

namespace ComponentLens.Virtual

open Script

/-- Joining keeps the property, and it holds of the pieces of a setup block that lead to spans that are allowed.
`body` is the text that the function is copied from. -/
structure PiecesJoined (allowed : Span → Prop) (content body : String) (Q : LinkedText → Prop) : Prop
    extends LinkedText.Joined Q where
  /-- What is no copy serves no renames. -/
  side : ∀ (code : String) (s : Span) (mode : MatchMode) (data : CodeData), data.region = .scriptSetup →
    data.capabilities.has .rename = false → allowed s → Q (.mapped code s mode data)
  copy : ∀ (s : Span) (capabilities : Capabilities), allowed s → Q (copyOf content s capabilities)
  bodyCopy : ∀ (s : Span) (capabilities : Capabilities), allowed s → Q (copyOf body s capabilities)

/-- The property holds of the pieces, whatever links and marks there are. -/
structure PiecesClosed (allowed : Span → Prop) (content body : String) (Q : LinkedText → Prop) : Prop
    extends LinkedText.Closed Q, PiecesJoined allowed content body Q

/-- The property holds of the pieces of a setup block that cut no character of it. -/
abbrev SetupJoined (content body : String) (Q : LinkedText → Prop) : Prop :=
  PiecesJoined (·.EndsAt (IsBoundary content.toList)) content body Q

/-- The property holds of the pieces of a setup block that cut no character of it, whatever links and marks there
are. -/
abbrev SetupClosed (content body : String) (Q : LinkedText → Prop) : Prop :=
  PiecesClosed (·.EndsAt (IsBoundary content.toList)) content body Q

/-! ## 1. The spans of facts -/

theorem mem_sortedImports {facts : SetupFacts} {s : Span} :
    s ∈ sortedImports facts ↔ s ∈ facts.imports := by
  simp [sortedImports]

theorem var_mem_spans {b : LabelBinding} {v : LabelVar} (h : v ∈ b.vars) : v.span ∈ b.spans := by
  simp only [LabelBinding.spans, List.mem_cons, List.mem_append, List.mem_map]
  exact .inr (.inr (.inr ⟨v, h, rfl⟩))

theorem binding_mem_spans {label : RefLabel} {b : LabelBinding} (h : b ∈ label.bindings) {s : Span}
    (hs : s ∈ b.spans) : s ∈ label.spans := by
  simp only [RefLabel.spans, List.mem_cons, List.mem_flatMap]
  exact .inr (.inr ⟨b, h, hs⟩)

theorem label_mem_spans {facts : SetupFacts} {label : RefLabel} (h : label ∈ facts.labels) {s : Span}
    (hs : s ∈ label.spans) : s ∈ facts.spans := by
  simp only [SetupFacts.spans, List.mem_append, List.mem_flatMap]
  exact .inl (.inl (.inr ⟨label, h, hs⟩))

theorem rootVar_mem_spans {facts : SetupFacts} {v : LabelVar} (h : v ∈ rootVars facts) :
    v.span ∈ facts.spans := by
  obtain ⟨label, hlabel, hv⟩ := List.mem_flatMap.1 h
  obtain ⟨b, hb, hv⟩ := List.mem_flatMap.1 hv
  have hspan := var_mem_spans (List.mem_filter.1 hv).1
  exact label_mem_spans hlabel (binding_mem_spans hb hspan)

/-- The spans of the declaring calls, as the generator looks them up. -/
theorem endsAt_of_define {P : Nat → Prop} {facts : SetupFacts} (h : ∀ s ∈ facts.spans, s.EndsAt P)
    {call : Option DefineCall} (hcall : call = facts.defineProps ∨ call = facts.defineEmit) {s : Span}
    (hs : call.bind (·.args) = some s ∨ call.bind (·.typeArgs) = some s) : s.EndsAt P := by
  have hmem : ∃ c, call = some c ∧ s ∈ c.spans := by
    rcases hs with hs | hs
    · obtain ⟨c, hc, hs⟩ := Option.bind_eq_some_iff.1 hs
      exact ⟨c, hc, by simp [DefineCall.spans, hs]⟩
    · obtain ⟨c, hc, hs⟩ := Option.bind_eq_some_iff.1 hs
      exact ⟨c, hc, by simp [DefineCall.spans, hs]⟩
  obtain ⟨c, rfl, hc⟩ := hmem
  refine h s ?_
  simp only [SetupFacts.spans, List.mem_append, List.mem_flatMap, Option.mem_toList]
  rcases hcall with hcall | hcall
  · exact .inl (.inr ⟨c, hcall.symm, hc⟩)
  · exact .inr ⟨c, hcall.symm, hc⟩

/-- The places of labelled bindings are allowed. -/
def BindingsIn (allowed : Span → Prop) (bindings : List LabelBinding) : Prop :=
  ∀ b ∈ bindings, ∀ s ∈ b.spans, allowed s

/-- The text ends at the end of its last character. -/
theorem isBoundary_utf8ByteSize (text : String) : IsBoundary text.toList text.utf8ByteSize := by
  rw [← byteLength_toList]
  exact ⟨text.toList, [], by simp, rfl⟩

namespace PiecesJoined

variable {allowed : Span → Prop} {content body : String} {Q : LinkedText → Prop}
variable (hQ : PiecesJoined allowed content body Q)
include hQ

/-! ## 2. Labels -/

/-- Code that serves no renames. -/
theorem setupCode (code : String) {s : Span} (capabilities : Capabilities)
    (h : capabilities.has .rename = false) (hs : allowed s) :
    Q (setupCode code s capabilities) := hQ.side code s .offset _ rfl h hs

theorem handlePattern {stop pos : Nat} {vars : List LabelVar} (h : ∀ v ∈ vars, allowed v.span) :
    ∀ t ∈ handlePattern content stop pos vars, Q t := by
  induction vars generalizing pos with
  | nil =>
    intro t ht
    obtain rfl := List.mem_singleton.1 ht
    exact hQ.plain _
  | cons v vars ih =>
    have hv := h v (by simp)
    intro t ht
    rw [Virtual.handlePattern] at ht
    simp only [List.mem_cons, List.mem_append, List.cons_append, List.not_mem_nil, or_false] at ht
    rcases ht with rfl | (ht | rfl) | ht
    · exact hQ.plain _
    · split at ht
      · rcases List.mem_cons.1 ht with rfl | ht
        · exact hQ.setupCode _ _ (by decide) hv
        · obtain rfl := List.mem_singleton.1 ht
          exact hQ.plain _
      · cases ht
    · exact hQ.side _ _ _ _ rfl (by decide) hv
    · exact ih (fun w hw => h w (by simp [hw])) t ht

theorem labelHandles {bindings : List LabelBinding} (h : BindingsIn allowed bindings) :
    Q (labelHandles content body bindings) := by
  refine hQ.concat _ ?_
  intro t ht
  simp only [List.mem_append, List.mem_cons, List.mem_flatMap, List.not_mem_nil, or_false] at ht
  rcases ht with ⟨⟨b, index⟩, hb, rfl | ht | ht⟩ | rfl
  · exact hQ.plain _
  · have hb := h b (List.fst_mem_of_mem_zipIdx hb)
    refine hQ.handlePattern (fun v hv => ?_) t ht
    have hv : v ∈ b.vars := List.mem_mergeSort.1 hv
    exact hb v.span (var_mem_spans hv)
  · split at ht
    next right hright =>
      have hright : b.right = some right := hright
      have hb := h b (List.fst_mem_of_mem_zipIdx hb) right (by simp [LabelBinding.spans, hright])
      simp only [List.mem_cons, List.not_mem_nil, or_false] at ht
      rcases ht with rfl | rfl
      · exact hQ.plain _
      · exact hQ.bodyCopy right _ hb
    · cases ht
  · exact hQ.plain _

theorem labelHandle (right : Option Span) (v : LabelVar) : (∀ s ∈ right, allowed s) →
    Q (match right with
      | some right => Virtual.setupCode (handleName v) right .none
      | none => .plain (handleName v)) := by
  intro h
  cases right with
  | none => exact hQ.plain _
  | some s => exact hQ.setupCode _ _ (by decide) (h s rfl)

end PiecesJoined

namespace PiecesClosed

variable {allowed : Span → Prop} {content body : String} {Q : LinkedText → Prop}
variable (hQ : PiecesClosed allowed content body Q)
include hQ

theorem labelScope {bindings : List LabelBinding} (h : BindingsIn allowed bindings) :
    Q (labelScope content bindings) := by
  refine hQ.concat _ ?_
  intro t ht
  simp only [List.mem_append, List.mem_cons, List.mem_flatMap, List.not_mem_nil, or_false] at ht
  rcases ht with (rfl | ⟨⟨b, index⟩, hb, rfl | rfl | rfl⟩) | rfl
  · exact hQ.plain _
  · exact hQ.plain _
  · have hleft := h b (List.fst_mem_of_mem_zipIdx hb) b.left (by simp [LabelBinding.spans])
    exact hQ.relabel (hQ.copy b.left _ hleft) rfl
  · exact hQ.plain _
  · exact hQ.plain _

theorem labelVariable {right : Option Span} {v : LabelVar}
    (hright : ∀ s ∈ right, allowed s) (hv : allowed v.span) : Q (labelVariable right v) := by
  have hhandle := hQ.toPiecesJoined.labelHandle right v hright
  have hdollar := hQ.side ("$" ++ v.name) v.span .offset
    { region := .scriptSetup, capabilities := .basic ||| .diagnostic, beforeRename := some .stripDollar }
    rfl (by decide) hv
  refine hQ.concat _ ?_
  intro t ht
  simp only [List.mem_cons, List.not_mem_nil, or_false] at ht
  rcases ht with rfl | rfl | rfl | rfl | rfl | rfl | rfl | rfl | rfl | rfl
  · exact hQ.plain _
  · exact hQ.mark (hQ.toPiecesJoined.setupCode v.name _ (by decide) hv)
  · exact hQ.plain _
  · exact hhandle
  · exact hQ.plain _
  · exact hQ.plain _
  · exact hQ.mark hdollar
  · exact hQ.plain _
  · exact hhandle
  · exact hQ.plain _

/-- A labelled statement, expanded. -/
theorem expandLabel {label : RefLabel} (h : BindingsIn allowed label.bindings) :
    Q (expandLabel content body label) := by
  refine hQ.relabel (hQ.concat _ ?_) rfl
  intro t ht
  simp only [List.mem_append, List.mem_cons, List.mem_flatMap, List.mem_map, List.not_mem_nil,
    or_false] at ht
  rcases ht with (rfl | rfl) | ⟨b, hb, v, hv, rfl⟩
  · exact hQ.labelScope h
  · exact hQ.toPiecesJoined.labelHandles h
  · refine hQ.labelVariable (fun s hs => h b hb s ?_) (h b hb v.span (var_mem_spans hv))
    simp [LabelBinding.spans, Option.mem_def.1 hs]

theorem returnEntry (name separator : String) {span : Span}
    (h : allowed span) : Q (returnEntry name span separator) := by
  have hside := hQ.mark (hQ.toPiecesJoined.setupCode name .none (by decide) h)
  refine hQ.relabel (hQ.concat _ ?_) rfl
  intro t ht
  simp only [List.mem_cons, List.not_mem_nil, or_false] at ht
  rcases ht with rfl | rfl | rfl | rfl
  · exact hside
  · exact hQ.plain _
  · exact hside
  · exact hQ.plain _

end PiecesClosed

namespace SetupJoined

variable {content body : String} {Q : LinkedText → Prop} (hQ : SetupJoined content body Q)
include hQ

/-! ## 3. Imports -/

theorem headerFrom {pos : Nat} (hpos : IsBoundary content.toList pos) {spans : List Span}
    (h : ∀ s ∈ spans, s.EndsAt (IsBoundary content.toList)) : ∀ t ∈ headerFrom content pos spans, Q t := by
  induction spans generalizing pos with
  | nil =>
    intro t ht
    obtain rfl := List.mem_singleton.1 ht
    exact hQ.setupCode _ _ (by decide) ⟨hpos, isBoundary_utf8ByteSize content⟩
  | cons span rest ih =>
    have hspan := h span (by simp)
    have hrest : ∀ s ∈ rest, s.EndsAt (IsBoundary content.toList) := fun s hs => h s (by simp [hs])
    rw [Virtual.headerFrom]
    split
    · exact ih hpos hrest
    · intro t ht
      rcases List.mem_cons.1 ht with rfl | ht
      · exact hQ.setupCode _ _ (by decide) ⟨hpos, hspan.1⟩
      rcases List.mem_cons.1 ht with rfl | ht
      · exact hQ.copy span _ hspan
      · exact ih hspan.2 hrest t ht

/-! ## 4. The program -/

theorem bodyFrom (hbody : IsBoundary content.toList body.utf8ByteSize) {pos : Nat}
    (hpos : IsBoundary content.toList pos) {labels : List RefLabel}
    (h : ∀ label ∈ labels, label.span.EndsAt (IsBoundary content.toList))
    (hexpand : ∀ label ∈ labels, Q (expandLabel content body label)) :
    ∀ t ∈ bodyFrom content body pos labels, Q t := by
  induction labels generalizing pos with
  | nil =>
    intro t ht
    obtain rfl := List.mem_singleton.1 ht
    exact hQ.bodyCopy _ _ ⟨hpos, hbody⟩
  | cons label labels ih =>
    have hlabel := h label (by simp)
    intro t ht
    rw [Virtual.bodyFrom] at ht
    rcases List.mem_cons.1 ht with rfl | ht
    · exact hQ.bodyCopy _ _ ⟨hpos, hlabel.1⟩
    rcases List.mem_cons.1 ht with rfl | ht
    · exact hexpand label (by simp)
    · exact ih hlabel.2 (fun l hl => h l (by simp [hl])) (fun l hl => hexpand l (by simp [hl])) t ht

/-- A span that may be absent, copied between two texts. -/
theorem between (opening closing : String) (capabilities : Capabilities) (span : Option Span) :
    (∀ s, span = some s → s.EndsAt (IsBoundary content.toList)) →
    ∀ t ∈ (match span with
      | some span => [LinkedText.plain opening, copyOf content span capabilities, .plain closing]
      | none => []), Q t := by
  intro h t ht
  cases span with
  | none => cases ht
  | some s =>
    simp only [List.mem_cons, List.not_mem_nil, or_false] at ht
    rcases ht with rfl | rfl | rfl
    · exact hQ.plain _
    · exact hQ.copy s _ (h s rfl)
    · exact hQ.plain _

variable {facts : SetupFacts} (h : ∀ s ∈ facts.spans, s.EndsAt (IsBoundary content.toList))
include h

theorem declaredOptions : ∀ t ∈ declaredOptions content facts, Q t := by
  have hprops := fun {s} => endsAt_of_define h (s := s) (.inl rfl)
  have hemit := fun {s} => endsAt_of_define h (s := s) (.inr rfl)
  intro t ht
  simp only [Virtual.declaredOptions, List.mem_append] at ht
  rcases ht with ((ht | ht) | ht) | ht
  · exact hQ.between _ _ _ _ (fun s hs => hprops (.inr hs)) t ht
  · exact hQ.between _ _ _ _ (fun s hs => hemit (.inr hs)) t ht
  · exact hQ.between _ _ _ _ (fun s hs => hprops (.inl hs)) t ht
  · exact hQ.between _ _ _ _ (fun s hs => hemit (.inl hs)) t ht

theorem setupOptions : Q (setupOptions content facts) := by
  have hprops := fun {s} => endsAt_of_define h (s := s) (.inl rfl)
  have hemit := fun {s} => endsAt_of_define h (s := s) (.inr rfl)
  refine hQ.concat _ ?_
  intro t ht
  rcases List.mem_append.1 ht with ht | ht
  · rcases List.mem_append.1 ht with ht | ht
    · exact hQ.between _ _ _ _ (fun s hs => hprops (.inl hs)) t ht
    · exact hQ.between _ _ _ _ (fun s hs => hprops (.inr hs)) t ht
  · exact hQ.between _ _ _ _ (fun s hs => hemit (.inl hs)) t ht

end SetupJoined

/-- **The program of a setup block.**  Whatever holds of the pieces, of the expanded labels and of the entries
returned holds of the program. -/
theorem SetupJoined.setupProgram {block : Block} {facts : SetupFacts} {Q : LinkedText → Prop}
    (hQ : SetupJoined block.content (withoutImports block.content facts) Q)
    (hbody : IsBoundary block.content.toList (withoutImports block.content facts).utf8ByteSize)
    (h : ∀ s ∈ facts.spans, s.EndsAt (IsBoundary block.content.toList))
    (hexpand : ∀ label ∈ facts.labels,
      Q (expandLabel block.content (withoutImports block.content facts) label))
    (hreturn : ∀ s ∈ facts.spans, ∀ name separator, Q (returnEntry name s separator)) :
    Q (setupProgram block facts) := by
  have himports : ∀ s ∈ sortedImports facts, s.EndsAt (IsBoundary block.content.toList) :=
    fun s hs => h s (by simp [SetupFacts.spans, mem_sortedImports.1 hs])
  have hlabels : ∀ label ∈ facts.labels.mergeSort fun a b => a.span.start ≤ b.span.start,
      label.span.EndsAt (IsBoundary block.content.toList) := fun label hlabel =>
    h _ (label_mem_spans (List.mem_mergeSort.1 hlabel) (by simp [RefLabel.spans]))
  have hzero : IsBoundary block.content.toList 0 := isBoundary_zero _
  refine hQ.concat _ ?_
  intro t ht
  simp only [List.mem_append, List.mem_cons, List.mem_map, List.not_mem_nil, or_false,
    List.cons_append] at ht
  rcases ht with rfl | (((((((ht | rfl) | ht) | rfl | rfl | rfl) | ht) | rfl) | ⟨s, hs, rfl⟩) |
    ⟨v, hv, rfl⟩) | rfl
  · exact hQ.plain _
  · exact hQ.headerFrom hzero himports t ht
  · exact hQ.plain _
  · exact hQ.declaredOptions h t ht
  · exact hQ.plain _
  · exact hQ.side _ _ _ _ rfl (by decide) ⟨hzero, hzero⟩
  · exact hQ.plain _
  · exact hQ.bodyFrom hbody hzero hlabels (fun l hl => hexpand l (List.mem_mergeSort.1 hl)) t ht
  · exact hQ.plain _
  · exact hreturn s (by simp [SetupFacts.spans, hs]) _ _
  · exact hreturn v.span (rootVar_mem_spans hv) _ _
  · exact hQ.plain _

theorem SetupClosed.setupProgram {block : Block} {facts : SetupFacts} {Q : LinkedText → Prop}
    (hQ : SetupClosed block.content (withoutImports block.content facts) Q)
    (hbody : IsBoundary block.content.toList (withoutImports block.content facts).utf8ByteSize)
    (h : ∀ s ∈ facts.spans, s.EndsAt (IsBoundary block.content.toList)) : Q (setupProgram block facts) := by
  refine SetupJoined.setupProgram hQ.toPiecesJoined hbody h (fun label hlabel => hQ.expandLabel ?_) ?_
  · exact fun b hb s hs => h s (label_mem_spans hlabel (binding_mem_spans hb hs))
  · exact fun s hs name separator => hQ.returnEntry name separator (h s hs)

/-! ## 5. The document -/

/-- **The script document.**  A property that joining keeps holds of it as soon as it holds of the parts that the
blocks become, each moved to its block. -/
theorem scriptProgram_joined {Q : LinkedText → Prop} (hQ : LinkedText.Joined Q) {input : ScriptInput}
    (hscript : ∀ block facts, input.script = some (block, facts) → Q (sourceExport block) ∧
      Q (LinkedText.inBlock (scriptCopy block facts input.setup.isSome) block) ∧
      Q (LinkedText.inBlock (scriptOptions block facts) block))
    (hsetup : ∀ block facts, input.setup = some (block, facts) →
      Q (LinkedText.inBlock (setupProgram block facts) block) ∧
      Q (LinkedText.inBlock (setupOptions block.content facts) block)) :
    Q (scriptProgram input) := by
  refine hQ.concat _ ?_
  intro t ht
  simp only [List.mem_cons, List.not_mem_nil, or_false] at ht
  rcases ht with rfl | rfl | rfl | rfl | rfl | rfl | rfl | rfl
  · cases h : input.script with
    | none => exact hQ.empty
    | some entry => exact (hscript entry.1 entry.2 h).1
  · cases h : input.script with
    | none => exact hQ.empty
    | some entry => exact (hscript entry.1 entry.2 h).2.1
  · cases h : input.setup with
    | none => exact hQ.empty
    | some entry => exact (hsetup entry.1 entry.2 h).1
  · exact hQ.plain _
  · cases h : input.script with
    | none => exact hQ.plain _
    | some entry => exact (hscript entry.1 entry.2 h).2.2
  · exact hQ.plain _
  · cases h : input.setup with
    | none => exact hQ.empty
    | some entry => exact (hsetup entry.1 entry.2 h).2
  · exact hQ.plain _

end ComponentLens.Virtual
