/-
# The body of the setup function

Between the head of the setup function and its `return` stands the setup block, with every labelled statement
expanded.  `Partitions` says what that should be: the labelled statements, each once, and between them the
text that no labelled statement covers, cut into its maximal intervals, all in the order of the block.

The generator walks over the labelled statements in the order in which they start and copies what lies between
the end of one and the start of the next.  Where no statement reaches into the next, that is such a partition
(`bodyParts_partitions`).  A labelled statement may hold another one, though.  Then the walk goes back: it maps
an inverted span where the outer statement gives way to the inner one, and after the inner one it copies the
rest of the outer one as if no label covered it.

So the body is a partition exactly when the labelled statements stand one behind the other
(`setupProgram_body`).
-/
import ComponentLens.Proofs.Script.Order
import ComponentLens.Proofs.Virtual.ScriptRegions
import Mathlib.Data.List.Basic

namespace ComponentLens.Virtual

open Script

/-! ## 1. Parts of a body -/

/-- A part of the body: text of the block that is copied, or a labelled statement that is expanded. -/
inductive BodyPart where
  | gap (place : Span)
  | label (statement : RefLabel)

namespace BodyPart

/-- The place of the part in the block. -/
def span : BodyPart → Span
  | gap place => place
  | label statement => statement.span

/-- The place that is copied, if the part is a copy. -/
def gap? : BodyPart → Option Span
  | gap place => some place
  | label _ => none

/-- The statement that is expanded, if the part is one. -/
def label? : BodyPart → Option RefLabel
  | gap _ => none
  | label statement => some statement

@[simp] theorem span_gap (place : Span) : (gap place).span = place := rfl

@[simp] theorem span_label (statement : RefLabel) : (label statement).span = statement.span := rfl

@[simp] theorem gap?_gap (place : Span) : (gap place).gap? = some place := rfl

@[simp] theorem gap?_label (statement : RefLabel) : (label statement).gap? = none := rfl

@[simp] theorem label?_gap (place : Span) : (gap place).label? = none := rfl

@[simp] theorem label?_label (statement : RefLabel) : (label statement).label? = some statement := rfl

/-- What is written for the part. -/
def render (content body : String) : BodyPart → LinkedText
  | gap place => copyOf body place .scriptSetup
  | label statement => expandLabel content body statement

end BodyPart

/-- The offset lies in a labelled statement. -/
def Covered (labels : List RefLabel) (n : Nat) : Prop := ∃ label ∈ labels, InSpan label.span n

theorem Covered.append_left {labels : List RefLabel} {n : Nat} (h : Covered labels n) (more : List RefLabel) :
    Covered (labels ++ more) n := by
  obtain ⟨label, hlabel, hn⟩ := h
  exact ⟨label, List.mem_append_left _ hlabel, hn⟩

/-- The span is an interval of a block of the given size that no labelled statement covers, and that cannot
be made longer. -/
structure MaximalGap (labels : List RefLabel) (size : Nat) (s : Span) : Prop where
  room : s.start < s.stop
  inside : s.stop ≤ size
  free : ∀ n, InSpan s n → ¬Covered labels n
  left : s.start = 0 ∨ Covered labels (s.start - 1)
  right : s.stop = size ∨ Covered labels s.stop

/-- The parts are the labelled statements and the maximal intervals that none of them covers, each once and
in the order of the block.  A copy may be empty; none is inverted. -/
structure Partitions (labels : List RefLabel) (size : Nat) (parts : List BodyPart) : Prop where
  ordered : parts.Pairwise fun p q => p.span.start ≤ q.span.start
  forward : ∀ s, .gap s ∈ parts → s.start ≤ s.stop
  gaps : ∀ s, s.start < s.stop → (.gap s ∈ parts ↔ MaximalGap labels size s)
  once : (parts.filterMap (·.gap?)).Pairwise fun a b => a.stop ≤ b.start
  labels : (parts.filterMap (·.label?)).Perm labels

/-! ## 2. The walk over labels that stand one behind the other -/

/-- The parts that the generator writes from offset `pos` on. -/
def bodyParts (size pos : Nat) : List RefLabel → List BodyPart
  | [] => [.gap ⟨pos, size⟩]
  | label :: labels =>
    .gap ⟨pos, label.span.start⟩ :: .label label :: bodyParts size label.span.stop labels

theorem bodyFrom_eq_render (content body : String) (pos : Nat) (labels : List RefLabel) :
    bodyFrom content body pos labels =
      (bodyParts body.utf8ByteSize pos labels).map (·.render content body) := by
  induction labels generalizing pos with
  | nil => rfl
  | cons label labels ih => simp [bodyFrom, bodyParts, BodyPart.render, ih]

/-- The labelled statements stand one behind the other, from offset `pos` on. -/
structure Ahead (size pos : Nat) (labels : List RefLabel) : Prop where
  inside : pos ≤ size
  apart : labels.Pairwise fun a b => a.span.stop ≤ b.span.start
  room : ∀ label ∈ labels, label.span.start < label.span.stop
  within : ∀ label ∈ labels, pos ≤ label.span.start ∧ label.span.stop ≤ size

theorem Ahead.tail {size pos : Nat} {label : RefLabel} {labels : List RefLabel}
    (h : Ahead size pos (label :: labels)) : Ahead size label.span.stop labels where
  inside := (h.within label (by simp)).2
  apart := (List.pairwise_cons.1 h.apart).2
  room l hl := h.room l (List.mem_cons_of_mem _ hl)
  within l hl := ⟨(List.pairwise_cons.1 h.apart).1 l hl, (h.within l (List.mem_cons_of_mem _ hl)).2⟩

variable {size pos : Nat} {labels : List RefLabel}

theorem label?_bodyParts (size pos : Nat) (labels : List RefLabel) :
    (bodyParts size pos labels).filterMap (·.label?) = labels := by
  induction labels generalizing pos with
  | nil => rfl
  | cons label labels ih => simp [bodyParts, List.filterMap_cons, ih]

/-- The walk never goes back. -/
theorem bodyParts_ordered (h : Ahead size pos labels) :
    (bodyParts size pos labels).Pairwise (fun p q => p.span.start ≤ q.span.start) ∧
      ∀ p ∈ bodyParts size pos labels, pos ≤ p.span.start := by
  induction labels generalizing pos with
  | nil => simp [bodyParts]
  | cons label labels ih =>
    obtain ⟨hpairwise, hstart⟩ := ih h.tail
    have hwithin := h.within label (by simp)
    have hroom := h.room label (by simp)
    simp only [bodyParts, List.pairwise_cons, List.forall_mem_cons, BodyPart.span_gap, BodyPart.span_label]
    refine ⟨⟨⟨hwithin.1, fun p hp => ?_⟩, fun p hp => ?_, hpairwise⟩, Nat.le_refl _, hwithin.1,
      fun p hp => ?_⟩
    · have := hstart p hp; omega
    · have := hstart p hp; omega
    · have := hstart p hp; omega

/-- No copy is inverted, and none reaches into the next. -/
theorem gap?_bodyParts (h : Ahead size pos labels) :
    ((bodyParts size pos labels).filterMap (·.gap?)).Pairwise (fun a b => a.stop ≤ b.start) ∧
      ∀ s ∈ (bodyParts size pos labels).filterMap (·.gap?), pos ≤ s.start ∧ s.start ≤ s.stop := by
  induction labels generalizing pos with
  | nil => simpa [bodyParts] using h.inside
  | cons label labels ih =>
    obtain ⟨hpairwise, hstart⟩ := ih h.tail
    have hwithin := h.within label (by simp)
    have hroom := h.room label (by simp)
    simp only [bodyParts, List.filterMap_cons, BodyPart.gap?_gap, BodyPart.gap?_label, List.pairwise_cons,
      List.forall_mem_cons]
    refine ⟨⟨fun s hs => ?_, hpairwise⟩, ⟨Nat.le_refl _, hwithin.1⟩, fun s hs => ?_⟩
    · have := hstart s hs; omega
    · have := hstart s hs; omega

theorem mem_gap? {parts : List BodyPart} {s : Span} :
    s ∈ parts.filterMap (·.gap?) ↔ .gap s ∈ parts := by
  rw [List.mem_filterMap]
  constructor
  · rintro ⟨part, hpart, hgap⟩
    cases part with
    | gap place =>
      cases hgap
      exact hpart
    | label statement => cases hgap
  · intro h
    exact ⟨_, h, rfl⟩

/-- Between two neighbouring labelled statements, or between one and an end of the block, there is one
interval that none covers. -/
theorem maximalGap_iff_of_between {next : Nat} {s : Span} (hnext : next ≤ size)
    (haway : ∀ label ∈ labels, label.span.stop ≤ pos ∨ next ≤ label.span.start)
    (hleft : pos = 0 ∨ Covered labels (pos - 1)) (hright : next = size ∨ Covered labels next)
    (hroom : s.start < s.stop) (hpos : pos ≤ s.start) (hs : s.start < next) :
    MaximalGap labels size s ↔ s = ⟨pos, next⟩ := by
  have hfree : ∀ n, pos ≤ n → n < next → ¬Covered labels n := by
    rintro n hle hlt ⟨label, hlabel, hn⟩
    have := haway label hlabel
    simp only [InSpan] at hn
    omega
  constructor
  · intro h
    have hstart : s.start = pos := by
      rcases h.left with hzero | hcovered
      · omega
      · refine Nat.le_antisymm (Nat.le_of_not_lt fun hlt => ?_) hpos
        exact hfree (s.start - 1) (by omega) (by omega) hcovered
    have hstop : s.stop = next := by
      refine Nat.le_antisymm (Nat.le_of_not_lt fun hlt => ?_) (Nat.le_of_not_lt fun hlt => ?_)
      · rcases hright with hsize | hcovered
        · have := h.inside
          omega
        · exact h.free next ⟨by omega, hlt⟩ hcovered
      · rcases h.right with hsize | hcovered
        · omega
        · exact hfree s.stop (by omega) hlt hcovered
    rw [← hstart, ← hstop]
  · rintro rfl
    exact ⟨hroom, hnext, fun n hn => hfree n hn.1 hn.2, hleft, hright⟩

/-- **The copies are the maximal intervals.**  `done` are the labelled statements that the walk has passed. -/
theorem gap_mem_bodyParts {done : List RefLabel} (hdone : ∀ label ∈ done, label.span.stop ≤ pos)
    (hpos : pos = 0 ∨ Covered done (pos - 1)) (h : Ahead size pos labels) {s : Span}
    (hroom : s.start < s.stop) :
    .gap s ∈ bodyParts size pos labels ↔ MaximalGap (done ++ labels) size s ∧ pos ≤ s.start := by
  induction labels generalizing pos done with
  | nil =>
    have hbetween : pos ≤ s.start → s.start < size → (MaximalGap done size s ↔ s = ⟨pos, size⟩) :=
      maximalGap_iff_of_between (Nat.le_refl _) (fun l hl => .inl (hdone l hl)) hpos (.inl rfl) hroom
    rw [List.append_nil]
    simp only [bodyParts, List.mem_singleton, BodyPart.gap.injEq]
    constructor
    · rintro rfl
      exact ⟨(hbetween (Nat.le_refl _) hroom).2 rfl, Nat.le_refl _⟩
    · rintro ⟨hgap, hle⟩
      have := hgap.inside
      exact (hbetween hle (by omega)).1 hgap
  | cons label labels ih =>
    have hwithin := h.within label (by simp)
    have hlabelRoom := h.room label (by simp)
    have hapart := (List.pairwise_cons.1 h.apart).1
    have hpassed : ∀ l ∈ done ++ [label], l.span.stop ≤ label.span.stop := by
      simp only [List.mem_append, List.mem_singleton]
      rintro l (hl | rfl)
      · have := hdone l hl
        omega
      · exact Nat.le_refl _
    have hlast : Covered (done ++ [label]) (label.span.stop - 1) := by
      refine ⟨label, by simp, ?_⟩
      simp only [InSpan]
      omega
    have hrest := ih hpassed (.inr hlast) h.tail
    rw [List.append_assoc, List.singleton_append] at hrest
    have haway : ∀ l ∈ done ++ label :: labels, l.span.stop ≤ pos ∨ label.span.start ≤ l.span.start := by
      simp only [List.mem_append, List.mem_cons]
      rintro l (hl | rfl | hl)
      · exact .inl (hdone l hl)
      · exact .inr (Nat.le_refl _)
      · have := hapart l hl
        exact .inr (by omega)
    have hnext : Covered (done ++ label :: labels) label.span.start :=
      ⟨label, by simp, Nat.le_refl _, hlabelRoom⟩
    have hbetween : pos ≤ s.start → s.start < label.span.start →
        (MaximalGap (done ++ label :: labels) size s ↔ s = ⟨pos, label.span.start⟩) :=
      maximalGap_iff_of_between (by omega) haway (hpos.imp_right (·.append_left _)) (.inr hnext) hroom
    simp only [bodyParts, List.mem_cons, BodyPart.gap.injEq, reduceCtorEq, false_or, hrest]
    constructor
    · rintro (rfl | ⟨hgap, hle⟩)
      · exact ⟨(hbetween (Nat.le_refl _) hroom).2 rfl, Nat.le_refl _⟩
      · exact ⟨hgap, by omega⟩
    · rintro ⟨hgap, hle⟩
      by_cases hs : s.start < label.span.start
      · exact .inl ((hbetween hle hs).1 hgap)
      · refine .inr ⟨hgap, Nat.le_of_not_lt fun hlt => ?_⟩
        exact hgap.free s.start ⟨Nat.le_refl _, hroom⟩ ⟨label, by simp, by omega, hlt⟩

/-- **The walk partitions the block** when its labelled statements stand one behind the other. -/
theorem bodyParts_partitions (h : Ahead size 0 labels) : Partitions labels size (bodyParts size 0 labels) := by
  obtain ⟨honce, hgaps⟩ := gap?_bodyParts h
  constructor
  · exact (bodyParts_ordered h).1
  · exact fun s hs => (hgaps s (mem_gap?.2 hs)).2
  · intro s hroom
    have hnone : ∀ label ∈ ([] : List RefLabel), label.span.stop ≤ 0 := by simp
    have hiff := gap_mem_bodyParts hnone (.inl rfl) h hroom
    simpa using hiff
  · exact honce
  · rw [label?_bodyParts]

/-! ## 3. No copy is inverted -/

/-- Every mapping leads to spans whose ends are in order. -/
def Forward (t : LinkedText) : Prop := t.Leads fun _ sources => ∀ s ∈ sources, s.start ≤ s.stop

theorem forward_setupCode {code : String} {s : Span} {capabilities : Capabilities} :
    Forward (setupCode code s capabilities) ↔ s.start ≤ s.stop := by
  simp [Forward, setupCode]

/-- Pieces that lead to no inverted span are forward. -/
theorem forward_closed (content body : String) :
    PiecesClosed (fun s => s.start ≤ s.stop) content body Forward where
  toClosed := LinkedText.leads_closed
  side := fun _ _ _ _ _ _ hs => LinkedText.leads_mapped.2 (by simpa using hs)
  copy := fun _ _ hs => forward_setupCode.2 hs
  bodyCopy := fun _ _ hs => forward_setupCode.2 hs

/-- A labelled statement is expanded without an inverted span. -/
theorem forward_expandLabel (content body : String) {label : RefLabel} (h : label.InOrder) :
    Forward (expandLabel content body label) :=
  (forward_closed content body).expandLabel fun b hb s hs => (h.bindings b hb).forward s hs

/-- The labelled statements stand one behind the other if the walk maps no inverted span. -/
theorem apart_of_forward {content body : String} (hroom : ∀ label ∈ labels, label.span.start < label.span.stop)
    (h : ∀ t ∈ bodyFrom content body pos labels, Forward t) :
    labels.Pairwise (fun a b => a.span.stop ≤ b.span.start) ∧ ∀ label ∈ labels, pos ≤ label.span.start := by
  induction labels generalizing pos with
  | nil => simp
  | cons label labels ih =>
    simp only [bodyFrom, List.forall_mem_cons] at h
    obtain ⟨hgap, -, hrest⟩ := h
    have hpos : pos ≤ label.span.start := forward_setupCode.1 hgap
    have hlabel := hroom label (by simp)
    obtain ⟨hpairwise, hbehind⟩ := ih (fun l hl => hroom l (List.mem_cons_of_mem _ hl)) hrest
    constructor
    · exact List.pairwise_cons.2 ⟨hbehind, hpairwise⟩
    · intro l hl
      rcases List.mem_cons.1 hl with rfl | hl
      · exact hpos
      · have := hbehind l hl
        omega

/-- **A partition maps no inverted span.**  So what is written as a partition is written without one. -/
theorem apart_of_partitions {content body : String} {parts : List BodyPart}
    (horder : ∀ label ∈ labels, label.InOrder) (h : Partitions labels size parts)
    (hwritten : LinkedText.concat (bodyFrom content body pos labels) =
      .concat (parts.map (·.render content body))) :
    labels.Pairwise fun a b => a.span.stop ≤ b.span.start := by
  have hparts : Forward (.concat (parts.map (·.render content body))) := by
    refine LinkedText.leads_concat.2 ?_
    intro t ht
    obtain ⟨part, hpart, rfl⟩ := List.mem_map.1 ht
    cases part with
    | gap place => exact forward_setupCode.2 (h.forward place hpart)
    | label statement =>
      have hmem : statement ∈ labels := by
        rw [← h.labels.mem_iff]
        exact List.mem_filterMap.2 ⟨_, hpart, rfl⟩
      exact forward_expandLabel content body (horder statement hmem)
  rw [← hwritten] at hparts
  exact (apart_of_forward (fun l hl => (horder l hl).room) (LinkedText.leads_concat.1 hparts)).1

/-! ## 4. Imports -/

/-- Imports that stand one behind the other are all kept. -/
theorem keptImports_eq_self {spans : List Span} (hapart : spans.Pairwise fun a b => a.stop ≤ b.start)
    (hroom : ∀ s ∈ spans, s.start < s.stop) (hpos : ∀ s ∈ spans, pos ≤ s.start) :
    keptImports pos spans = spans := by
  induction spans generalizing pos with
  | nil => rfl
  | cons span rest ih =>
    obtain ⟨hspan, hrest⟩ := List.pairwise_cons.1 hapart
    have hle := hpos span (by simp)
    rw [keptImports, if_neg (by omega), ih hrest (fun s hs => hroom s (List.mem_cons_of_mem _ hs)) hspan]

variable {facts : SetupFacts}

theorem sortedImports_eq (hapart : facts.imports.Pairwise fun a b => a.stop ≤ b.start)
    (hroom : ∀ s ∈ facts.imports, s.start < s.stop) : sortedImports facts = facts.imports := by
  refine List.mergeSort_of_pairwise (hapart.imp_of_mem ?_)
  intro a b ha _ hab
  have := hroom a ha
  simp only [decide_eq_true_eq]
  omega

/-- **Every import is blanked**: the body holds a filler where the block holds an import. -/
theorem withoutImports_reads {content : String} (h : analyzeSetup content = .ok facts) :
    ∀ s ∈ facts.imports, s.Reads (withoutImports content facts).toList (filler s.length) := by
  obtain ⟨hapart, hroom⟩ := analyzeSetup_imports h
  have hends : ∀ s ∈ facts.imports, s.EndsAt (IsBoundary content.toList) := fun s hs =>
    analyzeSetup_endsAt h s (by simp [SetupFacts.spans, hs])
  rw [withoutImports, sortedImports_eq hapart hroom,
    keptImports_eq_self hapart hroom fun s _ => Nat.zero_le s.start]
  exact reads_foldl_blankSpan hapart (fun s hs => Nat.le_of_lt (hroom s hs)) hends

/-! ## 5. The body -/

/-- The labelled statements in the order in which they start. -/
def sortedLabels (facts : SetupFacts) : List RefLabel :=
  facts.labels.mergeSort fun a b => a.span.start ≤ b.span.start

theorem sortedLabels_eq {content : String} (h : analyzeSetup content = .ok facts) :
    sortedLabels facts = facts.labels := by
  refine List.mergeSort_of_pairwise ((analyzeSetup_labels h).1.imp ?_)
  intro a b hab
  simpa using Nat.le_of_lt hab

/-- The name of the setup function, as far as the opening brace of its body. -/
def functionHead : List LinkedText :=
  [.plain "async ", .mapped "setup" (.empty 0) .gate { region := .scriptSetup, capabilities := .none },
    .plain "() \x7b\n"]

/-- What stands in the setup function before its `return`. -/
def functionBody (content : String) (facts : SetupFacts) : List LinkedText :=
  bodyFrom content (withoutImports content facts) 0 (sortedLabels facts)

/-- The labelled statements of a block that stand one behind the other stand in it. -/
theorem ahead_of_apart {content : String} (h : analyzeSetup content = .ok facts)
    (hapart : facts.labels.Pairwise fun a b => a.span.stop ≤ b.span.start) :
    Ahead content.utf8ByteSize 0 facts.labels where
  inside := Nat.zero_le _
  apart := hapart
  room label hlabel := ((analyzeSetup_labels h).2 label hlabel).room
  within label hlabel := by
    have hends := analyzeSetup_endsAt h label.span (label_mem_spans hlabel (by simp [RefLabel.spans]))
    exact ⟨Nat.zero_le _, (within_of_isBoundary hends).2⟩

/-- **The body of the setup function.**  Between its head and its `return` stands what the walk over the
labelled statements writes: copies of a text that agrees with the block but for its imports, which are blanked,
and the statements expanded.  This is a partition of the block exactly when the labelled statements stand one
behind the other. -/
theorem setupProgram_body (block : Block) {facts : SetupFacts}
    (h : analyzeSetup block.content = .ok facts) :
    (∃ front back, setupProgram block facts = .concat
      (front ++ functionHead ++ functionBody block.content facts ++ [.plain "return \x7b\n"] ++ back)) ∧
    BlankedTo (InImport facts) block.content.toList (withoutImports block.content facts).toList ∧
    (∀ s ∈ facts.imports, s.Reads (withoutImports block.content facts).toList (filler s.length)) ∧
    ((∃ parts, Partitions facts.labels block.content.utf8ByteSize parts ∧
        LinkedText.concat (functionBody block.content facts) =
          .concat (parts.map (·.render block.content (withoutImports block.content facts)))) ↔
      facts.labels.Pairwise fun a b => a.span.stop ≤ b.span.start) := by
  have hblanked := blankedTo_withoutImports block.content facts
  have hsize : (withoutImports block.content facts).utf8ByteSize = block.content.utf8ByteSize := by
    have hagree := hblanked.agree.1
    rwa [byteLength_toList, byteLength_toList, eq_comm] at hagree
  refine ⟨?_, hblanked, withoutImports_reads h, ?_⟩
  · refine ⟨.plain "\n/* <script setup> */\n" :: headerFrom block.content 0 (sortedImports facts) ++
      [LinkedText.plain "\nexport default (await import('__VLS_vue')).defineComponent(\x7b\n"] ++
      declaredOptions block.content facts,
      facts.exposes.map (fun span => returnEntry (span.slice block.content) span ",\n") ++
      (rootVars facts).map (fun v => returnEntry v.name v.span ", \n") ++
      [LinkedText.plain "\x7d;\n\x7d\x7d);\n"], ?_⟩
    simp only [setupProgram, functionHead, functionBody, sortedLabels, List.append_assoc]
  · rw [functionBody, sortedLabels_eq h]
    constructor
    · rintro ⟨parts, hparts, hwritten⟩
      exact apart_of_partitions (analyzeSetup_labels h).2 hparts hwritten
    · intro hapart
      refine ⟨_, bodyParts_partitions (ahead_of_apart h hapart), ?_⟩
      rw [bodyFrom_eq_render, hsize]

/-- A setup block with the given content and nothing else. -/
def bareBlock (content : String) : Block := ⟨"script", content, ⟨0, content.utf8ByteSize⟩, []⟩

/-- A labelled statement that sets the variable at offset `at_` to a value. -/
def plainLabel (start at_ stop : Nat) (name : String) (value : Span) (inRoot : Bool) : RefLabel :=
  ⟨⟨start, stop⟩, ⟨start, start + 3⟩,
    [⟨⟨at_, value.stop⟩, ⟨at_, at_ + 1⟩, some value, [⟨name, ⟨at_, at_ + 1⟩, false, inRoot⟩]⟩]⟩

/-- The facts about `import 'y'; ref: a = 1; f(); ref: b = 2`. -/
def factsSideBySide : SetupFacts where
  imports := [⟨0, 11⟩]
  labels := [plainLabel 12 17 23 "a" ⟨21, 22⟩ true, plainLabel 29 34 39 "b" ⟨38, 39⟩ true]

/-- The theorem at `import 'y'; ref: a = 1; f(); ref: b = 2`: the body is a partition. -/
theorem setupProgram_body_sideBySide :
    analyzeSetup (bareBlock "import 'y'; ref: a = 1; f(); ref: b = 2").content = .ok factsSideBySide ∧
    ∃ parts, Partitions factsSideBySide.labels 39 parts ∧
      LinkedText.concat (functionBody "import 'y'; ref: a = 1; f(); ref: b = 2" factsSideBySide) =
        .concat (parts.map (·.render "import 'y'; ref: a = 1; f(); ref: b = 2"
          (withoutImports "import 'y'; ref: a = 1; f(); ref: b = 2" factsSideBySide))) := by
  have hfacts : analyzeSetup (bareBlock "import 'y'; ref: a = 1; f(); ref: b = 2").content =
      .ok factsSideBySide := by decide +kernel
  have hbody := setupProgram_body (bareBlock "import 'y'; ref: a = 1; f(); ref: b = 2") hfacts
  have hapart : factsSideBySide.labels.Pairwise fun a b => a.span.stop ≤ b.span.start := by decide
  exact ⟨hfacts, hbody.2.2.2.2 hapart⟩

/-- The facts about `ref:a=()=>{ref:b=1}`. -/
def factsNested : SetupFacts where
  labels := [plainLabel 0 4 19 "a" ⟨6, 19⟩ true, plainLabel 11 15 18 "b" ⟨17, 18⟩ false]

/-- A label inside a labelled statement: the body of `ref:a=()=>{ref:b=1}` is no partition.  The walk maps the
inverted span from 19 to 11, and copies the brace at 18, which the outer label covers. -/
theorem not_partitions_nested :
    analyzeSetup "ref:a=()=>\x7bref:b=1\x7d" = .ok factsNested ∧
    ¬∃ parts, Partitions factsNested.labels 19 parts ∧
      LinkedText.concat (functionBody "ref:a=()=>\x7bref:b=1\x7d" factsNested) =
        .concat (parts.map (·.render "ref:a=()=>\x7bref:b=1\x7d"
          (withoutImports "ref:a=()=>\x7bref:b=1\x7d" factsNested))) := by
  have hfacts : analyzeSetup "ref:a=()=>\x7bref:b=1\x7d" = .ok factsNested := by decide +kernel
  refine ⟨hfacts, ?_⟩
  rintro ⟨parts, hparts, hwritten⟩
  rw [functionBody, sortedLabels_eq hfacts] at hwritten
  have hapart := apart_of_partitions (analyzeSetup_labels hfacts).2 hparts hwritten
  exact absurd hapart (by decide)

end ComponentLens.Virtual
