/-
# The facts stand in the order of the text

The generator of the script document walks over a setup block once, from import to import and from label to
label, and copies what lies between.  It relies on an order that the facts do not state: imports come one
behind the other (`analyzeSetup_imports`), labelled statements in the order in which they start
(`analyzeSetup_labels`), and the places of a binding lie in its left side (`LabelBinding.InOrder`).

All of it comes from the tokens.  They are `Ordered`, and so is every run of tokens that a reader hands out,
since readers keep the order in which tokens are given to them.

Two labelled statements need not be apart.  A label may stand inside the statement of another one, and then
it comes behind it in the list.
-/
import ComponentLens.Proofs.Script.Places

namespace ComponentLens.Script

/-! ## 1. Runs of tokens -/

/-- The tokens stand one behind the other, and each takes up some room. -/
structure Ordered (ts : List Token) : Prop where
  apart : ts.Pairwise fun t u => t.span.stop ≤ u.span.start
  room : ∀ t ∈ ts, t.span.start < t.span.stop

namespace Ordered

variable {ts us : List Token}

theorem sublist (h : Ordered us) (hsub : ts.Sublist us) : Ordered ts where
  apart := h.apart.sublist hsub
  room t hmem := h.room t (hsub.subset hmem)

/-- The span over a run of tokens reaches over each of them. -/
theorem spanOf_contains (h : Ordered ts) {t : Token} (hmem : t ∈ ts) (at_ : Nat) :
    (spanOf ts at_).start ≤ t.span.start ∧ t.span.stop ≤ (spanOf ts at_).stop := by
  have hne : ts ≠ [] := List.ne_nil_of_mem hmem
  obtain ⟨first, rest, rfl⟩ := List.exists_cons_of_ne_nil hne
  have hlast : (first :: rest).getLast? = some ((first :: rest).getLast hne) := List.getLast?_eq_some_getLast hne
  simp only [spanOf, List.head?_cons, hlast]
  constructor
  · rcases List.mem_cons.1 hmem with rfl | hmem
    · exact Nat.le_refl _
    · have hapart := (List.pairwise_cons.1 h.apart).1 t hmem
      have hroom := h.room first (by simp)
      omega
  · by_cases heq : t = (first :: rest).getLast hne
    · exact Nat.le_of_eq (congrArg (·.span.stop) heq)
    · have hsplit := List.dropLast_concat_getLast hne
      have hdrop : t ∈ (first :: rest).dropLast := by
        rw [← hsplit] at hmem
        rcases List.mem_append.1 hmem with hmem | hmem
        · exact hmem
        · exact absurd (List.mem_singleton.1 hmem) heq
      have hapart := h.apart
      rw [← hsplit] at hapart
      have hle := (List.pairwise_append.1 hapart).2.2 t hdrop _ (List.mem_singleton.2 rfl)
      have hroom := h.room _ (List.getLast_mem hne)
      omega

/-- The span over some tokens takes up room. -/
theorem spanOf_room (h : Ordered ts) (hne : ts ≠ []) (at_ : Nat) :
    (spanOf ts at_).start < (spanOf ts at_).stop := by
  obtain ⟨t, hmem⟩ := List.exists_mem_of_ne_nil ts hne
  have hcontains := h.spanOf_contains hmem at_
  have hroom := h.room t hmem
  omega

theorem spanOf_forward (h : Ordered ts) (at_ : Nat) : (spanOf ts at_).start ≤ (spanOf ts at_).stop := by
  by_cases hne : ts = []
  · subst hne
    exact Nat.le_refl _
  · exact Nat.le_of_lt (h.spanOf_room hne at_)

end Ordered

/-- The spans over two runs of tokens, one behind the other. -/
theorem spanOf_apart {ts us : List Token} (h : ∀ t ∈ ts, ∀ u ∈ us, t.span.stop ≤ u.span.start)
    (hts : ts ≠ []) (hus : us ≠ []) : (spanOf ts 0).stop ≤ (spanOf us 0).start := by
  obtain ⟨first, rest, rfl⟩ := List.exists_cons_of_ne_nil hus
  rw [spanOf, spanOf, List.getLast?_eq_some_getLast hts, List.getLast?_eq_some_getLast hus,
    List.head?_eq_some_head hts, List.head?_cons]
  exact h _ (List.getLast_mem hts) first (by simp)

/-- The tokens of a block are in order. -/
theorem ordered_of_balancedTokens {source : String} {ts : List Token} (h : balancedTokens source = .ok ts) :
    Ordered ts :=
  have hordered := tokenize_ordered (balancedTokens_eq_ok h)
  ⟨hordered.1, hordered.2⟩

/-! ## 2. Labels -/

/-- No span of a binding is inverted, and its variables lie in its left side. -/
structure LabelBinding.InOrder (b : LabelBinding) : Prop where
  forward : ∀ s ∈ b.spans, s.start ≤ s.stop
  vars : ∀ v ∈ b.vars, v.span.start < v.span.stop ∧ b.left.start ≤ v.span.start ∧ v.span.stop ≤ b.left.stop

theorem getD_forward {parent : Option Span} {s : Span} (hparent : ∀ p ∈ parent, p.start ≤ p.stop)
    (hs : s.start ≤ s.stop) : (parent.getD s).start ≤ (parent.getD s).stop := by
  cases parent with
  | none => exact hs
  | some p => exact hparent p rfl

theorem labelBindings_inOrder {parent : Option Span} {inRoot : Bool} {ts : List Token}
    (hparent : ∀ p ∈ parent, p.start ≤ p.stop) (h : Ordered ts) :
    ∀ b ∈ labelBindings parent inRoot ts, b.InOrder := by
  fun_induction labelBindings parent inRoot ts with
  | case1 parent ts inside hgroup parent' ih =>
    intro b hb
    obtain ⟨⟨part, hpart⟩, -, hmem⟩ := List.mem_flatMap.1 hb
    refine ih part hpart ?_ (h.sublist ((splitAt_sublist hpart).trans (group?_sublist hgroup))) b hmem
    rintro p ⟨⟩
    exact getD_forward hparent (h.spanOf_forward 0)
  | case2 parent ts _ left right hbreak =>
    have hsub := breakAt_sublist "=" ts
    rw [hbreak] at hsub
    have hleft := h.sublist hsub.1
    have hright := h.sublist (hsub.2 right rfl)
    intro b hb
    obtain rfl := List.mem_singleton.1 hb
    constructor
    · simp only [LabelBinding.spans, List.mem_cons, List.mem_append, List.mem_map]
      rintro s (rfl | rfl | hs | ⟨v, hv, rfl⟩)
      · exact getD_forward hparent (h.spanOf_forward 0)
      · exact hleft.spanOf_forward _
      · split at hs
        · simp at hs
        · obtain rfl : s = spanOf right 0 := by simpa using hs
          exact hright.spanOf_forward 0
      · obtain ⟨t, ht, hspan, -⟩ := mem_labelVars hv
        rw [← hspan]
        exact Nat.le_of_lt (hleft.room t ht)
    · intro v hv
      obtain ⟨t, ht, hspan, -⟩ := mem_labelVars hv
      rw [← hspan]
      exact ⟨hleft.room t ht, hleft.spanOf_contains ht _⟩
  | case3 parent ts _ _ _ name hname =>
    have hroom := h.room name (singleIdent?_mem hname)
    intro b hb
    obtain rfl := List.mem_singleton.1 hb
    constructor
    · simpa [LabelBinding.spans, LabelVar.ofToken] using Nat.le_of_lt hroom
    · intro v hv
      obtain rfl := List.mem_singleton.1 hv
      exact ⟨hroom, Nat.le_refl _, Nat.le_refl _⟩
  | case4 => simp

/-- The variables of labelled bindings stand in the text under their names. -/
theorem labelBindings_varReads {text : List Char} {parent : Option Span} {inRoot : Bool} {ts : List Token}
    (h : ∀ t ∈ ts, t.span.Reads text t.text.toList) :
    ∀ b ∈ labelBindings parent inRoot ts, ∀ v ∈ b.vars, v.span.Reads text v.name.toList := by
  fun_induction labelBindings parent inRoot ts with
  | case1 parent ts inside hgroup parent' ih =>
    intro b hb
    obtain ⟨⟨part, hpart⟩, -, hmem⟩ := List.mem_flatMap.1 hb
    have hsub := ((splitAt_sublist hpart).trans (group?_sublist hgroup)).subset
    exact ih part hpart (fun t ht => h t (hsub ht)) b hmem
  | case2 parent ts _ left right hbreak =>
    have hsub := (breakAt_subset "=" ts).1
    rw [hbreak] at hsub
    intro b hb v hv
    obtain rfl := List.mem_singleton.1 hb
    obtain ⟨t, ht, hspan, hname⟩ := mem_labelVars hv
    rw [← hspan, ← hname]
    exact h t (hsub ht)
  | case3 parent ts _ _ _ name hname =>
    intro b hb v hv
    obtain rfl := List.mem_singleton.1 hb
    obtain rfl := List.mem_singleton.1 hv
    exact h name (singleIdent?_mem hname)
  | case4 => simp

/-- What a labelled statement is read from: its word, the colon, and the tokens of the statement behind. -/
theorem RefLabel.read?_eq_some {before ts : List Token} {label : RefLabel}
    (h : RefLabel.read? before ts = some label) :
    ∃ first statement, (first :: statement).Sublist ts ∧ ts.head? = some first ∧
      label.span = spanOf (first :: statement) 0 ∧
      ∀ b ∈ label.bindings, ∃ part, part.Sublist ts ∧
        b ∈ labelBindings none (nesting before == 0) part := by
  unfold RefLabel.read? at h
  split at h
  next ref colon rest =>
    split at h
    · cases h
      have hstatement := (splitStatement_sublist none rest).1
      refine ⟨ref, colon :: (splitStatement none rest).1, (hstatement.cons_cons colon).cons_cons ref, rfl, rfl,
        fun b hb => ?_⟩
      obtain ⟨part, hpart, hb⟩ := List.mem_flatMap.1 hb
      have hsub := (splitAt_sublist hpart).trans ((withoutSemicolon_sublist _).trans hstatement)
      exact ⟨part, (hsub.cons colon).cons ref, hb⟩
    · simp at h
  · simp at h

/-- A labelled statement takes up room, and its bindings are in order. -/
structure RefLabel.InOrder (label : RefLabel) : Prop where
  room : label.span.start < label.span.stop
  bindings : ∀ b ∈ label.bindings, b.InOrder

theorem RefLabel.read?_inOrder {before ts : List Token} {label : RefLabel}
    (hread : RefLabel.read? before ts = some label) (h : Ordered ts) : label.InOrder := by
  obtain ⟨first, statement, hsub, -, hspan, hbindings⟩ := RefLabel.read?_eq_some hread
  constructor
  · rw [hspan]
    exact (h.sublist hsub).spanOf_room (by simp) 0
  · intro b hb
    obtain ⟨part, hpart, hb⟩ := hbindings b hb
    exact labelBindings_inOrder (by simp) (h.sublist hpart) b hb

/-- A labelled statement starts where its word does. -/
theorem RefLabel.start_of_read? {before ts : List Token} {label : RefLabel}
    (hread : RefLabel.read? before ts = some label) :
    ∃ t, ts.head? = some t ∧ label.span.start = t.span.start := by
  obtain ⟨first, statement, -, hfirst, hspan, -⟩ := RefLabel.read?_eq_some hread
  refine ⟨first, hfirst, ?_⟩
  rw [hspan, spanOf, List.head?_cons, List.getLast?_eq_some_getLast (List.cons_ne_nil _ _)]

theorem refLabelsFrom_start {before ts : List Token} {label : RefLabel}
    (h : label ∈ refLabelsFrom before ts) : ∃ t ∈ ts, label.span.start = t.span.start := by
  induction ts generalizing before with
  | nil => simp [refLabelsFrom] at h
  | cons t ts ih =>
    rcases List.mem_append.1 h with hread | hrest
    · obtain ⟨u, hu, hstart⟩ := RefLabel.start_of_read? (Option.mem_toList.1 hread)
      exact ⟨u, List.mem_of_head? hu, hstart⟩
    · obtain ⟨u, hu, hstart⟩ := ih hrest
      exact ⟨u, List.mem_cons_of_mem t hu, hstart⟩

theorem refLabelsFrom_inOrder {before ts : List Token} (h : Ordered ts) :
    (refLabelsFrom before ts).Pairwise (fun a b => a.span.start < b.span.start) ∧
      ∀ label ∈ refLabelsFrom before ts, label.InOrder := by
  induction ts generalizing before with
  | nil => simp [refLabelsFrom]
  | cons t ts ih =>
    have htail : Ordered ts := h.sublist (List.sublist_cons_self t ts)
    obtain ⟨hpairwise, hinOrder⟩ := @ih (t :: before) htail
    constructor
    · refine List.pairwise_append.2 ⟨?_, hpairwise, fun a ha b hb => ?_⟩
      · cases RefLabel.read? before (t :: ts) <;> simp
      · obtain ⟨first, hfirst, ha⟩ := RefLabel.start_of_read? (Option.mem_toList.1 ha)
        obtain ⟨u, hu, hb⟩ := refLabelsFrom_start hb
        obtain rfl : t = first := by simpa using hfirst
        have hapart := (List.pairwise_cons.1 h.apart).1 u hu
        have hroom := h.room t (by simp)
        omega
    · intro label hlabel
      rcases List.mem_append.1 hlabel with hread | hrest
      · exact RefLabel.read?_inOrder (Option.mem_toList.1 hread) h
      · exact hinOrder label hrest

theorem refLabelsFrom_varReads {text : List Char} {before ts : List Token}
    (h : ∀ t ∈ ts, t.span.Reads text t.text.toList) :
    ∀ label ∈ refLabelsFrom before ts, ∀ b ∈ label.bindings, ∀ v ∈ b.vars,
      v.span.Reads text v.name.toList := by
  induction ts generalizing before with
  | nil => simp [refLabelsFrom]
  | cons t ts ih =>
    intro label hlabel
    rcases List.mem_append.1 hlabel with hread | hrest
    · intro b hb
      obtain ⟨-, -, -, -, -, hbindings⟩ := RefLabel.read?_eq_some (Option.mem_toList.1 hread)
      obtain ⟨part, hpart, hb⟩ := hbindings b hb
      exact labelBindings_varReads (fun u hu => h u (hpart.subset hu)) b hb
    · exact ih (fun u hu => h u (List.mem_cons_of_mem t hu)) label hrest

/-- **Labels stand in the order in which they start.** -/
theorem analyzeSetup_labels {source : String} {facts : SetupFacts} (h : analyzeSetup source = .ok facts) :
    facts.labels.Pairwise (fun a b => a.span.start < b.span.start) ∧
      ∀ label ∈ facts.labels, label.InOrder := by
  obtain ⟨ts, htokens, hreturn⟩ := bind_eq_ok.1 h
  cases hreturn
  exact refLabelsFrom_inOrder (ordered_of_balancedTokens htokens)

/-- **The variables of labels stand in the block under their names.** -/
theorem analyzeSetup_varReads {source : String} {facts : SetupFacts} (h : analyzeSetup source = .ok facts) :
    ∀ label ∈ facts.labels, ∀ b ∈ label.bindings, ∀ v ∈ b.vars,
      v.span.Reads source.toList v.name.toList := by
  obtain ⟨ts, htokens, hreturn⟩ := bind_eq_ok.1 h
  cases hreturn
  exact refLabelsFrom_varReads (tokenize_reads (balancedTokens_eq_ok htokens))

/-! ## 3. Imports -/

/-- A statement adds no import, or one that reaches over all of it. -/
theorem Contribution.ofStatement_imports (statement : List Token) :
    (Contribution.ofStatement statement).imports = [] ∨
      (Contribution.ofStatement statement).imports = [spanOf statement 0] ∧ statement ≠ [] := by
  by_cases hne : statement = []
  · subst hne
    exact .inl rfl
  unfold Contribution.ofStatement
  dsimp only
  generalize (if headIsIdent statement "export" then statement.tail else statement) = ts
  split
  · exact .inl rfl
  split
  · split
    · exact .inl rfl
    · exact .inr ⟨rfl, hne⟩
  split
  · split
    · exact .inl rfl
    · exact .inl rfl
  split
  · exact .inl rfl
  · exact .inl rfl

/-- **Imports stand one behind the other**, and each takes up room. -/
theorem analyzeSetup_imports {source : String} {facts : SetupFacts} (h : analyzeSetup source = .ok facts) :
    facts.imports.Pairwise (fun a b => a.stop ≤ b.start) ∧ ∀ s ∈ facts.imports, s.start < s.stop := by
  obtain ⟨ts, htokens, hreturn⟩ := bind_eq_ok.1 h
  cases hreturn
  have hordered := (ordered_of_balancedTokens htokens).sublist (statements_sublist ts)
  have hmem : ∀ statement ∈ statements ts, ∀ s ∈ (Contribution.ofStatement statement.tokens).imports,
      s = spanOf statement.tokens 0 ∧ statement.tokens ≠ [] := by
    intro statement _ s hs
    rcases Contribution.ofStatement_imports statement.tokens with hnone | ⟨hone, hne⟩
    · rw [hnone] at hs
      cases hs
    · rw [hone] at hs
      exact ⟨List.mem_singleton.1 hs, hne⟩
  obtain ⟨hone, hlater⟩ := List.pairwise_flatMap.1 hordered.apart
  simp only [List.flatMap_map]
  constructor
  · refine List.pairwise_flatMap.2 ⟨fun statement _ => ?_, hlater.imp_of_mem ?_⟩
    · rcases Contribution.ofStatement_imports statement.tokens with hnone | ⟨hone, -⟩
      · simp [hnone]
      · simp [hone]
    · intro first later hfirst hlater hapart a ha b hb
      obtain ⟨rfl, hne⟩ := hmem first hfirst a ha
      obtain ⟨rfl, hne'⟩ := hmem later hlater b hb
      exact spanOf_apart hapart hne hne'
  · intro s hs
    obtain ⟨statement, hstatement, hs⟩ := List.mem_flatMap.1 hs
    obtain ⟨rfl, hne⟩ := hmem statement hstatement s hs
    have hstatementOrdered : Ordered statement.tokens :=
      ⟨hone statement hstatement, fun t ht => hordered.room t (List.mem_flatMap.2 ⟨_, hstatement, ht⟩)⟩
    exact hstatementOrdered.spanOf_room hne 0

end ComponentLens.Script
