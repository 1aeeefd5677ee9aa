/-
# When the declared names are the exposed ones

`analyzeSetup_exposes_iff` compares what a block of declarators exposes with what it declares.  The
declarators are first joined where a statement runs into the next (`absorb`), which changes no token; what
the reader takes from the joined run is known (`exposesOf_tokensOf`).  No two tokens have the same span, so
the two lists of names agree exactly if they agree at each declarator, and there `ReadRight` says when they
do.
-/
import ComponentLens.Proofs.Script.Exposes

namespace ComponentLens.Script

/-! ## 1. Joining -/

theorem Declarator.tokens_join {d next : Declarator} (h : d.semicolon = none) :
    (d.join next).tokens = d.tokens ++ next.tokens := by
  simp [Declarator.tokens, Declarator.body, Declarator.join, h]

theorem Declarator.semicolon_of_runsInto {d next : Declarator} (h : d.runsInto next = true) :
    d.semicolon = none := by
  simp only [Declarator.runsInto, Bool.and_eq_true] at h
  exact Option.isNone_iff_eq_none.1 h.1.2

section

variable {d next : Declarator} {ds : List Declarator} {buried : List Span}
  {more : List (Declarator × List Span)}

theorem absorb_of_runsInto (h : absorb ds = (next, buried) :: more) (hruns : d.runsInto next = true) :
    absorb (d :: ds) = (d.join next, next.names ++ buried) :: more := by
  rw [absorb, h]
  exact if_pos hruns

theorem absorb_of_not_runsInto (h : absorb ds = (next, buried) :: more) (hruns : d.runsInto next = false) :
    absorb (d :: ds) = (d, []) :: (next, buried) :: more := by
  rw [absorb, h]
  exact if_neg (by rw [hruns]; exact Bool.false_ne_true)

end

/-- The first declarator keeps its place. -/
theorem absorb_cons (d : Declarator) (ds : List Declarator) :
    ∃ d' buried more, absorb (d :: ds) = (d', buried) :: more ∧ d'.lead = d.lead := by
  cases h : absorb ds with
  | nil => exact ⟨d, [], [], by rw [absorb, h], rfl⟩
  | cons head more =>
    obtain ⟨next, buried⟩ := head
    cases hruns : d.runsInto next with
    | true => exact ⟨_, _, _, absorb_of_runsInto h hruns, rfl⟩
    | false => exact ⟨_, _, _, absorb_of_not_runsInto h hruns, rfl⟩

/-- Joining changes no token. -/
theorem tokensOf_absorb (ds : List Declarator) : tokensOf ((absorb ds).map (·.1)) = tokensOf ds := by
  induction ds with
  | nil => rfl
  | cons d ds ih =>
    have hcons : tokensOf (d :: ds) = d.tokens ++ tokensOf ds := rfl
    rw [hcons, ← ih]
    cases h : absorb ds with
    | nil =>
      rw [absorb, h]
      rfl
    | cons head more =>
      obtain ⟨next, buried⟩ := head
      cases hruns : d.runsInto next with
      | true =>
        rw [absorb_of_runsInto h hruns]
        simp [tokensOf, Declarator.tokens_join (Declarator.semicolon_of_runsInto hruns)]
      | false =>
        rw [absorb_of_not_runsInto h hruns]
        rfl

/-- Joining loses no name. -/
theorem namesOf_eq (ds : List Declarator) :
    namesOf ds = (absorb ds).flatMap fun (d, buried) => d.names ++ buried := by
  induction ds with
  | nil => rfl
  | cons d ds ih =>
    have hcons : namesOf (d :: ds) = d.names ++ namesOf ds := rfl
    rw [hcons, ih]
    cases h : absorb ds with
    | nil =>
      rw [absorb, h]
      simp
    | cons head more =>
      obtain ⟨next, buried⟩ := head
      cases hruns : d.runsInto next with
      | true =>
        rw [absorb_of_runsInto h hruns]
        simp [Declarator.names, Declarator.join]
      | false =>
        rw [absorb_of_not_runsInto h hruns]
        simp

theorem Declarator.isFirst_of_lead {d d' : Declarator} (h : d'.lead = d.lead) : d'.isFirst = d.isFirst := by
  rw [isFirst, isFirst, h]

/-- A joined declarator is one of the grammar. -/
theorem Declarator.WellFormed.join {d next : Declarator} (hd : d.WellFormed) (hnext : next.WellFormed)
    (hruns : d.runsInto next = true) : (d.join next).WellFormed := by
  have hsemicolon := semicolon_of_runsInto hruns
  simp only [runsInto, Bool.and_eq_true] at hruns
  obtain ⟨⟨hfirst, -⟩, hlast⟩ := hruns
  rw [hd.getLast?_tokens hsemicolon] at hlast
  obtain ⟨hkind, -⟩ := isFirst_iff.1 hfirst
  obtain ⟨hopener, hcloser⟩ := not_bracket_of_kind (t := next.lead) (by simp [hkind])
  have hunit : IsUnit [next.lead] := .single hopener hcloser
  have hmark : headIsPunct [next.lead] ";" = false := by simp [headIsPunct, Token.isPunct, hkind]
  refine ⟨hd.lead, hd.pattern, hd.balanced.append (.cons hopener hcloser hnext.balanced_tokens), ?_, ?_,
    hnext.semicolon⟩
  · exact (lacks_append (by decide) hd.balanced).2
      ⟨hd.lacks, lacks_cons hopener hcloser hmark hnext.lacks_semicolon⟩
  · obtain ⟨t, ht⟩ := hd.exists_last
    have hexpects : t.expectsMore = true := by
      rw [ht] at hlast
      exact hlast
    have hgo : breaksBefore d.last [next.lead] = false := by
      rw [ht]
      exact breaksBefore_of_expectsMore hexpects _
    have hquiet : Quiet d.last (next.lead :: (next.pattern.tokens ++ next.rest)) := by
      rw [← List.singleton_append, hunit.quiet_append, hgo]
      exact ⟨fun hbreak => absurd hbreak Bool.false_ne_true, hnext.quiet_tokens⟩
    rw [last_eq_lastOf] at hquiet
    exact (quiet_append hd.balanced _ _).2 ⟨hd.quiet, hquiet⟩

/-- What follows the second of two joined declarators follows both. -/
theorem Declarator.Settled.join {d next other : Declarator} (hd : d.semicolon = none) (h : next.Settled other) : (d.join next).Settled other := by
  obtain ⟨hbefore, hruns⟩ := h
  refine ⟨hbefore, ?_⟩
  have hlast : (d.join next).tokens.getLast? = next.tokens.getLast? := by
    rw [tokens_join hd, List.getLast?_append]
    have hne : next.tokens.getLast? ≠ none := by
      rw [Ne, List.getLast?_eq_none_iff]
      exact List.cons_ne_nil _ _
    cases hsome : next.tokens.getLast? with
    | none => exact absurd hsome hne
    | some t => rfl
  rw [runsInto, hlast]
  exact hruns

theorem IsSettled.cons {d : Declarator} {ds : List Declarator} (hd : d.WellFormed)
    (hnext : ∀ next ∈ ds.head?, d.Settled next) (hds : IsSettled ds) : IsSettled (d :: ds) :=
  ⟨List.forall_mem_cons.2 ⟨hd, hds.wellFormed⟩, List.isChain_cons.2 ⟨hnext, hds.chain⟩⟩

/-- **The joined run is settled.** -/
theorem isSettled_absorb {ds : List Declarator} (hwf : ∀ d ∈ ds, d.WellFormed)
    (hchain : ds.IsChain Declarator.Before) : IsSettled ((absorb ds).map (·.1)) := by
  induction ds with
  | nil => exact ⟨by simp [absorb], List.IsChain.nil⟩
  | cons d ds ih =>
    have hd := hwf d List.mem_cons_self
    have hrest := ih (fun next hmem => hwf next (List.mem_cons_of_mem d hmem)) hchain.tail
    cases ds with
    | nil => exact ⟨by simp [absorb, hd], List.IsChain.singleton d⟩
    | cons next ds =>
      obtain ⟨next', buried, more, habsorb, hlead⟩ := absorb_cons next ds
      rw [habsorb, List.map_cons] at hrest
      have hnext := hrest.wellFormed next' List.mem_cons_self
      cases hruns : d.runsInto next' with
      | true =>
        rw [absorb_of_runsInto habsorb hruns, List.map_cons]
        refine .cons (hd.join hnext hruns) (fun other hmem => ?_) hrest.tail
        exact ((List.isChain_cons.1 hrest.chain).1 other hmem).join
          (Declarator.semicolon_of_runsInto hruns)
      | false =>
        rw [absorb_of_not_runsInto habsorb hruns, List.map_cons, List.map_cons]
        refine .cons hd ?_ hrest
        rintro _ ⟨⟩
        have hbefore := (List.isChain_cons_cons.1 hchain).1
        rw [Declarator.Before, ← hlead, ← Declarator.isFirst_of_lead hlead] at hbefore
        exact ⟨hbefore, hruns⟩

/-! ## 2. Where names are read -/

/-- The spans of the tokens. -/
def spansOf (ts : List Token) : List Span := ts.map (·.span)

@[simp] theorem spansOf_nil : spansOf [] = [] := rfl

@[simp] theorem spansOf_append (xs ys : List Token) : spansOf (xs ++ ys) = spansOf xs ++ spansOf ys :=
  List.map_append

@[simp] theorem spansOf_cons (t : Token) (ts : List Token) : spansOf (t :: ts) = t.span :: spansOf ts := rfl

theorem spansOf_subset {xs ys : List Token} (h : xs ⊆ ys) : spansOf xs ⊆ spansOf ys := List.map_subset _ h

theorem boundNames_subset (ts : List Token) : boundNames ts ⊆ spansOf ts := by
  intro s hs
  obtain ⟨t, ht, rfl⟩ := mem_boundNames hs
  exact List.mem_map_of_mem ht

theorem declaredNames_subset (ts : List Token) : declaredNames ts ⊆ spansOf (declaredPattern ts) :=
  boundNames_subset _

theorem readParts_subset (ts : List Token) : readParts declaredNames "," ts ⊆ spansOf ts := by
  intro s hs
  obtain ⟨part, hpart, hs⟩ := List.mem_flatMap.1 hs
  exact spansOf_subset (List.Subset.trans (declaredPattern_subset part) (splitAt_subset hpart))
    (declaredNames_subset part hs)

theorem laterParts_subset (ts : List Token) : laterParts declaredNames "," ts ⊆ spansOf ts := by
  rw [laterParts]
  cases hbreak : (breakAt "," ts).2 with
  | none => exact List.nil_subset _
  | some after =>
    exact List.Subset.trans (readParts_subset after) (spansOf_subset (after?_subset hbreak))

theorem Pattern.names_subset {p : Pattern} (h : p.WellFormed) : p.names ⊆ spansOf p.tokens :=
  List.Subset.trans (p.boundNames_tokens h).1.subset (boundNames_subset _)

section

variable {lead : Token} (hlead : lead.kind = .ident) {p : Pattern} (hp : p.WellFormed)

include hlead hp

theorem breakAt_buried_of_lacks {xs : List Token} (hxs : Balanced xs) {mark : String}
    (hmem : mark ∈ separators) (hlacks : Lacks mark xs) (ts : List Token) :
    breakAt mark (xs ++ lead :: (p.tokens ++ ts)) =
      (xs ++ lead :: (p.tokens ++ (breakAt mark ts).1), (breakAt mark ts).2) := by
  obtain ⟨hopener, hcloser⟩ := not_bracket_of_kind (t := lead) (by simp [hlead])
  have hunit : IsUnit [lead] := .single hopener hcloser
  have hhead : headIsPunct [lead] mark = false := by simp [headIsPunct, Token.isPunct, hlead]
  have hpattern : headIsPunct p.tokens mark = false := by
    simp only [separators, List.mem_cons, List.not_mem_nil, or_false] at hmem
    rcases hmem with rfl | rfl | rfl | rfl
    all_goals exact p.headIsPunct_tokens hp.shaped (by decide) (by decide)
  rw [breakAt_append_of_lacks hmem hxs hlacks, ← List.singleton_append, hunit.breakAt_append hhead,
    (p.isUnit hp.shaped).breakAt_append hpattern]
  rfl

/-- A pattern behind a keyword is cut off together with the keyword, or not at all. -/
theorem breakAt_buried {xs : List Token} (hxs : Balanced xs) {mark : String} (hmem : mark ∈ separators)
    (ts : List Token) :
    (breakAt mark (xs ++ lead :: (p.tokens ++ ts))).1 ⊆ xs ∨
      ∃ us, (breakAt mark (xs ++ lead :: (p.tokens ++ ts))).1 = xs ++ lead :: (p.tokens ++ us) := by
  cases hbreak : (breakAt mark xs).2 with
  | some after =>
    have hfound : breakAt mark xs = ((breakAt mark xs).1, some after) := by rw [← hbreak]
    rw [breakAt_append_of_some hmem hxs hfound]
    exact .inl (breakAt_subset mark xs).1
  | none =>
    rw [breakAt_buried_of_lacks hlead hp hxs hmem hbreak]
    exact .inr ⟨_, rfl⟩

theorem boundNames_buried {xs : List Token} (hxs : Balanced xs) (ts : List Token) :
    boundNames (xs ++ lead :: (p.tokens ++ ts)) = [] := by
  obtain ⟨hopener, hcloser⟩ := not_bracket_of_kind (t := lead) (by simp [hlead])
  cases xs, hxs using Balanced.units with
  | nil =>
    have hunit : IsUnit [lead] := .single hopener hcloser
    rw [List.nil_append, ← List.singleton_append]
    exact boundNames_append_of_ne_nil hunit
      (List.append_ne_nil_of_left_ne_nil (p.isUnit hp.shaped).ne_nil ts)
  | cons u us hu hus _ =>
    rw [List.append_assoc]
    exact boundNames_append_of_ne_nil hu (by simp)

/-- A pattern behind a keyword is not read where a pattern is looked for in front of the keyword. -/
theorem declaredNames_buried {xs : List Token} (hxs : Balanced xs) (ts : List Token) :
    declaredNames (xs ++ lead :: (p.tokens ++ ts)) ⊆ spansOf xs := by
  have hread : ∀ mark ∈ separators,
      boundNames (breakAt mark (xs ++ lead :: (p.tokens ++ ts))).1 ⊆ spansOf xs := by
    intro mark hmem
    rcases breakAt_buried hlead hp hxs hmem ts with hsub | ⟨us, heq⟩
    · exact List.Subset.trans (boundNames_subset _) (spansOf_subset hsub)
    · rw [heq, boundNames_buried hlead hp hxs]
      exact List.nil_subset _
  rw [declaredNames, declaredPattern]
  split
  next pattern after heq =>
    have hpattern := hread "=" (by decide)
    rwa [heq] at hpattern
  next => exact hread ":" (by decide)

/-- A pattern behind a keyword is read by no part. -/
theorem readParts_buried {xs : List Token} (hxs : Balanced xs) (ts : List Token) :
    readParts declaredNames "," (xs ++ lead :: (p.tokens ++ ts)) ⊆ spansOf xs ++ spansOf ts := by
  induction hn : xs.length using Nat.strongRecOn generalizing xs with
  | ind n ih =>
    cases hbreak : (breakAt "," xs).2 with
    | some rest =>
      have hfound : breakAt "," xs = ((breakAt "," xs).1, some rest) := by rw [← hbreak]
      have hlength := breakAt_length "," xs
      rw [hbreak, Option.elim] at hlength
      have hlater := ih rest.length (by omega) ((hxs.breakAt (by decide)).2.2 rest hbreak) rfl
      obtain ⟨hfirst, hrest⟩ := breakAt_subset "," xs
      rw [readParts_of_some (breakAt_append_of_some (by decide) hxs hfound _)]
      have hhead : declaredNames (breakAt "," xs).1 ⊆ spansOf xs := List.Subset.trans
        (declaredNames_subset _) (spansOf_subset (List.Subset.trans (declaredPattern_subset _) hfirst))
      have htail : spansOf rest ++ spansOf ts ⊆ spansOf xs ++ spansOf ts :=
        List.append_subset.2 ⟨List.Subset.trans (spansOf_subset (hrest rest hbreak))
          (List.subset_append_left _ _), List.subset_append_right _ _⟩
      exact List.append_subset.2 ⟨List.Subset.trans hhead (List.subset_append_left _ _),
        List.Subset.trans hlater htail⟩
    | none =>
      have hwhole := breakAt_buried_of_lacks hlead hp hxs (by decide) hbreak ts
      have hlater : laterParts declaredNames "," (xs ++ lead :: (p.tokens ++ ts)) =
          laterParts declaredNames "," ts := by rw [laterParts, laterParts, hwhole]
      rw [readParts_eq declaredNames_nil, hlater, hwhole]
      exact List.append_subset.2
        ⟨List.Subset.trans (declaredNames_buried hlead hp hxs _) (List.subset_append_left _ _),
          List.Subset.trans (laterParts_subset ts) (List.subset_append_right _ _)⟩

/-- A statement ends in front of a pattern that stands behind a keyword, or takes it whole. -/
theorem splitStatement_buried {xs : List Token} (hxs : Balanced xs) (hlacks : Lacks ";" xs)
    (previous : Option Token) (ts : List Token) :
    (splitStatement previous (xs ++ lead :: (p.tokens ++ ts))).1 ⊆ xs ++ [lead] ∨
      (splitStatement previous (xs ++ lead :: (p.tokens ++ ts))).1 =
        xs ++ lead :: (p.tokens ++ (splitStatement p.tokens.getLast? ts).1) := by
  obtain ⟨hopener, hcloser⟩ := not_bracket_of_kind (t := lead) (by simp [hlead])
  have hunit : IsUnit [lead] := .single hopener hcloser
  have hmark : headIsPunct [lead] ";" = false := by simp [headIsPunct, Token.isPunct, hlead]
  rw [splitStatement_append_of_balanced hxs hlacks]
  split
  next hwhole =>
    cases hbreak : breaksBefore (lastOf previous xs) (lead :: (p.tokens ++ ts)) with
    | true =>
      rw [splitStatement_of_breaksBefore hbreak, List.append_nil]
      exact .inl (List.subset_append_left _ _)
    | false =>
      rw [← List.singleton_append] at hbreak
      have hgo := hunit.splitStatement_append hbreak hmark
      rw [List.getLast?_singleton, List.singleton_append] at hgo
      rw [hgo]
      cases hpattern : breaksBefore (some lead) (p.tokens ++ ts) with
      | true =>
        rw [splitStatement_of_breaksBefore hpattern]
        exact .inl (List.Subset.refl _)
      | false =>
        rw [(p.isUnit hp.shaped).splitStatement_append hpattern
          (p.headIsPunct_tokens hp.shaped (by decide) (by decide))]
        exact .inr rfl
  next hcut =>
    exact .inl (List.Subset.trans (splitStatement_subset previous xs).1 (List.subset_append_left _ _))

end

/-- The names are those of declarators that stand in the tokens, each behind a keyword. -/
inductive Buries : List Token → List Span → Prop
  | none {rest : List Token} (hrest : Balanced rest) (hlacks : Lacks ";" rest) : Buries rest []
  | more {rest later : List Token} {names : List Span} {lead : Token} {p : Pattern}
      (hrest : Balanced rest) (hlacks : Lacks ";" rest) (hlead : lead.kind = .ident) (hp : p.WellFormed)
      (hlater : Buries later names) : Buries (rest ++ lead :: (p.tokens ++ later)) (p.names ++ names)

theorem Buries.subset {rest : List Token} {names : List Span} (h : Buries rest names) :
    names ⊆ spansOf rest := by
  induction h with
  | none => exact List.nil_subset _
  | more _ _ _ hp _ ih =>
    intro s hs
    rcases List.mem_append.1 hs with hs | hs
    · have hmem := Pattern.names_subset hp hs
      simp [hmem]
    · have hmem := ih hs
      simp [hmem]

/-- **The names that are joined to a declarator stand in it, behind keywords.** -/
theorem buries_absorb {ds : List Declarator} (hwf : ∀ d ∈ ds, d.WellFormed) :
    ∀ entry ∈ absorb ds, Buries entry.1.rest entry.2 ∧ entry.1.pattern.WellFormed := by
  induction ds with
  | nil => simp [absorb]
  | cons d ds ih =>
    have hd := hwf d List.mem_cons_self
    have ih := ih fun next hmem => hwf next (List.mem_cons_of_mem d hmem)
    have halone : Buries d.rest [] ∧ d.pattern.WellFormed := ⟨.none hd.balanced hd.lacks, hd.pattern⟩
    cases h : absorb ds with
    | nil => simpa [absorb, h] using halone
    | cons head more =>
      obtain ⟨next, buried⟩ := head
      rw [h, List.forall_mem_cons] at ih
      obtain ⟨⟨hburies, hpattern⟩, hmore⟩ := ih
      cases hruns : d.runsInto next with
      | true =>
        rw [absorb_of_runsInto h hruns, List.forall_mem_cons]
        have hfirst : next.isFirst = true := by
          simp only [Declarator.runsInto, Bool.and_eq_true] at hruns
          exact hruns.1.1
        obtain ⟨hkind, -⟩ := Declarator.isFirst_iff.1 hfirst
        exact ⟨⟨.more hd.balanced hd.lacks hkind hpattern hburies, hd.pattern⟩, hmore⟩
      | false =>
        rw [absorb_of_not_runsInto h hruns, List.forall_mem_cons, List.forall_mem_cons]
        exact ⟨halone, ⟨hburies, hpattern⟩, hmore⟩

/-- **No name behind a keyword is read.**  However much of the tokens the statement takes, what is read off
its parts is none of the names behind keywords. -/
theorem Buries.not_read {rest : List Token} {names : List Span} (h : Buries rest names) {xs : List Token}
    (hxs : Balanced xs) {semicolon : Option Token}
    (hdistinct : (spansOf (xs ++ (rest ++ semicolon.toList))).Nodup) (previous : Option Token) :
    ∀ s ∈ readParts declaredNames "," (xs ++ (splitStatement previous (rest ++ semicolon.toList)).1),
      s ∉ names := by
  induction h generalizing xs previous with
  | none => simp
  | more hrest hlacks hlead hp hlater ih =>
    rename_i rest later names lead p
    rw [List.append_assoc, List.cons_append, List.append_assoc] at hdistinct ⊢
    have hall : spansOf (xs ++ (rest ++ lead :: (p.tokens ++ (later ++ semicolon.toList)))) =
        spansOf (xs ++ (rest ++ [lead])) ++ (spansOf p.tokens ++ spansOf (later ++ semicolon.toList)) := by
      simp
    rw [hall] at hdistinct
    obtain ⟨-, hbehind, hfront⟩ := List.nodup_append.1 hdistinct
    obtain ⟨-, -, hpattern⟩ := List.nodup_append.1 hbehind
    have hnames : p.names ++ names ⊆ spansOf p.tokens ++ spansOf (later ++ semicolon.toList) := by
      refine List.append_subset.2 ⟨?_, ?_⟩
      · exact List.Subset.trans (Pattern.names_subset hp) (List.subset_append_left _ _)
      · rw [spansOf_append]
        exact List.Subset.trans hlater.subset
          (List.Subset.trans (List.subset_append_left _ _) (List.subset_append_right _ _))
    intro s hs hmem
    rcases splitStatement_buried hlead hp hrest hlacks previous (later ++ semicolon.toList) with hsub | heq
    · have hplace : s ∈ spansOf (xs ++ (rest ++ [lead])) :=
        spansOf_subset (List.append_subset.2 ⟨List.subset_append_left _ _,
          List.Subset.trans hsub (List.subset_append_right _ _)⟩) (readParts_subset _ hs)
      exact hfront s hplace s (hnames hmem) rfl
    · rw [heq] at hs
      obtain ⟨hopener, hcloser⟩ := not_bracket_of_kind (t := lead) (by simp [hlead])
      have hprefix : Balanced (xs ++ (rest ++ lead :: p.tokens)) :=
        hxs.append (hrest.append (.cons hopener hcloser (p.isUnit hp.shaped).balanced))
      rcases List.mem_append.1 hmem with hmem | hmem
      · rw [← List.append_assoc] at hs
        rcases List.mem_append.1 (readParts_buried hlead hp (hxs.append hrest) _ hs) with hplace | hplace
        · refine hfront s ?_ s (List.mem_append_left _ (Pattern.names_subset hp hmem)) rfl
          rw [← List.append_assoc, spansOf_append]
          exact List.mem_append_left _ hplace
        · exact hpattern s (Pattern.names_subset hp hmem) s
            (spansOf_subset (splitStatement_subset _ _).1 hplace) rfl
      · have hdistinct' : (spansOf (xs ++ (rest ++ lead :: p.tokens) ++
            (later ++ semicolon.toList))).Nodup := by simpa using hdistinct
        refine ih hprefix hdistinct' p.tokens.getLast? s ?_ hmem
        simpa using hs

/-! ## 3. Name by name -/

/-- Two lists in two parts each, the parts from different places, are equal part by part. -/
theorem append_eq_append_of_disjoint {α : Type} {xs xs' ys ys' first second : List α}
    (hxs : xs ⊆ first) (hxs' : xs' ⊆ first) (hys : ys ⊆ second) (hys' : ys' ⊆ second)
    (hdisjoint : ∀ a ∈ first, a ∉ second) : xs ++ ys = xs' ++ ys' ↔ xs = xs' ∧ ys = ys' := by
  refine ⟨fun h => ?_, by rintro ⟨rfl, rfl⟩; rfl⟩
  rcases List.append_eq_append_iff.1 h with ⟨as, rfl, heq⟩ | ⟨as, rfl, heq⟩
  · cases as with
    | nil => simpa [eq_comm] using heq
    | cons a as =>
      have hfirst : a ∈ first := hxs' (by simp)
      have hsecond : a ∈ second := hys (by simp [heq])
      exact absurd hsecond (hdisjoint a hfirst)
  · cases as with
    | nil => simpa [eq_comm] using heq
    | cons a as =>
      have hfirst : a ∈ first := hxs (by simp)
      have hsecond : a ∈ second := hys' (by simp [heq])
      exact absurd hsecond (hdisjoint a hfirst)

/-- **A declarator is read right exactly under `ReadRight`.** -/
theorem Declarator.readRight_iff {d : Declarator} {buried : List Span} (hd : d.WellFormed)
    (hburies : Buries d.rest buried) (hdistinct : (spansOf d.body).Nodup) :
    readParts declaredNames "," (d.pattern.tokens ++ d.behind.1) = d.names ++ buried ↔
      d.ReadRight buried := by
  have hbehind : Balanced d.behind.1 := ((hd.balanced.append hd.balanced_semicolon).splitStatement _).1
  have hread := readParts_declarator hd.pattern hbehind
  have hnames := Pattern.names_subset hd.pattern
  have hburied : buried ⊆ spansOf (d.rest ++ d.semicolon.toList) := by
    rw [spansOf_append]
    exact List.Subset.trans hburies.subset (List.subset_append_left _ _)
  have hfirst : (if Fits (before "," d.behind.1) then boundNames d.pattern.tokens else []) ⊆
      spansOf d.pattern.tokens := by
    split
    · exact boundNames_subset _
    · exact List.nil_subset _
  have hlater : laterParts declaredNames "," d.behind.1 ⊆ spansOf (d.rest ++ d.semicolon.toList) :=
    List.Subset.trans (laterParts_subset _) (spansOf_subset (splitStatement_subset _ _).1)
  have hdisjoint : ∀ s ∈ spansOf d.pattern.tokens, s ∉ spansOf (d.rest ++ d.semicolon.toList) := by
    rw [Declarator.body, spansOf_append] at hdistinct
    exact fun s hs hmem => (List.nodup_append.1 hdistinct).2.2 s hs s hmem rfl
  have hnone := hburies.not_read (d.pattern.isUnit hd.pattern.shaped).balanced hdistinct d.pattern.tokens.getLast?
  have hstray : laterParts declaredNames "," d.behind.1 = buried ↔
      laterParts declaredNames "," d.behind.1 = [] ∧ buried = [] := by
    refine ⟨fun heq => ?_, by rintro ⟨hnil, rfl⟩; exact hnil⟩
    have hnil : buried = [] := by
      rw [List.eq_nil_iff_forall_not_mem]
      intro s hs
      refine hnone s ?_ hs
      have hmem : s ∈ readParts declaredNames "," (d.pattern.tokens ++ d.behind.1) := by
        rw [hread, heq]
        exact List.mem_append_right _ hs
      exact hmem
    exact ⟨heq.trans hnil, hnil⟩
  rw [hread, Declarator.names, append_eq_append_of_disjoint hfirst hnames hlater hburied hdisjoint,
    hstray, Declarator.ReadRight]
  refine and_congr_left fun _ => ?_
  split
  · exact (d.pattern.boundNames_tokens hd.pattern).2
  · exact eq_comm

theorem Declarator.body_subset (d : Declarator) : d.body ⊆ d.tokens := List.subset_cons_self _ _

theorem Declarator.behind_subset (d : Declarator) : d.pattern.tokens ++ d.behind.1 ⊆ d.body :=
  List.append_subset.2 ⟨List.subset_append_left _ _,
    List.Subset.trans (splitStatement_subset _ _).1 (List.subset_append_right _ _)⟩

theorem Declarator.readParts_subset (d : Declarator) (declaring : Bool) :
    (if declaring then readParts declaredNames "," (d.pattern.tokens ++ d.behind.1) else []) ⊆
      spansOf d.tokens := by
  split
  · exact List.Subset.trans (Script.readParts_subset _)
      (spansOf_subset (List.Subset.trans d.behind_subset d.body_subset))
  · exact List.nil_subset _

theorem readNames_subset (declaring : Bool) (ds : List Declarator) :
    readNames declaring ds ⊆ spansOf (tokensOf ds) := by
  induction ds generalizing declaring with
  | nil => exact List.nil_subset _
  | cons d ds ih =>
    have hcons : tokensOf (d :: ds) = d.tokens ++ tokensOf ds := rfl
    rw [readNames, hcons, spansOf_append]
    exact List.append_subset.2 ⟨List.Subset.trans (d.readParts_subset _) (List.subset_append_left _ _),
      List.Subset.trans (ih _) (List.subset_append_right _ _)⟩

theorem Declarator.names_subset {d : Declarator} {buried : List Span} (hd : d.pattern.WellFormed)
    (hburies : Buries d.rest buried) : d.names ++ buried ⊆ spansOf d.tokens := by
  have hnames : d.names ⊆ spansOf d.body :=
    List.Subset.trans (Pattern.names_subset hd) (spansOf_subset (List.subset_append_left _ _))
  have hburied : buried ⊆ spansOf d.body := List.Subset.trans hburies.subset
    (spansOf_subset (List.Subset.trans (List.subset_append_left _ _) (List.subset_append_right _ _)))
  exact List.Subset.trans (List.append_subset.2 ⟨hnames, hburied⟩) (spansOf_subset d.body_subset)

section

variable {entries : List (Declarator × List Span)} (hwf : ∀ entry ∈ entries, entry.1.WellFormed)
  (hburies : ∀ entry ∈ entries, Buries entry.1.rest entry.2)

include hwf hburies

theorem names_subset : (entries.flatMap fun (d, buried) => d.names ++ buried) ⊆
    spansOf (tokensOf (entries.map (·.1))) := by
  intro s hs
  obtain ⟨entry, hentry, hs⟩ := List.mem_flatMap.1 hs
  have hmem := Declarator.names_subset (hwf entry hentry).pattern (hburies entry hentry) hs
  refine spansOf_subset (fun t ht => ?_) hmem
  exact List.mem_flatMap.2 ⟨entry.1, List.mem_map_of_mem hentry, ht⟩

/-- **A run is read right exactly if each declarator is.** -/
theorem readNames_iff (hdistinct : (spansOf (tokensOf (entries.map (·.1)))).Nodup) (declaring : Bool) :
    readNames declaring (entries.map (·.1)) = (entries.flatMap fun (d, buried) => d.names ++ buried) ↔
      ReadRightFrom declaring entries := by
  induction entries generalizing declaring with
  | nil => simp [readNames, ReadRightFrom]
  | cons entry entries ih =>
    obtain ⟨d, buried⟩ := entry
    obtain ⟨hd, hwf⟩ := List.forall_mem_cons.1 hwf
    obtain ⟨hburied, hburies⟩ := List.forall_mem_cons.1 hburies
    have hcons : tokensOf (((d, buried) :: entries).map (·.1)) =
        d.tokens ++ tokensOf (entries.map (·.1)) := rfl
    rw [hcons, spansOf_append] at hdistinct
    obtain ⟨hfirst, hlater, hdisjoint⟩ := List.nodup_append.1 hdistinct
    have hbody : (spansOf d.body).Nodup := (List.nodup_cons.1 hfirst).2
    rw [List.map_cons, readNames, List.flatMap_cons, ReadRightFrom,
      append_eq_append_of_disjoint (d.readParts_subset _) (Declarator.names_subset hd.pattern hburied)
        (readNames_subset _ _) (names_subset hwf hburies) fun s hs hmem => hdisjoint s hs s hmem rfl,
      ih hwf hburies hlater]
    refine and_congr_left fun _ => ?_
    split
    · exact Declarator.readRight_iff hd hburied hbody
    · rw [eq_comm]
      exact List.append_eq_nil_iff

end

/-! ## 4. The block -/

/-- **What a block exposes are the names it declares, exactly if it reads right.** -/
theorem exposesOf_iff {ds : List Declarator} (hblock : IsBlock ds)
    (hdistinct : (spansOf (tokensOf ds)).Nodup) :
    exposesOf (tokensOf ds) = namesOf ds ↔ ReadsRight ds := by
  have hsettled := isSettled_absorb hblock.wellFormed hblock.chain
  have hburies := buries_absorb hblock.wellFormed
  have hfirst : ∀ d ∈ ((absorb ds).map (·.1)).head?, d.isFirst = true := by
    cases ds with
    | nil => simp [absorb]
    | cons d ds =>
      obtain ⟨d', buried, more, habsorb, hlead⟩ := absorb_cons d ds
      rw [habsorb]
      rintro _ ⟨⟩
      rw [Declarator.isFirst_of_lead hlead]
      exact hblock.first d rfl
  have hwf : ∀ entry ∈ absorb ds, entry.1.WellFormed :=
    fun entry hentry => hsettled.wellFormed _ (List.mem_map_of_mem hentry)
  rw [← tokensOf_absorb] at hdistinct
  rw [← tokensOf_absorb, exposesOf_tokensOf hsettled hfirst, namesOf_eq, ReadsRight]
  exact readNames_iff hwf (fun entry hentry => (hburies entry hentry).1) hdistinct false

theorem Declarator.WellFormed.balanced_all {d : Declarator} (hd : d.WellFormed) : Balanced d.tokens := by
  have hlead : d.lead.isOpener = false ∧ d.lead.isCloser = false := by
    rcases hd.lead with hfirst | hcomma
    · exact not_bracket_of_kind (by rw [(isFirst_iff.1 hfirst).1]; decide)
    · exact not_bracket_of_isPunct hcomma (by decide)
  exact .cons hlead.1 hlead.2
    ((d.pattern.isUnit hd.pattern.shaped).balanced.append (hd.balanced.append hd.balanced_semicolon))

theorem balanced_tokensOf {ds : List Declarator} (hwf : ∀ d ∈ ds, d.WellFormed) : Balanced (tokensOf ds) :=
  .flatMap fun d hd => (hwf d hd).balanced_all

/-- No two tokens have the same span. -/
theorem nodup_spansOf {source : String} {ts : List Token} (h : tokenize source = .ok ts) :
    (spansOf ts).Nodup := by
  obtain ⟨hordered, hroom⟩ := tokenize_ordered h
  rw [spansOf, List.Nodup, List.pairwise_map]
  refine List.Pairwise.imp_of_mem (fun {t u} ht hu hle => ?_) hordered
  intro heq
  have htroom := hroom t ht
  rw [heq] at hle htroom
  omega

/-- Reading a block of declarations succeeds. -/
theorem exists_analyzeSetup {source : String} {ds : List Declarator} (hwf : ∀ d ∈ ds, d.WellFormed)
    (htokens : tokenize source = .ok (tokensOf ds)) :
    ∃ facts, analyzeSetup source = .ok facts ∧ facts.exposes = exposesOf (tokensOf ds) := by
  obtain ⟨facts, hfacts, -, hexposes⟩ := analyzeSetup_of_balanced (balanced_tokensOf hwf) htokens
  exact ⟨facts, hfacts, hexposes⟩

/-- **When the declared names are the exposed ones.**  Reading a block of declarations succeeds, and what it
exposes are the names that the block declares exactly if the block reads right. -/
theorem analyzeSetup_exposes_iff {source : String} {ds : List Declarator} (hblock : IsBlock ds)
    (htokens : tokenize source = .ok (tokensOf ds)) :
    ∃ facts, analyzeSetup source = .ok facts ∧ (facts.exposes = namesOf ds ↔ ReadsRight ds) := by
  obtain ⟨facts, hfacts, hexposes⟩ := exists_analyzeSetup hblock.wellFormed htokens
  refine ⟨facts, hfacts, ?_⟩
  rw [hexposes]
  exact exposesOf_iff hblock (nodup_spansOf htokens)

/-! ## 5. Blocks on few lines -/

/-- A declarator on one line is quiet. -/
theorem quiet_of_one_line {ts : List Token} (h : ∀ t ∈ ts, t.newlineBefore = false)
    (previous : Option Token) : Quiet previous ts := by
  fun_induction Quiet previous ts with
  | case1 => trivial
  | case2 previous t ts _ ih =>
    refine ⟨fun hbreak => ?_, ih fun u hu => h u (unit_snd_subset t ts hu)⟩
    have ht := h t List.mem_cons_self
    cases previous <;> simp [breaksBefore, ht] at hbreak

/-- The declarations of `const { a, b: c = 1 } = f(), d = 2;`. -/
def unpacking : List Declarator :=
  [{ lead := ⟨.ident, "const", ⟨0, 5⟩, false⟩
     pattern := .group true ⟨.punct, "\x7b", ⟨6, 7⟩, false⟩
       (.more (.plain (.name ⟨.ident, "a", ⟨8, 9⟩, false⟩) []) ⟨.punct, ",", ⟨9, 10⟩, false⟩
         (.last (.keyed [⟨.ident, "b", ⟨11, 12⟩, false⟩] ⟨.punct, ":", ⟨12, 13⟩, false⟩
           (.name ⟨.ident, "c", ⟨14, 15⟩, false⟩)
           [⟨.punct, "=", ⟨16, 17⟩, false⟩, ⟨.number, "1", ⟨18, 19⟩, false⟩])))
       ⟨.punct, "\x7d", ⟨20, 21⟩, false⟩
     rest := [⟨.punct, "=", ⟨22, 23⟩, false⟩, ⟨.ident, "f", ⟨24, 25⟩, false⟩,
       ⟨.punct, "(", ⟨25, 26⟩, false⟩, ⟨.punct, ")", ⟨26, 27⟩, false⟩]
     semicolon := none },
   { lead := ⟨.punct, ",", ⟨27, 28⟩, false⟩
     pattern := .name ⟨.ident, "d", ⟨29, 30⟩, false⟩
     rest := [⟨.punct, "=", ⟨31, 32⟩, false⟩, ⟨.number, "2", ⟨33, 34⟩, false⟩]
     semicolon := some ⟨.punct, ";", ⟨34, 35⟩, false⟩ }]

theorem isBlock_unpacking : IsBlock unpacking := by
  refine ⟨List.forall_mem_cons.2 ⟨?_, List.forall_mem_cons.2 ⟨?_, by simp⟩⟩, ?_, by simp [unpacking]; decide⟩
  · refine ⟨.inl (by decide), ?_, ?_, ?_, quiet_of_one_line (by decide) _, by simp⟩
    · refine ⟨by decide, by decide, ⟨⟨by decide, by decide⟩, .inl rfl⟩, by decide, rfl, ?_, by decide,
        ⟨by decide, by decide⟩, ?_⟩
      · exact ⟨.single (by decide) (by decide), .inr ⟨_, rfl, by decide⟩⟩
      · exact .inr ⟨_, _, rfl, by decide, balanced_of_no_bracket (by decide)⟩
    · refine .cons (by decide) (by decide) (.cons (by decide) (by decide) ?_)
      exact @Balanced.group _ _ [] [] (by decide) (by decide) .nil .nil
    · simp [Lacks, breakAt, unit, splitGroup?, Token.isOpener, Token.closer?, Token.isPunct, Token.isCloser]
  · refine ⟨.inr (by decide), ⟨by decide, by decide⟩, balanced_of_no_bracket (by decide),
      by simp [Lacks, breakAt, unit, Token.isOpener, Token.closer?, Token.isPunct],
      quiet_of_one_line (by decide) _, ?_⟩
    rintro _ ⟨⟩
    decide
  · refine List.isChain_cons_cons.2 ⟨?_, List.IsChain.singleton _⟩
    rw [Declarator.Before, if_neg (by decide)]

theorem readsRight_unpacking : ReadsRight unpacking := by
  have habsorb : absorb unpacking = unpacking.map fun d => (d, []) := rfl
  rw [ReadsRight, habsorb, unpacking, List.map_cons, List.map_cons, ReadRightFrom, ReadRightFrom,
    if_pos (by decide +kernel), if_pos (by decide +kernel)]
  refine ⟨⟨?_, by decide +kernel, rfl⟩, ⟨?_, by decide +kernel, rfl⟩, trivial⟩
  · rw [if_pos (by decide +kernel)]
    exact ⟨⟨trivial, by decide +kernel⟩, trivial, by decide +kernel⟩
  · rw [if_pos (by decide +kernel)]
    trivial

/-- The theorem at `const { a, b: c = 1 } = f(), d = 2;`, which reads right. -/
theorem exposes_unpacking : IsBlock unpacking ∧
    tokenize "const \x7b a, b: c = 1 \x7d = f(), d = 2;" = .ok (tokensOf unpacking) ∧
    ReadsRight unpacking ∧
    ∃ facts, analyzeSetup "const \x7b a, b: c = 1 \x7d = f(), d = 2;" = .ok facts ∧
      (facts.exposes = namesOf unpacking ↔ ReadsRight unpacking) := by
  have htokens : tokenize "const \x7b a, b: c = 1 \x7d = f(), d = 2;" = .ok (tokensOf unpacking) := by
    decide +kernel
  have hread := analyzeSetup_exposes_iff isBlock_unpacking htokens
  exact ⟨isBlock_unpacking, htokens, readsRight_unpacking, hread⟩

/-- The declaration of `const x: number = 1`. -/
def typedValue : List Declarator :=
  [{ lead := ⟨.ident, "const", ⟨0, 5⟩, false⟩
     pattern := .name ⟨.ident, "x", ⟨6, 7⟩, false⟩
     rest := [⟨.punct, ":", ⟨7, 8⟩, false⟩, ⟨.ident, "number", ⟨9, 15⟩, false⟩,
       ⟨.punct, "=", ⟨16, 17⟩, false⟩, ⟨.number, "1", ⟨18, 19⟩, false⟩]
     semicolon := none }]

theorem isBlock_typedValue : IsBlock typedValue := by
  refine ⟨List.forall_mem_cons.2 ⟨?_, by simp⟩, List.IsChain.singleton _, by simp [typedValue]; decide⟩
  exact ⟨.inl (by decide), ⟨by decide, by decide⟩, balanced_of_no_bracket (by decide),
    by simp [Lacks, breakAt, unit, Token.isOpener, Token.closer?, Token.isPunct],
    quiet_of_one_line (by decide) _, by simp⟩

/-- A name with a type and a value is declared and not exposed. -/
theorem not_exposes_typedValue : IsBlock typedValue ∧
    tokenize "const x: number = 1" = .ok (tokensOf typedValue) ∧
    ¬ ∃ facts, analyzeSetup "const x: number = 1" = .ok facts ∧ facts.exposes = namesOf typedValue := by
  have htokens : tokenize "const x: number = 1" = .ok (tokensOf typedValue) := by decide +kernel
  refine ⟨isBlock_typedValue, htokens, ?_⟩
  rintro ⟨facts, hfacts, hexposes⟩
  obtain ⟨facts', hfacts', hread⟩ := exists_analyzeSetup isBlock_typedValue.wellFormed htokens
  rw [hfacts] at hfacts'
  cases hfacts'
  have hnothing : exposesOf (tokensOf typedValue) = [] := by decide +kernel
  rw [hread, hnothing] at hexposes
  exact absurd hexposes (by decide)

end ComponentLens.Script
