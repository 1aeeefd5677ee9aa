/-
# Tokens and the spans made of them

Every span that the analysis of a logic block hands out is made of ends of tokens.  So it is enough to know
where tokens stand: each at its span (`tokenize_reads`), one behind the other (`tokenize_ordered`).

The other half says that no reader makes up a place.  It is stated for any property of offsets that holds at
both ends of every token (`EndsAt`): all spans of the facts then have the property at both ends
(`analyzeSetup_endsAt`, `analyzeScript_endsAt`).  Readers that return tokens return tokens that they were
given, and that is all their lemmas say.
-/
import ComponentLens.Proofs.Text.Reads
import ComponentLens.Script.Analysis

namespace ComponentLens.Script

/-! ## 1. Where tokens stand -/

/-- A piece and its rest make up the text that it is read from. -/
theorem readPiece_split {pos : Nat} {previous : Option Token} {c : Char} {cs : List Char} {p : Piece}
    (h : readPiece pos previous c cs = .ok p) : p.taken ++ p.rest = c :: cs := by
  obtain ⟨tail, htaken, hrest⟩ := readPiece_append h
  rw [htaken, List.cons_append, hrest]

/-- The tokens of a text stand in it, and none of them in front of where reading starts. -/
theorem tokensFrom_reads {pos : Nat} {previous : Option Token} {broken : Bool} {cs before : List Char}
    {ts : List Token} (hpos : byteLength before = pos) (h : tokensFrom pos previous broken cs = .ok ts) :
    ∀ t ∈ ts, t.span.Reads (before ++ cs) t.text.toList ∧ pos ≤ t.span.start := by
  fun_induction tokensFrom pos previous broken cs generalizing before ts with
  | case1 => simp_all
  | case2 => simp_all
  | case3 pos previous broken c cs piece hread _ stop _ =>
    rename_i ih
    have hcs := readPiece_split hread
    have hstop : byteLength (before ++ piece.taken) = stop := by simp [stop, hpos]
    intro t hmem
    have ht := ih hstop h t hmem
    rw [List.append_assoc, hcs] at ht
    exact ⟨ht.1, by omega⟩
  | case4 pos previous broken c cs piece hread _ stop _ kind _ =>
    rename_i token ih
    obtain ⟨rest, hrest, rfl⟩ := map_eq_ok.1 h
    have hcs := readPiece_split hread
    have hstop : byteLength (before ++ piece.taken) = stop := by simp [stop, hpos]
    intro t hmem
    rcases List.mem_cons.1 hmem with rfl | hmem
    · refine ⟨⟨before, piece.rest, ?_, ?_⟩, Nat.le_refl _⟩
      · simp [token, hcs]
      · simp [token, stop, hpos]
    · have ht := ih hstop hrest t hmem
      rw [List.append_assoc, hcs] at ht
      exact ⟨ht.1, by omega⟩

/-- **Every token stands at its span.** -/
theorem tokenize_reads {source : String} {ts : List Token} (h : tokenize source = .ok ts) :
    ∀ t ∈ ts, t.span.Reads source.toList t.text.toList := by
  intro t hmem
  have hempty : byteLength [] = 0 := rfl
  simpa using (tokensFrom_reads hempty h t hmem).1

/-- The tokens stand one behind the other, and each takes up some room. -/
theorem tokensFrom_ordered {pos : Nat} {previous : Option Token} {broken : Bool} {cs : List Char}
    {ts : List Token} (h : tokensFrom pos previous broken cs = .ok ts) :
    ts.Pairwise (fun t u => t.span.stop ≤ u.span.start) ∧ ∀ t ∈ ts, t.span.start < t.span.stop ∧
      pos ≤ t.span.start := by
  fun_induction tokensFrom pos previous broken cs generalizing ts with
  | case1 => simp_all
  | case2 => simp_all
  | case3 pos previous broken c cs piece hread _ stop _ _ =>
    rename_i ih
    obtain ⟨hordered, hroom⟩ := ih h
    exact ⟨hordered, fun t hmem => ⟨(hroom t hmem).1, by have := (hroom t hmem).2; omega⟩⟩
  | case4 pos previous broken c cs piece hread _ stop _ kind _ token =>
    rename_i ih
    obtain ⟨rest, hrest, rfl⟩ := map_eq_ok.1 h
    obtain ⟨hordered, hroom⟩ := ih hrest
    obtain ⟨tail, htaken, -⟩ := readPiece_append hread
    have hsize := c.utf8Size_pos
    have hstop : stop = pos + (c.utf8Size + byteLength tail) := by simp [stop, htaken]
    refine ⟨List.pairwise_cons.2 ⟨fun t hmem => (hroom t hmem).2, hordered⟩, fun t hmem => ?_⟩
    rcases List.mem_cons.1 hmem with rfl | hmem
    · exact ⟨by simp only [token]; omega, Nat.le_refl _⟩
    · exact ⟨(hroom t hmem).1, by have := (hroom t hmem).2; omega⟩

/-- **Tokens stand in order.** -/
theorem tokenize_ordered {source : String} {ts : List Token} (h : tokenize source = .ok ts) :
    ts.Pairwise (fun t u => t.span.stop ≤ u.span.start) ∧ ∀ t ∈ ts, t.span.start < t.span.stop :=
  ⟨(tokensFrom_ordered h).1, fun t hmem => ((tokensFrom_ordered h).2 t hmem).1⟩

/-! ## 2. Readers return what they are given

In the order in which they are given it, so what holds between neighbouring tokens of a block holds between
those of any part that a reader hands out. -/

theorem unit_fst_sublist (t : Token) (ts : List Token) : (unit t ts).1.Sublist (t :: ts) := by
  rw [← unit_append t ts]
  exact List.sublist_append_left _ _

theorem unit_snd_sublist (t : Token) (ts : List Token) : (unit t ts).2.Sublist (t :: ts) := by
  rw [← unit_append t ts]
  exact List.sublist_append_right _ _

theorem unit_fst_subset (t : Token) (ts : List Token) : (unit t ts).1 ⊆ t :: ts :=
  (unit_fst_sublist t ts).subset

theorem unit_snd_subset (t : Token) (ts : List Token) : (unit t ts).2 ⊆ t :: ts :=
  (unit_snd_sublist t ts).subset

theorem splitGroup?_subset {depth : Nat} {ts inside after : List Token} {closer : Token}
    (h : splitGroup? depth ts = some (inside, closer, after)) : inside ⊆ ts ∧ closer ∈ ts ∧ after ⊆ ts := by
  rw [← splitGroup?_append h]
  refine ⟨by simp, by simp, fun t hmem => by simp [hmem]⟩

theorem group?_sublist {opener : String} {ts inside : List Token} (h : group? opener ts = some inside) :
    inside.Sublist ts := by
  cases ts with
  | nil => simp [group?] at h
  | cons t ts =>
    simp only [group?] at h
    split at h
    · split at h
      next hsplit =>
        cases h
        rw [← splitGroup?_append hsplit]
        exact (List.sublist_append_left _ _).cons _
      · simp at h
    · simp at h

theorem breakAt_sublist (separator : String) (ts : List Token) :
    (breakAt separator ts).1.Sublist ts ∧
      ∀ rest, (breakAt separator ts).2 = some rest → rest.Sublist ts := by
  fun_induction breakAt separator ts with
  | case1 => simp
  | case2 t ts h => simp
  | case3 t ts h _ before after hbreak ih =>
    rw [hbreak] at ih
    refine ⟨?_, fun rest hrest => (ih.2 rest hrest).trans (unit_snd_sublist t ts)⟩
    have hwhole := (List.Sublist.refl (unit t ts).1).append ih.1
    rwa [unit_append] at hwhole

theorem breakAt_subset (separator : String) (ts : List Token) :
    (breakAt separator ts).1 ⊆ ts ∧ ∀ rest, (breakAt separator ts).2 = some rest → rest ⊆ ts :=
  ⟨(breakAt_sublist separator ts).1.subset, fun rest h => ((breakAt_sublist separator ts).2 rest h).subset⟩

theorem splitAt_sublist {separator : String} {ts part : List Token} (h : part ∈ splitAt separator ts) :
    part.Sublist ts := by
  fun_induction splitAt separator ts with
  | case1 => simp at h
  | case2 ts whole hbreak =>
    have := (breakAt_sublist separator ts).1
    simp_all
  | case3 ts first rest hbreak _ ih =>
    have hsub := breakAt_sublist separator ts
    rw [hbreak] at hsub
    rcases List.mem_cons.1 h with rfl | h
    · exact hsub.1
    · exact (ih h).trans (hsub.2 rest rfl)

theorem splitAt_subset {separator : String} {ts part : List Token} (h : part ∈ splitAt separator ts) :
    part ⊆ ts := (splitAt_sublist h).subset

theorem before_subset (separator : String) (ts : List Token) : before separator ts ⊆ ts :=
  (breakAt_subset separator ts).1

theorem after?_sublist {separator : String} {ts rest : List Token} (h : after? separator ts = some rest) :
    rest.Sublist ts := (breakAt_sublist separator ts).2 rest h

theorem after?_subset {separator : String} {ts rest : List Token} (h : after? separator ts = some rest) :
    rest ⊆ ts := (after?_sublist h).subset

theorem splitStatement_sublist (previous : Option Token) (ts : List Token) :
    (splitStatement previous ts).1.Sublist ts ∧ (splitStatement previous ts).2.Sublist ts := by
  have hfirst := List.sublist_append_left (splitStatement previous ts).1 (splitStatement previous ts).2
  have hrest := List.sublist_append_right (splitStatement previous ts).1 (splitStatement previous ts).2
  rw [splitStatement_append] at hfirst hrest
  exact ⟨hfirst, hrest⟩

theorem splitStatement_subset (previous : Option Token) (ts : List Token) :
    (splitStatement previous ts).1 ⊆ ts ∧ (splitStatement previous ts).2 ⊆ ts :=
  ⟨(splitStatement_sublist previous ts).1.subset, (splitStatement_sublist previous ts).2.subset⟩

theorem statements_subset (ts : List Token) :
    ∀ s ∈ statements ts, s.tokens ⊆ ts ∧ s.after ⊆ ts := by
  fun_induction statements ts with
  | case1 => simp
  | case2 t ts _ ih =>
    intro s hmem
    exact ⟨List.subset_cons_of_subset _ (ih s hmem).1, List.subset_cons_of_subset _ (ih s hmem).2⟩
  | case3 t ts _ rest hsplit ih =>
    intro s hmem
    exact ⟨List.subset_cons_of_subset _ (ih s hmem).1, List.subset_cons_of_subset _ (ih s hmem).2⟩
  | case4 t ts _ first more rest hsplit ih =>
    have hsub := splitStatement_subset none (t :: ts)
    rw [hsplit] at hsub
    intro s hmem
    rcases List.mem_cons.1 hmem with rfl | hmem
    · exact hsub
    · exact ⟨List.Subset.trans (ih s hmem).1 hsub.2, List.Subset.trans (ih s hmem).2 hsub.2⟩

/-- No token belongs to two statements. -/
theorem statements_sublist (ts : List Token) : ((statements ts).flatMap (·.tokens)).Sublist ts := by
  fun_induction statements ts with
  | case1 => simp
  | case2 t ts _ ih => exact ih.cons t
  | case3 t ts _ rest hsplit ih => exact ih.cons t
  | case4 t ts _ first more rest hsplit ih =>
    have happ := splitStatement_append none (t :: ts)
    rw [hsplit] at happ
    have hwhole := (List.Sublist.refl (first :: more)).append ih
    rwa [happ] at hwhole

theorem singleIdent?_mem {ts : List Token} {name : Token} (h : singleIdent? ts = some name) :
    name ∈ ts := by
  unfold singleIdent? at h
  split at h
  · split at h
    · cases h
      simp
    · simp at h
  · simp at h

theorem elementTarget_subset (isObject : Bool) (element : List Token) :
    elementTarget isObject element ⊆ element := by
  have hvalue := before_subset "=" element
  unfold elementTarget
  dsimp only
  split
  · exact List.Subset.trans (List.tail_sublist _).subset hvalue
  · split
    · cases h : after? ":" (before "=" element) with
      | none => simpa using hvalue
      | some rest => simpa using List.Subset.trans (after?_subset h) hvalue
    · exact hvalue

theorem labelTarget?_sublist {isObject : Bool} {element target : List Token}
    (h : labelTarget? isObject element = some target) : target.Sublist element := by
  unfold labelTarget? at h
  split at h
  · cases h
    exact List.tail_sublist _
  · split at h
    · exact after?_sublist h
    · cases h
      exact List.Sublist.refl _

theorem patternParts?_sublist {ts part : List Token} {isObject : Bool} {parts : List (List Token)}
    (h : patternParts? ts = some (isObject, parts)) (hpart : part ∈ parts) : part.Sublist ts := by
  unfold patternParts? at h
  split at h
  next hgroup =>
    cases h
    exact (splitAt_sublist hpart).trans (group?_sublist hgroup)
  next =>
    obtain ⟨inside, hgroup, heq⟩ := Option.map_eq_some_iff.1 h
    cases heq
    exact (splitAt_sublist hpart).trans (group?_sublist hgroup)

theorem withoutSemicolon_sublist (ts : List Token) : (withoutSemicolon ts).Sublist ts := by
  unfold withoutSemicolon
  split
  · exact List.dropLast_sublist _
  · exact List.Sublist.refl _

theorem declaredPattern_subset (declarator : List Token) : declaredPattern declarator ⊆ declarator := by
  have hsub := (breakAt_subset "=" declarator).1
  unfold declaredPattern
  split
  next hbreak =>
    rw [hbreak] at hsub
    exact hsub
  · exact before_subset ":" declarator

/-! ## 3. The names that readers return -/

/-- All tokens stand between offsets with the property. -/
def TokensAt (P : Nat → Prop) (ts : List Token) : Prop := ∀ t ∈ ts, t.span.EndsAt P

variable {P : Nat → Prop}

theorem TokensAt.mono {ts us : List Token} (h : TokensAt P us) (hsub : ts ⊆ us) : TokensAt P ts :=
  fun t hmem => h t (hsub hmem)

/-- A span over tokens starts and stops at ends of tokens. -/
theorem spanOf_endsAt {ts : List Token} {at_ : Nat} (h : TokensAt P ts) (hat : P at_) :
    (spanOf ts at_).EndsAt P := by
  unfold spanOf
  split
  next first last hfirst hlast =>
    exact ⟨(h first (List.mem_of_head? hfirst)).1, (h last (List.mem_of_getLast? hlast)).2⟩
  · exact ⟨hat, hat⟩

/-- The names of a pattern are spans of its tokens. -/
theorem mem_boundNames {ts : List Token} {s : Span} (h : s ∈ boundNames ts) : ∃ t ∈ ts, t.span = s := by
  fun_induction boundNames ts with
  | case1 ts name hname =>
    obtain rfl : s = name.span := by simpa using h
    exact ⟨name, singleIdent?_mem hname, rfl⟩
  | case2 => simp at h
  | case3 ts _ isObject parts hparts ih =>
    obtain ⟨⟨part, hpart⟩, -, hmem⟩ := List.mem_flatMap.1 h
    obtain ⟨t, ht, rfl⟩ := ih part hpart hmem
    exact ⟨t, (patternParts?_sublist hparts hpart).subset (elementTarget_subset _ _ ht), rfl⟩

/-- The names of an import clause are spans of its tokens. -/
theorem mem_clauseNames {ts : List Token} {s : Span} (h : s ∈ clauseNames ts) :
    ∃ t ∈ ts, t.span = s := by
  fun_induction clauseNames ts with
  | case1 => simp at h
  | case2 => simp at h
  | case3 t ts _ _ _ group ih =>
    rcases List.mem_append.1 h with h | h
    · obtain ⟨specifier, hspecifier, hname⟩ := List.mem_filterMap.1 h
      unfold specifierName? at hname
      split at hname
      · simp at hname
      · obtain ⟨last, hlast, rfl⟩ := Option.map_eq_some_iff.1 hname
        have hlast := splitAt_subset hspecifier (List.mem_of_getLast? hlast)
        exact ⟨last, unit_fst_subset t ts (List.mem_of_mem_tail (List.dropLast_subset _ hlast)), rfl⟩
    · obtain ⟨u, hu, rfl⟩ := ih h
      exact ⟨u, unit_snd_subset t ts hu, rfl⟩
  | case4 t ts _ _ _ ih =>
    rcases List.mem_append.1 h with h | h
    · obtain ⟨u, hu, rfl⟩ := Option.map_eq_some_iff.1 (Option.mem_toList.1 h)
      exact ⟨u, List.mem_cons_of_mem _ (List.mem_of_getElem? hu), rfl⟩
    · obtain ⟨u, hu, rfl⟩ := ih h
      exact ⟨u, List.mem_cons_of_mem _ (List.mem_of_mem_drop hu), rfl⟩
  | case5 t ts _ _ _ _ ih =>
    rcases List.mem_cons.1 h with rfl | h
    · exact ⟨t, by simp, rfl⟩
    · obtain ⟨u, hu, rfl⟩ := ih h
      exact ⟨u, List.mem_cons_of_mem _ hu, rfl⟩
  | case6 t ts _ _ _ _ ih =>
    obtain ⟨u, hu, rfl⟩ := ih h
    exact ⟨u, List.mem_cons_of_mem _ hu, rfl⟩

/-- The variables of a labelled pattern are tokens of it. -/
theorem mem_labelVars {inRoot : Bool} {ts : List Token} {v : LabelVar} (h : v ∈ labelVars inRoot ts) :
    ∃ t ∈ ts, t.span = v.span ∧ t.text = v.name := by
  fun_induction labelVars inRoot ts with
  | case1 ts name hname =>
    obtain rfl : v = .ofToken false inRoot name := by simpa using h
    exact ⟨name, singleIdent?_mem hname, rfl, rfl⟩
  | case2 name =>
    obtain rfl : v = .ofToken false inRoot name := by simpa using h
    exact ⟨name, by simp, rfl, rfl⟩
  | case3 => simp at h
  | case4 => simp at h
  | case5 ts _ isObject parts hparts ih =>
    obtain ⟨⟨part, hpart⟩, -, hmem⟩ := List.mem_flatMap.1 h
    have hsub := (patternParts?_sublist hparts hpart).subset
    dsimp only at hmem
    split at hmem
    next target htarget =>
      obtain ⟨t, ht, heq⟩ := ih part hpart target htarget hmem
      exact ⟨t, hsub ((labelTarget?_sublist htarget).subset ht), heq⟩
    next =>
      obtain ⟨t, ht, rfl⟩ := Option.map_eq_some_iff.1 (Option.mem_toList.1 hmem)
      exact ⟨t, hsub (List.mem_of_head? (Option.filter_eq_some_iff.1 ht).1), rfl, rfl⟩

/-! ## 4. The spans of the facts -/

/-- The spans of a declaring call. -/
def DefineCall.spans (call : DefineCall) : List Span :=
  call.span :: (call.args.toList ++ call.typeArgs.toList)

/-- The spans of a labelled binding. -/
def LabelBinding.spans (b : LabelBinding) : List Span :=
  b.parent :: b.left :: (b.right.toList ++ b.vars.map (·.span))

/-- The spans of a labelled statement. -/
def RefLabel.spans (label : RefLabel) : List Span :=
  label.span :: label.label :: label.bindings.flatMap (·.spans)

/-- The spans of the facts about a setup block. -/
def SetupFacts.spans (facts : SetupFacts) : List Span :=
  facts.imports ++ facts.exposes ++ facts.labels.flatMap (·.spans) ++
    facts.defineProps.toList.flatMap (·.spans) ++ facts.defineEmit.toList.flatMap (·.spans)

/-- The spans of the facts about an ordinary block. -/
def ScriptFacts.spans (facts : ScriptFacts) : List Span :=
  facts.exportDefault.toList.flatMap fun e => e.span :: e.options.toList

theorem getD_endsAt {parent : Option Span} {s : Span} (hparent : ∀ p ∈ parent, p.EndsAt P) (hs : s.EndsAt P) :
    (parent.getD s).EndsAt P := by
  cases parent with
  | none => exact hs
  | some p => exact hparent p rfl

theorem labelBindings_endsAt {parent : Option Span} {inRoot : Bool} {ts : List Token}
    (hparent : ∀ p ∈ parent, p.EndsAt P) (h : TokensAt P ts) (h0 : P 0) :
    ∀ b ∈ labelBindings parent inRoot ts, ∀ s ∈ b.spans, s.EndsAt P := by
  fun_induction labelBindings parent inRoot ts with
  | case1 parent ts inside hgroup parent' ih =>
    intro b hb
    obtain ⟨⟨part, hpart⟩, -, hmem⟩ := List.mem_flatMap.1 hb
    refine ih part hpart ?_ (h.mono ((splitAt_sublist hpart).trans (group?_sublist hgroup)).subset) b hmem
    rintro p ⟨⟩
    exact getD_endsAt hparent (spanOf_endsAt h h0)
  | case2 parent ts _ left right hbreak =>
    have hsub := breakAt_subset "=" ts
    rw [hbreak] at hsub
    have hleft := h.mono hsub.1
    have hright := h.mono (hsub.2 right rfl)
    intro b hb
    obtain rfl := List.mem_singleton.1 hb
    simp only [LabelBinding.spans, List.mem_cons, List.mem_append, List.mem_map]
    rintro s (rfl | rfl | hs | ⟨v, hv, rfl⟩)
    · exact getD_endsAt hparent (spanOf_endsAt h h0)
    · refine spanOf_endsAt hleft ?_
      change P ((ts.head?.map (·.span.start)).getD 0)
      cases hhead : ts.head? with
      | none => exact h0
      | some t => exact (h t (List.mem_of_head? hhead)).1
    · split at hs
      · simp at hs
      · obtain rfl : s = spanOf right 0 := by simpa using hs
        exact spanOf_endsAt hright h0
    · obtain ⟨t, ht, heq, -⟩ := mem_labelVars hv
      exact heq ▸ hleft t ht
  | case3 parent ts _ _ _ name hname =>
    simpa [LabelBinding.spans, LabelVar.ofToken] using h name (singleIdent?_mem hname)
  | case4 => simp

theorem RefLabel.read?_endsAt {before ts : List Token} {label : RefLabel}
    (hread : RefLabel.read? before ts = some label) (h : TokensAt P ts) (h0 : P 0) :
    ∀ s ∈ label.spans, s.EndsAt P := by
  unfold RefLabel.read? at hread
  split at hread
  next ref colon rest =>
    split at hread
    · cases hread
      have hstatement : TokensAt P (splitStatement none rest).1 := h.mono fun u hu =>
        List.mem_cons_of_mem _ (List.mem_cons_of_mem _ ((splitStatement_subset none rest).1 hu))
      have hwhole : TokensAt P (ref :: colon :: (splitStatement none rest).1) := by
        intro u hu
        rcases List.mem_cons.1 hu with rfl | hu
        · exact h u (by simp)
        rcases List.mem_cons.1 hu with rfl | hu
        · exact h u (by simp)
        · exact hstatement u hu
      simp only [RefLabel.spans, List.mem_cons, List.mem_flatMap]
      rintro s (rfl | rfl | ⟨b, ⟨part, hpart, hb⟩, hs⟩)
      · exact spanOf_endsAt hwhole h0
      · exact h ref (by simp)
      · refine labelBindings_endsAt (by simp) (hstatement.mono ?_) h0 b hb s hs
        exact ((splitAt_sublist hpart).trans (withoutSemicolon_sublist _)).subset
    · simp at hread
  · simp at hread

theorem refLabelsFrom_endsAt {before ts : List Token} (h : TokensAt P ts) (h0 : P 0) :
    ∀ l ∈ refLabelsFrom before ts, ∀ s ∈ l.spans, s.EndsAt P := by
  induction ts generalizing before with
  | nil => simp [refLabelsFrom]
  | cons t ts ih =>
    intro l hl
    rcases List.mem_append.1 hl with hl | hl
    · exact RefLabel.read?_endsAt (Option.mem_toList.1 hl) h h0
    · exact ih (h.mono (List.subset_cons_self _ _)) l hl

/-- What is read up to the closing angle bracket, the bracket and the rest make up the tokens. -/
theorem splitAngle?_append {depth : Nat} {ts inside after : List Token} {closer : Token}
    (h : splitAngle? depth ts = some (inside, closer, after)) : inside ++ closer :: after = ts := by
  have hunit : ∀ {t ts depth inside},
      (∀ inside', splitAngle? depth (unit t ts).2 = some (inside', closer, after) →
        inside' ++ closer :: after = (unit t ts).2) →
      (splitAngle? depth (unit t ts).2).map (fun found => ((unit t ts).1 ++ found.1, found.2)) =
        some (inside, closer, after) →
      inside ++ closer :: after = t :: ts := by
    intro t ts depth inside ih hmap
    obtain ⟨⟨inside', r⟩, hr, heq⟩ := Option.map_eq_some_iff.1 hmap
    cases heq
    rw [List.append_assoc, ih _ hr, unit_append]
  fun_induction splitAngle? depth ts generalizing inside
  case case1 => simp at h
  case case2 ih => exact hunit (fun _ => ih _) h
  case case3 => cases h; rfl
  case case4 ih => exact hunit (fun _ => ih _) h
  case case5 => simp at h
  case case6 ih => exact hunit (fun _ => ih _) h

theorem DefineArgs.readList?_endsAt {name : Token} {typeArgs : Option Span} {typeTokens ts : List Token}
    {args : DefineArgs} (hread : DefineArgs.readList? name typeArgs typeTokens ts = some args)
    (hname : name.span.EndsAt P) (htype : ∀ s ∈ typeArgs, s.EndsAt P) (h : TokensAt P ts) (h0 : P 0) :
    ∀ s ∈ args.call.spans, s.EndsAt P := by
  unfold DefineArgs.readList? at hread
  split at hread
  · simp at hread
  next t ts =>
    split at hread
    · obtain ⟨⟨inside, closer, after⟩, hsplit, heq⟩ := Option.map_eq_some_iff.1 hread
      cases heq
      have hsub := splitGroup?_subset hsplit
      have hinside : TokensAt P inside := h.mono (List.subset_cons_of_subset _ hsub.1)
      have hcloser := h closer (List.mem_cons_of_mem _ hsub.2.1)
      simp only [DefineCall.spans, List.mem_cons, List.mem_append, Option.mem_toList]
      rintro s (rfl | hs | hs)
      · exact ⟨hname.1, hcloser.2⟩
      · split at hs
        · simp at hs
        · cases hs
          refine spanOf_endsAt ?_ h0
          cases hfirst : (splitAt "," inside).head? with
          | none => simp [TokensAt]
          | some first => exact hinside.mono (splitAt_subset (List.mem_of_head? hfirst))
      · exact htype s hs
    · simp at hread

theorem DefineArgs.read?_endsAt {name : Token} {ts : List Token} {args : DefineArgs}
    (hread : DefineArgs.read? name ts = some args) (hname : name.span.EndsAt P) (h : TokensAt P ts)
    (h0 : P 0) : ∀ s ∈ args.call.spans, s.EndsAt P := by
  unfold DefineArgs.read? at hread
  split at hread
  · obtain ⟨⟨inside, closer, rest⟩, hsplit, hlist⟩ := Option.bind_eq_some_iff.1 hread
    have htail : TokensAt P (inside ++ closer :: rest) := by
      rw [splitAngle?_append hsplit]
      exact h.mono (List.tail_sublist _).subset
    refine DefineArgs.readList?_endsAt hlist hname ?_ (htail.mono (by simp)) h0
    rintro s ⟨⟩
    exact spanOf_endsAt (htail.mono (by simp)) (htail closer (by simp)).1
  · exact DefineArgs.readList?_endsAt hread hname (by simp) h h0

theorem findDefine?_endsAt {names : List String} {previous : Option Token} {ts : List Token}
    {args : DefineArgs} (hfind : findDefine? names previous ts = some args) (h : TokensAt P ts) (h0 : P 0) :
    ∀ s ∈ args.call.spans, s.EndsAt P := by
  induction ts generalizing previous with
  | nil => simp [findDefine?] at hfind
  | cons t ts ih =>
    have hts : TokensAt P ts := h.mono (List.subset_cons_self _ _)
    unfold findDefine? at hfind
    dsimp only at hfind
    split at hfind
    · rcases Option.or_eq_some_iff.1 hfind with hread | ⟨-, hrest⟩
      · exact DefineArgs.read?_endsAt hread (h t (by simp)) hts h0
      · exact ih hrest hts
    · exact ih hfind hts

/-- What a statement adds to the facts are spans of its tokens and of the statement as a whole. -/
theorem Contribution.ofStatement_endsAt {statement : List Token} (h : TokensAt P statement) (h0 : P 0) :
    ∀ s ∈ (Contribution.ofStatement statement).imports ++ (Contribution.ofStatement statement).exposes,
      s.EndsAt P := by
  have hts : TokensAt P (if headIsIdent statement "export" then statement.tail else statement) := by
    split
    · exact h.mono (List.tail_sublist _).subset
    · exact h
  unfold Contribution.ofStatement
  dsimp only
  generalize (if headIsIdent statement "export" then statement.tail else statement) = ts at hts
  have htail : TokensAt P ts.tail := hts.mono (List.tail_sublist _).subset
  split
  · simp
  split
  · split
    · simp
    · simp only [List.singleton_append, List.mem_cons]
      rintro s (rfl | hs)
      · exact spanOf_endsAt h h0
      · unfold importNames at hs
        split at hs
        · simp at hs
        · obtain ⟨t, ht, rfl⟩ := mem_clauseNames hs
          exact htail t ht
  split
  · split
    · simp
    · rintro s hs
      obtain ⟨part, hpart, hs⟩ := List.mem_flatMap.1 (by simpa using hs)
      obtain ⟨t, ht, rfl⟩ := mem_boundNames hs
      exact htail t (splitAt_subset hpart (declaredPattern_subset part ht))
  split
  · intro s hs
    rw [List.nil_append, Option.mem_toList] at hs
    obtain ⟨t, ht, rfl⟩ := Option.map_eq_some_iff.1 hs
    have hmem : t ∈ fromDefinedName ts := List.mem_of_head? (Option.filter_eq_some_iff.1 ht).1
    exact hts t ((List.dropWhile_sublist _).subset hmem)
  · simp

theorem bind_eq_ok {α β : Type} {f : α → Except Fault β} {x : Except Fault α} {b : β} :
    (x >>= f) = .ok b ↔ ∃ a, x = .ok a ∧ f a = .ok b := by
  cases x <;> simp [bind, Except.bind]

theorem balancedTokens_eq_ok {source : String} {ts : List Token} (h : balancedTokens source = .ok ts) :
    tokenize source = .ok ts := by
  obtain ⟨us, htokens, hpairs⟩ := bind_eq_ok.1 h
  obtain ⟨partners, -, hreturn⟩ := bind_eq_ok.1 hpairs
  cases hreturn
  exact htokens

theorem tokensAt_of_balancedTokens {source : String} {ts : List Token} (h : balancedTokens source = .ok ts) :
    TokensAt (IsBoundary source.toList) ts := fun t hmem =>
  have hreads := tokenize_reads (balancedTokens_eq_ok h) t hmem
  ⟨hreads.isBoundary_start, hreads.isBoundary_stop⟩

/-- **The facts about a setup block cut no character.** -/
theorem analyzeSetup_endsAt {source : String} {facts : SetupFacts} (h : analyzeSetup source = .ok facts) :
    ∀ s ∈ facts.spans, s.EndsAt (IsBoundary source.toList) := by
  obtain ⟨ts, htokens, hreturn⟩ := bind_eq_ok.1 h
  cases hreturn
  have h0 := isBoundary_zero source.toList
  have hts := tokensAt_of_balancedTokens htokens
  have hpart : ∀ part ∈ (statements ts).map (Contribution.ofStatement ·.tokens),
      ∀ s ∈ part.imports ++ part.exposes, s.EndsAt (IsBoundary source.toList) := by
    intro part hpart
    obtain ⟨statement, hmem, rfl⟩ := List.mem_map.1 hpart
    exact Contribution.ofStatement_endsAt (hts.mono (statements_subset ts statement hmem).1) h0
  have hdefine : ∀ names, ∀ call ∈ ((findDefine? names none ts).map (·.call)).toList,
      ∀ s ∈ call.spans, s.EndsAt (IsBoundary source.toList) := by
    intro names call hcall
    obtain ⟨args, hargs, rfl⟩ := Option.map_eq_some_iff.1 (Option.mem_toList.1 hcall)
    exact findDefine?_endsAt hargs hts h0
  intro s hs
  simp only [SetupFacts.spans, List.mem_append, List.mem_flatMap] at hs
  rcases hs with (((⟨part, hmem, hs⟩ | ⟨part, hmem, hs⟩) | ⟨label, hmem, hs⟩) | ⟨call, hmem, hs⟩) |
    ⟨call, hmem, hs⟩
  · exact hpart part hmem s (List.mem_append_left _ hs)
  · exact hpart part hmem s (List.mem_append_right _ hs)
  · exact refLabelsFrom_endsAt hts h0 label hmem s hs
  · exact hdefine _ call hmem s hs
  · exact hdefine _ call hmem s hs

theorem leadingCallArgument?_subset {expr after rest : List Token}
    (h : leadingCallArgument? expr after = some rest) : rest ⊆ expr ++ after := by
  unfold leadingCallArgument? at h
  dsimp only at h
  split at h
  · simp at h
  · split at h
    · cases h
      refine List.Subset.trans (List.tail_sublist _).subset
        (List.append_subset.2 ⟨?_, List.subset_append_right _ _⟩)
      exact List.Subset.trans (List.dropWhile_sublist _).subset (List.subset_append_left _ _)
    · simp at h

theorem exportedOptions?_subset {expr after options : List Token}
    (h : exportedOptions? expr after = some options) : options ⊆ expr ++ after := by
  unfold exportedOptions? at h
  split at h
  · cases h
    exact List.subset_append_left _ _
  · obtain ⟨rest, hrest, h⟩ := Option.bind_eq_some_iff.1 h
    have hsub := leadingCallArgument?_subset hrest
    split at h
    · simp at h
    next t ts =>
      obtain ⟨⟨inside, closer, more⟩, hsplit, h⟩ := Option.bind_eq_some_iff.1 h
      cases h
      have hgroup := splitGroup?_subset hsplit
      intro u hu
      simp only [List.mem_cons, List.mem_append, List.not_mem_nil, or_false] at hu
      rcases hu with rfl | hu | rfl
      · exact hsub (by simp)
      · exact hsub (List.mem_cons_of_mem _ (hgroup.1 hu))
      · exact hsub (List.mem_cons_of_mem _ hgroup.2.1)

/-- **The facts about an ordinary block cut no character.** -/
theorem analyzeScript_endsAt {source : String} {facts : ScriptFacts}
    (h : analyzeScript source = .ok facts) : ∀ s ∈ facts.spans, s.EndsAt (IsBoundary source.toList) := by
  obtain ⟨ts, htokens, hreturn⟩ := bind_eq_ok.1 h
  cases hreturn
  have h0 := isBoundary_zero source.toList
  have hts := tokensAt_of_balancedTokens htokens
  intro s hs
  obtain ⟨e, he, hs⟩ := List.mem_flatMap.1 hs
  obtain ⟨statement, hlast, rfl⟩ := Option.map_eq_some_iff.1 (Option.mem_toList.1 he)
  have hmem := (List.mem_filter.1 (List.mem_of_getLast? hlast)).1
  obtain ⟨htokens, hafter⟩ := statements_subset ts statement hmem
  rcases List.mem_cons.1 hs with rfl | hs
  · exact spanOf_endsAt (hts.mono htokens) h0
  · obtain ⟨options, hoptions, rfl⟩ := Option.map_eq_some_iff.1 (Option.mem_toList.1 hs)
    refine spanOf_endsAt (hts.mono (List.Subset.trans (exportedOptions?_subset hoptions) ?_)) h0
    refine List.append_subset.2 ⟨?_, List.append_subset.2 ⟨?_, hafter⟩⟩
    · exact List.Subset.trans (withoutSemicolon_sublist _).subset (List.Subset.trans (List.drop_subset _ _) htokens)
    · exact List.Subset.trans (List.drop_subset _ _) htokens

end ComponentLens.Script
