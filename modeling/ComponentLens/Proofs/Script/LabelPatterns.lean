/-
# Patterns of labels and of declarations

A label may take a value apart with a pattern, as a declaration may, and two readers find the names:
`boundNames` for declarations, `labelVars` for labels.  They cut an element in different orders.  The reader
for declarations puts the default aside and looks for the colon of a key in what is left.  The reader for
labels looks for the colon first and leaves the default in place.

So a default matters to the reader for labels in two ways.  A colon in the default of a name without a key,
such as that of a conditional expression, is taken for the colon of a key.  And a pattern with a default is no
bracketed pattern any more, so nothing is read off it.  `labelVars_eq_boundNames_iff` says that there is
no third way: the readers find the same names exactly if neither happens (`Pattern.ReadAlike`).

As for declarations, no two tokens have the same span, so the readings agree exactly if they agree at each
element.
-/
import ComponentLens.Proofs.Script.ReadsRight

namespace ComponentLens.Script

/-! ## 1. Defaults -/

/-- Whether the pattern is a single name. -/
def Pattern.isName : Pattern → Bool
  | .name _ => true
  | .group _ _ _ _ => false

mutual

/-- In an object, an element without a key is a name, and no default holds a comma outside its brackets. -/
def Pattern.Proper : Pattern → Prop
  | .name _ => True
  | .group isObject _ elements _ => elements.Proper isObject

/-- Each element is proper. -/
def Elements.Proper (isObject : Bool) : Elements → Prop
  | .last element => element.Proper isObject
  | .more element _ others => element.Proper isObject ∧ others.Proper isObject

/-- The element is proper. -/
def Element.Proper (isObject : Bool) : Element → Prop
  | .hole => True
  | .rest _ target => target.Proper
  | .plain target byDefault =>
    (isObject = true → target.isName = true) ∧ target.Proper ∧ Lacks "," byDefault
  | .keyed _ _ target byDefault => target.Proper ∧ Lacks "," byDefault

end

mutual

/-- No default stands in the way of the reader for labels. -/
def Pattern.ReadAlike : Pattern → Prop
  | .name _ => True
  | .group isObject _ elements _ => elements.ReadAlike isObject

/-- No default of the elements stands in the way. -/
def Elements.ReadAlike (isObject : Bool) : Elements → Prop
  | .last element => element.ReadAlike isObject
  | .more element _ others => element.ReadAlike isObject ∧ others.ReadAlike isObject

/-- The default of a name without a key holds no colon outside its brackets.  Any other target has no
default, or is a name, or binds none. -/
def Element.ReadAlike (isObject : Bool) : Element → Prop
  | .hole => True
  | .rest _ target => target.ReadAlike
  | .plain target byDefault =>
    if isObject then Lacks ":" byDefault
    else if byDefault = [] then target.ReadAlike
    else target.isName = true ∨ target.names = []
  | .keyed _ _ target byDefault =>
    if byDefault = [] then target.ReadAlike else target.isName = true ∨ target.names = []

end

mutual

/-- Without commas in defaults there is nothing to stray to. -/
theorem Pattern.Proper.tight (p : Pattern) (h : p.Proper) : p.Tight := by
  cases p with
  | name t =>
    rw [Pattern.Tight]
    trivial
  | group isObject opener elements closer =>
    rw [Pattern.Proper] at h
    rw [Pattern.Tight]
    exact Elements.Proper.tight isObject elements h

/-- Without commas in the defaults of the elements there is nothing to stray to. -/
theorem Elements.Proper.tight (isObject : Bool) (es : Elements) (h : es.Proper isObject) :
    es.Tight isObject := by
  cases es with
  | last element =>
    rw [Elements.Proper] at h
    rw [Elements.Tight]
    exact Element.Proper.tight isObject element h
  | more element comma others =>
    rw [Elements.Proper] at h
    rw [Elements.Tight]
    exact ⟨Element.Proper.tight isObject element h.1, Elements.Proper.tight isObject others h.2⟩

/-- Without a comma in the default of the element there is nothing to stray to. -/
theorem Element.Proper.tight (isObject : Bool) (e : Element) (h : e.Proper isObject) : e.Tight isObject := by
  have hstrays : ∀ byDefault, Lacks "," byDefault → strays isObject byDefault = [] := by
    intro byDefault hlacks
    rw [strays, laterParts, hlacks]
    rfl
  cases e with
  | hole =>
    rw [Element.Tight]
    trivial
  | rest dots target =>
    rw [Element.Proper] at h
    rw [Element.Tight]
    exact Pattern.Proper.tight target h
  | plain target byDefault =>
    rw [Element.Proper] at h
    rw [Element.Tight]
    exact ⟨Pattern.Proper.tight target h.2.1, hstrays byDefault h.2.2⟩
  | keyed key colon target byDefault =>
    rw [Element.Proper] at h
    rw [Element.Tight]
    exact ⟨Pattern.Proper.tight target h.1, hstrays byDefault h.2⟩

end

/-! ## 2. Where names are read -/

theorem elementNames_subset (isObject : Bool) (element : List Token) :
    elementNames isObject element ⊆ spansOf element :=
  List.Subset.trans (boundNames_subset _) (spansOf_subset (elementTarget_subset isObject element))

/-- The names of elements stand in their tokens. -/
theorem Elements.names_subset {isObject : Bool} {es : Elements} (h : es.WellFormed isObject) :
    es.names ⊆ spansOf es.tokens := by
  refine List.Subset.trans (es.readParts_tokens isObject h.shaped).1.subset fun s hs => ?_
  obtain ⟨part, hpart, hs⟩ := List.mem_flatMap.1 hs
  exact spansOf_subset (splitAt_subset hpart) (elementNames_subset isObject part hs)

theorem Element.names_subset {isObject : Bool} {e : Element} (h : e.WellFormed isObject) :
    e.names ⊆ spansOf e.tokens := by
  have hone : (Elements.last e).WellFormed isObject := by rwa [Elements.WellFormed]
  have hsub := Elements.names_subset hone
  rwa [Elements.names, Elements.tokens] at hsub

/-- The places of variables. -/
def varSpans (vars : List LabelVar) : List Span := vars.map (·.span)

@[simp] theorem varSpans_nil : varSpans [] = [] := rfl

@[simp] theorem varSpans_append (xs ys : List LabelVar) :
    varSpans (xs ++ ys) = varSpans xs ++ varSpans ys := List.map_append

theorem labelVars_subset (inRoot : Bool) (ts : List Token) :
    varSpans (labelVars inRoot ts) ⊆ spansOf ts := by
  intro s hs
  obtain ⟨v, hv, rfl⟩ := List.mem_map.1 hs
  obtain ⟨t, ht, hspan, -⟩ := mem_labelVars hv
  exact hspan ▸ List.mem_map_of_mem ht

/-! ## 3. Reading an element -/

/-- The variables that a label takes from an element of a pattern. -/
def elementVars (inRoot isObject : Bool) (element : List Token) : List LabelVar :=
  match labelTarget? isObject element with
  | some target => labelVars inRoot target
  | none => ((element.head?.filter (·.kind == .ident)).map (.ofToken true inRoot)).toList

section

variable {inRoot isObject : Bool}

theorem elementVars_of_target {element target : List Token} (h : labelTarget? isObject element = some target) :
    elementVars inRoot isObject element = labelVars inRoot target := by
  rw [elementVars, h]

@[simp] theorem elementVars_nil : elementVars inRoot isObject [] = [] := by
  cases isObject with
  | true => simp [elementVars, labelTarget?, headIsPunct, after?, breakAt]
  | false =>
    have htarget : labelTarget? false [] = some [] := by simp [labelTarget?, headIsPunct]
    rw [elementVars_of_target htarget, labelVars]
    simp [singleIdent?, patternParts?, group?]

theorem elementVars_subset (element : List Token) :
    varSpans (elementVars inRoot isObject element) ⊆ spansOf element := by
  unfold elementVars
  split
  next target htarget =>
    exact List.Subset.trans (labelVars_subset inRoot target)
      (spansOf_subset (labelTarget?_sublist htarget).subset)
  next =>
    intro s hs
    obtain ⟨v, hv, rfl⟩ := List.mem_map.1 hs
    obtain ⟨t, ht, rfl⟩ := Option.map_eq_some_iff.1 (Option.mem_toList.1 hv)
    exact List.mem_map_of_mem (List.mem_of_head? (Option.filter_eq_some_iff.1 ht).1)

/-- The variables of a bracketed pattern are those of its elements. -/
theorem labelVars_group {opener closer : Token} {inside : List Token}
    (ho : opener.isPunct (if isObject then "\x7b" else "[") = true)
    (hc : closer.isPunct (if isObject then "\x7d" else "]") = true) (hinside : Balanced inside) :
    labelVars inRoot (opener :: (inside ++ [closer])) =
      readParts (elementVars inRoot isObject) "," inside := by
  have hsingle := singleIdent?_group opener closer inside
  have hparts := patternParts?_group ho hc hinside
  conv => lhs; unfold labelVars
  split
  next hname => simp [hsingle] at hname
  next =>
    split
    next hnone => simp [hparts] at hnone
    next isObject' parts hsome =>
      rw [hparts] at hsome
      cases hsome
      refine (List.flatMap_subtype (g := elementVars inRoot isObject) fun part hpart => ?_).trans ?_
      · unfold elementVars
        dsimp only
        split
        next target htarget => simp only [htarget]
        next htarget => simp only [htarget]
      · rw [List.unattach_attach, readParts]

/-- Tokens that are no pattern are read only if they start with a name and an equals sign. -/
theorem labelVars_of_not_pattern {first next : Token} {more : List Token}
    (h : patternParts? (first :: next :: more) = none) :
    labelVars inRoot (first :: next :: more) =
      if first.kind == .ident && next.isPunct "=" then [.ofToken false inRoot first] else [] := by
  conv => lhs; unfold labelVars
  split
  next hname => cases hname
  next =>
    split
    next => rfl
    next hsome => simp [h] at hsome

/-- A name with a default is read as the name, and a bracketed pattern with a default as nothing. -/
theorem labelVars_default {p : Pattern} (hp : p.WellFormed) {eq : Token} (heq : eq.isPunct "=" = true)
    (value : List Token) :
    varSpans (labelVars inRoot (p.tokens ++ eq :: value)) = if p.isName then p.names else [] := by
  cases p with
  | name t =>
    rw [Pattern.WellFormed] at hp
    have hpunct : ∀ text, t.isPunct text = false := fun text => by simp [Token.isPunct, hp.1]
    have hparts : patternParts? (t :: eq :: value) = none := by simp [patternParts?, group?, hpunct]
    rw [Pattern.tokens, List.singleton_append, labelVars_of_not_pattern hparts, hp.1, heq]
    rfl
  | group isObject opener elements closer =>
    rw [Pattern.WellFormed] at hp
    obtain ⟨ho, hc, helements⟩ := hp
    obtain ⟨hcloser, hkind⟩ := closer?_of_group ho hc
    have hend := splitGroup?_group hcloser hkind (elements.balanced isObject helements.shaped) (eq :: value)
    have hparts : patternParts? (opener :: (elements.tokens ++ closer :: eq :: value)) = none := by
      simp [patternParts?, group?, hend]
    have hword : (opener.kind == .ident) = false := by
      simp only [isPunct_iff] at ho
      rw [ho.1]
      rfl
    obtain ⟨next, more, hrest⟩ : ∃ next more, elements.tokens ++ closer :: eq :: value = next :: more :=
      List.exists_cons_of_ne_nil (by simp)
    rw [Pattern.tokens, List.cons_append, List.append_assoc, List.singleton_append]
    rw [hrest] at hparts ⊢
    rw [labelVars_of_not_pattern hparts, hword]
    rfl

/-- A target is read right behind which nothing stands, or if it does not matter what does. -/
theorem Pattern.targetVars_iff {p : Pattern} (hp : p.WellFormed) {byDefault : List Token}
    (hdefault : IsDefault byDefault)
    (hread : varSpans (labelVars inRoot p.tokens) = p.names ↔ p.ReadAlike) :
    varSpans (labelVars inRoot (p.tokens ++ byDefault)) = p.names ↔
      if byDefault = [] then p.ReadAlike else p.isName = true ∨ p.names = [] := by
  rcases hdefault with rfl | ⟨eq, value, rfl, heq, -⟩
  · rw [List.append_nil, if_pos rfl]
    exact hread
  · rw [labelVars_default hp heq, if_neg (List.cons_ne_nil eq value)]
    cases hname : p.isName with
    | true => exact iff_of_true rfl (.inl rfl)
    | false =>
      rw [if_neg Bool.false_ne_true, eq_comm]
      exact (or_iff_right Bool.false_ne_true).symm

theorem headIsPunct_append {ts us : List Token} {text : String} (hne : ts ≠ []) :
    headIsPunct (ts ++ us) text = headIsPunct ts text := by
  cases ts with
  | nil => exact absurd rfl hne
  | cons t ts => rfl

/-- Behind the colon of a key stands the target. -/
theorem labelTarget?_keyed {key : List Token} (hkey : IsKey key) {colon : Token}
    (hcolon : colon.isPunct ":" = true) (rest : List Token) :
    labelTarget? true (key ++ colon :: rest) = some rest := by
  have hdots : headIsPunct (key ++ colon :: rest) "..." = false :=
    (headIsPunct_append hkey.1.ne_nil).trans (hkey.headIsPunct_eq_false (by decide))
  have hafter : after? ":" (key ++ colon :: rest) = some rest := by
    rw [after?, hkey.1.breakAt_append (hkey.headIsPunct_eq_false (by decide)), breakAt_separator hcolon]
  simp only [labelTarget?, hdots, hafter, Bool.false_eq_true, if_false, if_true]

/-- A name without a key is read as one unless a colon stands in its default. -/
theorem nameVars_iff {t : Token} (ht : t.kind = .ident) {byDefault : List Token}
    (hdistinct : (spansOf (t :: byDefault)).Nodup) :
    varSpans (elementVars inRoot true (t :: byDefault)) = [t.span] ↔ Lacks ":" byDefault := by
  have hpunct : ∀ text, headIsPunct [t] text = false := fun text => by
    simp [headIsPunct, Token.isPunct, ht]
  have hdots : headIsPunct (t :: byDefault) "..." = false := hpunct "..."
  obtain ⟨hopener, hcloser⟩ := not_bracket_of_kind (t := t) (by rw [ht]; decide)
  have hbreak := (IsUnit.single hopener hcloser).breakAt_append (hpunct ":") byDefault
  have hafter : after? ":" (t :: byDefault) = (breakAt ":" byDefault).2 := by
    rw [after?, ← List.singleton_append, hbreak]
  cases hcolon : (breakAt ":" byDefault).2 with
  | none =>
    have htarget : labelTarget? true (t :: byDefault) = none := by
      simp only [labelTarget?, hdots, hafter, hcolon, Bool.false_eq_true, if_false, if_true]
    have hread : elementVars inRoot true (t :: byDefault) = [.ofToken true inRoot t] := by
      simp [elementVars, htarget, ht]
    rw [hread, Lacks, hcolon]
    exact iff_of_true rfl rfl
  | some after =>
    have htarget : labelTarget? true (t :: byDefault) = some after := by
      simp only [labelTarget?, hdots, hafter, hcolon, Bool.false_eq_true, if_false, if_true]
    have hbehind : varSpans (elementVars inRoot true (t :: byDefault)) ⊆ spansOf byDefault := by
      rw [elementVars_of_target htarget]
      exact List.Subset.trans (labelVars_subset inRoot after)
        (spansOf_subset ((breakAt_subset ":" byDefault).2 after hcolon))
    rw [Lacks, hcolon]
    refine iff_of_false (fun heq => ?_) (by simp)
    rw [heq] at hbehind
    exact (List.nodup_cons.1 hdistinct).1 (hbehind List.mem_cons_self)

/-! ## 4. Reading a pattern -/

/-- The elements of a pattern lack the comma that stands between them. -/
theorem Element.lacks_comma {e : Element} (h : e.WellFormed isObject) (hproper : e.Proper isObject) :
    Lacks "," e.tokens := by
  cases e with
  | hole => simp [Element.tokens, Lacks, breakAt]
  | rest dots target =>
    rw [Element.WellFormed] at h
    rw [Element.tokens]
    exact target.lacks_rest h.2.shaped h.1 (by decide) (by decide) (by decide)
  | plain target byDefault =>
    rw [Element.WellFormed] at h
    rw [Element.Proper] at hproper
    rw [Element.tokens, lacks_append (by decide) (target.isUnit h.1.shaped).balanced]
    exact ⟨target.lacks_tokens h.1.shaped (by decide) (by decide), hproper.2.2⟩
  | keyed key colon target byDefault =>
    rw [Element.WellFormed] at h
    rw [Element.Proper] at hproper
    obtain ⟨-, hkey, hcolon, htarget, -⟩ := h
    obtain ⟨hopener, hcloser⟩ := not_bracket_of_isPunct hcolon (by decide)
    have hbalanced : Balanced (key ++ colon :: target.tokens) :=
      hkey.1.balanced.append (.cons hopener hcloser (target.isUnit htarget.shaped).balanced)
    rw [Element.tokens, ← List.cons_append, ← List.append_assoc, lacks_append (by decide) hbalanced]
    exact ⟨target.lacks_keyed htarget.shaped hkey hcolon (by decide) (by decide) (by decide) (by decide), hproper.2⟩

mutual

/-- **The reader for labels finds the names of a pattern** exactly if no default stands in its way. -/
theorem Pattern.labelVars_iff (p : Pattern) (h : p.WellFormed) (hproper : p.Proper)
    (hdistinct : (spansOf p.tokens).Nodup) :
    varSpans (labelVars inRoot p.tokens) = p.names ↔ p.ReadAlike := by
  cases p with
  | name t =>
    rw [Pattern.WellFormed] at h
    have hread : labelVars inRoot [t] = [.ofToken false inRoot t] := by simp [labelVars, singleIdent?, h.1]
    rw [Pattern.tokens, Pattern.names, Pattern.ReadAlike, hread]
    exact iff_of_true rfl trivial
  | group isObject opener elements closer =>
    rw [Pattern.WellFormed] at h
    rw [Pattern.Proper] at hproper
    obtain ⟨ho, hc, helements⟩ := h
    rw [Pattern.tokens, spansOf_cons, spansOf_append] at hdistinct
    have hinside := (List.nodup_append.1 (List.nodup_cons.1 hdistinct).2).1
    rw [Pattern.tokens, Pattern.names, Pattern.ReadAlike,
      labelVars_group ho hc (elements.balanced isObject helements.shaped)]
    exact elements.labelVars_iff isObject helements hproper hinside

/-- The variables of the elements are read one element at a time. -/
theorem Elements.labelVars_iff (isObject : Bool) (es : Elements) (h : es.WellFormed isObject)
    (hproper : es.Proper isObject) (hdistinct : (spansOf es.tokens).Nodup) :
    varSpans (readParts (elementVars inRoot isObject) "," es.tokens) = es.names ↔ es.ReadAlike isObject := by
  cases es with
  | last element =>
    rw [Elements.WellFormed] at h
    rw [Elements.Proper] at hproper
    rw [Elements.tokens] at hdistinct
    rw [Elements.tokens, Elements.names, Elements.ReadAlike,
      readParts_of_lacks elementVars_nil (element.lacks_comma h hproper)]
    exact element.labelVars_iff isObject h hproper hdistinct
  | more element comma others =>
    rw [Elements.WellFormed] at h
    rw [Elements.Proper] at hproper
    obtain ⟨helement, hcomma, hothers⟩ := h
    rw [Elements.tokens, spansOf_append] at hdistinct
    obtain ⟨hfirst, hlater, hapart⟩ := List.nodup_append.1 hdistinct
    have hothersDistinct : (spansOf others.tokens).Nodup := (List.nodup_cons.1 hlater).2
    have hdisjoint : ∀ s ∈ spansOf element.tokens, s ∉ spansOf others.tokens :=
      fun s hs hmem => hapart s hs s (List.mem_cons_of_mem _ hmem) rfl
    have hvars : varSpans (readParts (elementVars inRoot isObject) "," others.tokens) ⊆
        spansOf others.tokens := by
      intro s hs
      obtain ⟨v, hv, rfl⟩ := List.mem_map.1 hs
      obtain ⟨part, hpart, hv⟩ := List.mem_flatMap.1 hv
      exact spansOf_subset (splitAt_subset hpart) (elementVars_subset part (List.mem_map_of_mem hv))
    rw [Elements.tokens, Elements.names, Elements.ReadAlike,
      readParts_append elementVars_nil (by decide) (element.balanced isObject helement.shaped) hcomma,
      readParts_of_lacks elementVars_nil (element.lacks_comma helement hproper.1), varSpans_append,
      append_eq_append_of_disjoint (elementVars_subset _) (Element.names_subset helement) hvars
        (Elements.names_subset hothers) hdisjoint,
      element.labelVars_iff isObject helement hproper.1 hfirst,
      others.labelVars_iff isObject hothers hproper.2 hothersDistinct]

/-- The variables of an element are read off its target. -/
theorem Element.labelVars_iff (isObject : Bool) (e : Element) (h : e.WellFormed isObject)
    (hproper : e.Proper isObject) (hdistinct : (spansOf e.tokens).Nodup) :
    varSpans (elementVars inRoot isObject e.tokens) = e.names ↔ e.ReadAlike isObject := by
  cases e with
  | hole =>
    rw [Element.tokens, Element.names, Element.ReadAlike, elementVars_nil]
    exact iff_of_true rfl trivial
  | rest dots target =>
    rw [Element.WellFormed] at h
    rw [Element.Proper] at hproper
    have htarget : labelTarget? isObject (dots :: target.tokens) = some target.tokens := by
      have hdots : headIsPunct (dots :: target.tokens) "..." = true := by simpa [headIsPunct] using h.1
      simp only [labelTarget?, hdots, if_true, List.tail_cons]
    rw [Element.tokens] at hdistinct
    rw [Element.tokens, Element.names, Element.ReadAlike, elementVars_of_target htarget]
    exact target.labelVars_iff h.2 hproper (List.nodup_cons.1 hdistinct).2
  | plain target byDefault =>
    rw [Element.WellFormed] at h
    rw [Element.Proper] at hproper
    obtain ⟨hname, hproper, -⟩ := hproper
    rw [Element.tokens] at hdistinct
    rw [Element.tokens, Element.names, Element.ReadAlike]
    cases isObject with
    | true =>
      cases target with
      | group => exact absurd (hname rfl) (by simp [Pattern.isName])
      | name t =>
        have ht := h.1
        rw [Pattern.WellFormed] at ht
        exact nameVars_iff ht.1 hdistinct
    | false =>
      have hdots : headIsPunct (target.tokens ++ byDefault) "..." = false :=
        (headIsPunct_append (target.isUnit h.1.shaped).ne_nil).trans
          (target.headIsPunct_tokens h.1.shaped (by decide) (by decide))
      have htarget : labelTarget? false (target.tokens ++ byDefault) = some (target.tokens ++ byDefault) := by
        simp only [labelTarget?, hdots, Bool.false_eq_true, if_false]
      rw [spansOf_append] at hdistinct
      rw [elementVars_of_target htarget, if_neg Bool.false_ne_true]
      exact target.targetVars_iff h.1 h.2
        (target.labelVars_iff h.1 hproper (List.nodup_append.1 hdistinct).1)
  | keyed key colon target byDefault =>
    rw [Element.WellFormed] at h
    rw [Element.Proper] at hproper
    obtain ⟨rfl, hkey, hcolon, htarget, hdefault⟩ := h
    rw [Element.tokens, spansOf_append, spansOf_cons, spansOf_append] at hdistinct
    have hinside := (List.nodup_append.1 (List.nodup_cons.1 (List.nodup_append.1 hdistinct).2.1).2).1
    rw [Element.tokens, Element.names, Element.ReadAlike,
      elementVars_of_target (labelTarget?_keyed hkey hcolon _)]
    exact target.targetVars_iff htarget hdefault (target.labelVars_iff htarget hproper.1 hinside)

end

end

/-- **Labels and declarations read a pattern alike** exactly if no colon stands in the default of a name
without a key, and no bracketed pattern with names in it has a default. -/
theorem labelVars_eq_boundNames_iff {source : String} {ts : List Token} (htokens : tokenize source = .ok ts)
    {p : Pattern} (hstands : p.tokens <:+: ts) (hp : p.WellFormed) (hproper : p.Proper) (inRoot : Bool) :
    (labelVars inRoot p.tokens).map (·.span) = boundNames p.tokens ↔ p.ReadAlike := by
  have hdistinct : (spansOf p.tokens).Nodup := (nodup_spansOf htokens).sublist (hstands.sublist.map _)
  have hnames : boundNames p.tokens = p.names := (p.boundNames_tokens hp).2.2 (Pattern.Proper.tight p hproper)
  rw [hnames]
  exact p.labelVars_iff hp hproper hdistinct

/-- The pattern of `ref: ({ a, b: [c = d ? e : f, ...g], h = 1 } = i())`. -/
def defaultsInBrackets : Pattern :=
  .group true ⟨.punct, "\x7b", ⟨6, 7⟩, false⟩
    (.more (.plain (.name ⟨.ident, "a", ⟨8, 9⟩, false⟩) []) ⟨.punct, ",", ⟨9, 10⟩, false⟩
      (.more (.keyed [⟨.ident, "b", ⟨11, 12⟩, false⟩] ⟨.punct, ":", ⟨12, 13⟩, false⟩
        (.group false ⟨.punct, "[", ⟨14, 15⟩, false⟩
          (.more (.plain (.name ⟨.ident, "c", ⟨15, 16⟩, false⟩)
              [⟨.punct, "=", ⟨17, 18⟩, false⟩, ⟨.ident, "d", ⟨19, 20⟩, false⟩, ⟨.punct, "?", ⟨21, 22⟩, false⟩,
                ⟨.ident, "e", ⟨23, 24⟩, false⟩, ⟨.punct, ":", ⟨25, 26⟩, false⟩,
                ⟨.ident, "f", ⟨27, 28⟩, false⟩]) ⟨.punct, ",", ⟨28, 29⟩, false⟩
            (.last (.rest ⟨.punct, "...", ⟨30, 33⟩, false⟩ (.name ⟨.ident, "g", ⟨33, 34⟩, false⟩))))
          ⟨.punct, "]", ⟨34, 35⟩, false⟩) []) ⟨.punct, ",", ⟨35, 36⟩, false⟩
        (.last (.plain (.name ⟨.ident, "h", ⟨37, 38⟩, false⟩)
          [⟨.punct, "=", ⟨39, 40⟩, false⟩, ⟨.number, "1", ⟨41, 42⟩, false⟩]))))
    ⟨.punct, "\x7d", ⟨43, 44⟩, false⟩

theorem isKey_single {t : Token} (h : t.kind ≠ .punct) : IsKey [t] :=
  ⟨.single (not_bracket_of_kind h).1 (not_bracket_of_kind h).2, .inr ⟨t, rfl, h⟩⟩

theorem wellFormed_defaultsInBrackets : defaultsInBrackets.WellFormed := by
  have hconditional : Balanced [⟨.ident, "d", ⟨19, 20⟩, false⟩, ⟨.punct, "?", ⟨21, 22⟩, false⟩,
    ⟨.ident, "e", ⟨23, 24⟩, false⟩, ⟨.punct, ":", ⟨25, 26⟩, false⟩, ⟨.ident, "f", ⟨27, 28⟩, false⟩] :=
    balanced_of_no_bracket (by decide)
  have hone : Balanced [⟨.number, "1", ⟨41, 42⟩, false⟩] := balanced_of_no_bracket (by decide)
  refine ⟨by decide, by decide, ⟨⟨by decide, by decide⟩, .inl rfl⟩, by decide,
    ⟨rfl, isKey_single (by decide), by decide, ⟨by decide, by decide, ?_, by decide, by decide, by decide, by decide⟩,
      .inl rfl⟩,
    by decide, ⟨by decide, by decide⟩, .inr ⟨_, _, rfl, by decide, hone⟩⟩
  exact ⟨⟨by decide, by decide⟩, .inr ⟨_, _, rfl, by decide, hconditional⟩⟩

/-- A default is in nobody's way behind a name in square brackets, and without a colon behind one in braces. -/
theorem labelVars_alike_defaultsInBrackets : ∃ ts,
    tokenize "ref: (\x7b a, b: [c = d ? e : f, ...g], h = 1 \x7d = i())" = .ok ts ∧
      defaultsInBrackets.tokens <:+: ts ∧ defaultsInBrackets.WellFormed ∧ defaultsInBrackets.Proper ∧
      defaultsInBrackets.ReadAlike ∧
      ((labelVars true defaultsInBrackets.tokens).map (·.span) = boundNames defaultsInBrackets.tokens ↔
        defaultsInBrackets.ReadAlike) := by
  have hproper : defaultsInBrackets.Proper := by
    simp only [defaultsInBrackets, Pattern.Proper, Elements.Proper, Element.Proper]
    decide +kernel
  have halike : defaultsInBrackets.ReadAlike := by
    simp only [defaultsInBrackets, Pattern.ReadAlike, Elements.ReadAlike, Element.ReadAlike]
    decide +kernel
  have htokens : tokenize "ref: (\x7b a, b: [c = d ? e : f, ...g], h = 1 \x7d = i())" =
      .ok ([⟨.ident, "ref", ⟨0, 3⟩, false⟩, ⟨.punct, ":", ⟨3, 4⟩, false⟩, ⟨.punct, "(", ⟨5, 6⟩, false⟩] ++
        defaultsInBrackets.tokens ++ [⟨.punct, "=", ⟨45, 46⟩, false⟩, ⟨.ident, "i", ⟨47, 48⟩, false⟩,
          ⟨.punct, "(", ⟨48, 49⟩, false⟩, ⟨.punct, ")", ⟨49, 50⟩, false⟩, ⟨.punct, ")", ⟨50, 51⟩, false⟩]) := by
    decide +kernel
  exact ⟨_, htokens, List.infix_append _ _ _, wellFormed_defaultsInBrackets, hproper, halike,
    labelVars_eq_boundNames_iff htokens (List.infix_append _ _ _) wellFormed_defaultsInBrackets hproper true⟩

/-- The pattern of `ref: ({ a = b ? c : d, e: { f } = {} } = g())`. -/
def defaultsInBraces : Pattern :=
  .group true ⟨.punct, "\x7b", ⟨6, 7⟩, false⟩
    (.more (.plain (.name ⟨.ident, "a", ⟨8, 9⟩, false⟩)
        [⟨.punct, "=", ⟨10, 11⟩, false⟩, ⟨.ident, "b", ⟨12, 13⟩, false⟩, ⟨.punct, "?", ⟨14, 15⟩, false⟩,
          ⟨.ident, "c", ⟨16, 17⟩, false⟩, ⟨.punct, ":", ⟨18, 19⟩, false⟩, ⟨.ident, "d", ⟨20, 21⟩, false⟩])
      ⟨.punct, ",", ⟨21, 22⟩, false⟩
      (.last (.keyed [⟨.ident, "e", ⟨23, 24⟩, false⟩] ⟨.punct, ":", ⟨24, 25⟩, false⟩
        (.group true ⟨.punct, "\x7b", ⟨26, 27⟩, false⟩
          (.last (.plain (.name ⟨.ident, "f", ⟨28, 29⟩, false⟩) [])) ⟨.punct, "\x7d", ⟨30, 31⟩, false⟩)
        [⟨.punct, "=", ⟨32, 33⟩, false⟩, ⟨.punct, "\x7b", ⟨34, 35⟩, false⟩,
          ⟨.punct, "\x7d", ⟨35, 36⟩, false⟩])))
    ⟨.punct, "\x7d", ⟨37, 38⟩, false⟩

/-- A label takes the last name of a conditional default for the variable, and no name from a pattern with a
default, where a declaration finds the two names of the pattern. -/
theorem not_labelVars_alike_defaultsInBraces : ∃ ts,
    tokenize "ref: (\x7b a = b ? c : d, e: \x7b f \x7d = \x7b\x7d \x7d = g())" = .ok ts ∧
      defaultsInBraces.tokens <:+: ts ∧ defaultsInBraces.WellFormed ∧ defaultsInBraces.Proper ∧
      (labelVars true defaultsInBraces.tokens).map (·.span) = [⟨20, 21⟩] ∧
      boundNames defaultsInBraces.tokens = [⟨8, 9⟩, ⟨28, 29⟩] := by
  have hconditional : Balanced [⟨.ident, "b", ⟨12, 13⟩, false⟩, ⟨.punct, "?", ⟨14, 15⟩, false⟩,
    ⟨.ident, "c", ⟨16, 17⟩, false⟩, ⟨.punct, ":", ⟨18, 19⟩, false⟩, ⟨.ident, "d", ⟨20, 21⟩, false⟩] :=
    balanced_of_no_bracket (by decide)
  have hempty : Balanced [⟨.punct, "\x7b", ⟨34, 35⟩, false⟩, ⟨.punct, "\x7d", ⟨35, 36⟩, false⟩] :=
    @Balanced.group _ _ [] [] (by decide) (by decide) .nil .nil
  have hwf : defaultsInBraces.WellFormed :=
    ⟨by decide, by decide, ⟨⟨by decide, by decide⟩, .inr ⟨_, _, rfl, by decide, hconditional⟩⟩, by decide,
      rfl, isKey_single (by decide), by decide,
      ⟨by decide, by decide, ⟨by decide, by decide⟩, .inl rfl⟩, .inr ⟨_, _, rfl, by decide, hempty⟩⟩
  have hproper : defaultsInBraces.Proper := by
    simp only [defaultsInBraces, Pattern.Proper, Elements.Proper, Element.Proper]
    decide +kernel
  have htokens : tokenize "ref: (\x7b a = b ? c : d, e: \x7b f \x7d = \x7b\x7d \x7d = g())" =
      .ok ([⟨.ident, "ref", ⟨0, 3⟩, false⟩, ⟨.punct, ":", ⟨3, 4⟩, false⟩, ⟨.punct, "(", ⟨5, 6⟩, false⟩] ++
        defaultsInBraces.tokens ++ [⟨.punct, "=", ⟨39, 40⟩, false⟩, ⟨.ident, "g", ⟨41, 42⟩, false⟩,
          ⟨.punct, "(", ⟨42, 43⟩, false⟩, ⟨.punct, ")", ⟨43, 44⟩, false⟩, ⟨.punct, ")", ⟨44, 45⟩, false⟩]) := by
    decide +kernel
  exact ⟨_, htokens, List.infix_append _ _ _, hwf, hproper, by decide +kernel, by decide +kernel⟩

end ComponentLens.Script
