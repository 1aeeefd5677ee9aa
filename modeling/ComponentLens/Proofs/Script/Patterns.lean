/-
# Patterns as they are written

`boundNames` reads the names off the tokens of a pattern.  Here a pattern is a tree (`Pattern`): a name, or
a bracketed list of elements with keys, defaults, holes and rest elements.  `Pattern.tokens` writes the tree
down and `Pattern.names` lists the names it binds, and the two are compared
(`Pattern.boundNames_tokens`): the reader finds exactly the names of the tree as long as the tree is `Tight`.

A default is any balanced run of tokens, so it may hold a comma between angle brackets, which are no
brackets to the reader.  What stands behind such a comma is then read as an element of its own, and a tree
is tight when no name is read there.
-/
import ComponentLens.Proofs.Script.Balanced

namespace ComponentLens.Script

/-! ## 1. Patterns -/

mutual

/-- What a declaration binds: a single name, or the parts of a value that is taken apart. -/
inductive Pattern where
  | name (t : Token)
  | group (isObject : Bool) (opener : Token) (elements : Elements) (closer : Token)

/-- The elements between the brackets of a pattern, with the commas between them.  A comma in front of the
closing bracket is followed by a hole. -/
inductive Elements where
  | last (element : Element)
  | more (element : Element) (comma : Token) (others : Elements)

/-- An element of a pattern. -/
inductive Element where
  | hole
  | rest (dots : Token) (target : Pattern)
  | plain (target : Pattern) (byDefault : List Token)
  | keyed (key : List Token) (colon : Token) (target : Pattern) (byDefault : List Token)

end

mutual

/-- The tokens of a pattern. -/
def Pattern.tokens : Pattern → List Token
  | .name t => [t]
  | .group _ opener elements closer => opener :: (elements.tokens ++ [closer])

/-- The tokens between the brackets. -/
def Elements.tokens : Elements → List Token
  | .last element => element.tokens
  | .more element comma others => element.tokens ++ comma :: others.tokens

/-- The tokens of an element. -/
def Element.tokens : Element → List Token
  | .hole => []
  | .rest dots target => dots :: target.tokens
  | .plain target byDefault => target.tokens ++ byDefault
  | .keyed key colon target byDefault => key ++ colon :: (target.tokens ++ byDefault)

end

mutual

/-- The names that a pattern binds, in the order of the source. -/
def Pattern.names : Pattern → List Span
  | .name t => [t.span]
  | .group _ _ elements _ => elements.names

/-- The names that the elements bind. -/
def Elements.names : Elements → List Span
  | .last element => element.names
  | .more element _ others => element.names ++ others.names

/-- The names that an element binds. -/
def Element.names : Element → List Span
  | .hole => []
  | .rest _ target => target.names
  | .plain target _ => target.names
  | .keyed _ _ target _ => target.names

end

/-- A default: nothing, or an equals sign and an expression. -/
def IsDefault (ts : List Token) : Prop :=
  ts = [] ∨ ∃ eq value, ts = eq :: value ∧ eq.isPunct "=" = true ∧ Balanced value

/-- A key: a word, a string or a number, or an expression in square brackets. -/
def IsKey (ts : List Token) : Prop :=
  IsUnit ts ∧ (headIsPunct ts "[" = true ∨ ∃ t, ts = [t] ∧ t.kind ≠ .punct)

mutual

/-- The tokens of the tree are those that the grammar of patterns asks for.  The word `enum` is reserved. -/
def Pattern.WellFormed : Pattern → Prop
  | .name t => t.kind = .ident ∧ t.text ≠ "enum"
  | .group isObject opener elements closer =>
    opener.isPunct (if isObject then "\x7b" else "[") = true ∧
      closer.isPunct (if isObject then "\x7d" else "]") = true ∧ elements.WellFormed isObject

/-- Each element is well-formed, and commas stand between them. -/
def Elements.WellFormed (isObject : Bool) : Elements → Prop
  | .last element => element.WellFormed isObject
  | .more element comma others =>
    element.WellFormed isObject ∧ comma.isPunct "," = true ∧ others.WellFormed isObject

/-- The element is well-formed.  Only the elements of an object have keys. -/
def Element.WellFormed (isObject : Bool) : Element → Prop
  | .hole => True
  | .rest dots target => dots.isPunct "..." = true ∧ target.WellFormed
  | .plain target byDefault => target.WellFormed ∧ IsDefault byDefault
  | .keyed key colon target byDefault =>
    isObject = true ∧ IsKey key ∧ colon.isPunct ":" = true ∧ target.WellFormed ∧ IsDefault byDefault

end

mutual

/-- The tokens of the tree are in the places where the reader looks for them.  A reserved word is as good a name
to it as any other. -/
def Pattern.Shaped : Pattern → Prop
  | .name t => t.kind = .ident
  | .group isObject opener elements closer =>
    opener.isPunct (if isObject then "\x7b" else "[") = true ∧
      closer.isPunct (if isObject then "\x7d" else "]") = true ∧ elements.Shaped isObject

/-- Each element is in its place, and commas stand between them. -/
def Elements.Shaped (isObject : Bool) : Elements → Prop
  | .last element => element.Shaped isObject
  | .more element comma others =>
    element.Shaped isObject ∧ comma.isPunct "," = true ∧ others.Shaped isObject

/-- The parts of the element are in their places. -/
def Element.Shaped (isObject : Bool) : Element → Prop
  | .hole => True
  | .rest dots target => dots.isPunct "..." = true ∧ target.Shaped
  | .plain target byDefault => target.Shaped ∧ IsDefault byDefault
  | .keyed key colon target byDefault =>
    isObject = true ∧ IsKey key ∧ colon.isPunct ":" = true ∧ target.Shaped ∧ IsDefault byDefault

end

mutual

theorem Pattern.WellFormed.shaped {p : Pattern} (h : p.WellFormed) : p.Shaped := by
  cases p with
  | name t =>
    rw [Pattern.WellFormed] at h
    rw [Pattern.Shaped]
    exact h.1
  | group isObject opener elements closer =>
    rw [Pattern.WellFormed] at h
    rw [Pattern.Shaped]
    exact ⟨h.1, h.2.1, h.2.2.shaped⟩

theorem Elements.WellFormed.shaped {isObject : Bool} {es : Elements} (h : es.WellFormed isObject) :
    es.Shaped isObject := by
  cases es with
  | last element =>
    rw [Elements.WellFormed] at h
    rw [Elements.Shaped]
    exact h.shaped
  | more element comma others =>
    rw [Elements.WellFormed] at h
    rw [Elements.Shaped]
    exact ⟨h.1.shaped, h.2.1, h.2.2.shaped⟩

theorem Element.WellFormed.shaped {isObject : Bool} {e : Element} (h : e.WellFormed isObject) :
    e.Shaped isObject := by
  cases e with
  | hole => rwa [Element.Shaped]
  | rest dots target =>
    rw [Element.WellFormed] at h
    rw [Element.Shaped]
    exact ⟨h.1, h.2.shaped⟩
  | plain target byDefault =>
    rw [Element.WellFormed] at h
    rw [Element.Shaped]
    exact ⟨h.1.shaped, h.2⟩
  | keyed key colon target byDefault =>
    rw [Element.WellFormed] at h
    rw [Element.Shaped]
    obtain ⟨hobject, hkey, hcolon, htarget, hdefault⟩ := h
    exact ⟨hobject, hkey, hcolon, htarget.shaped, hdefault⟩

end

/-! ## 2. Strays -/

/-- What the reader takes an element to bind. -/
def elementNames (isObject : Bool) (element : List Token) : List Span :=
  boundNames (elementTarget isObject element)

/-- The names read behind the commas of a default. -/
def strays (isObject : Bool) (byDefault : List Token) : List Span :=
  laterParts (elementNames isObject) "," byDefault

mutual

/-- No name is read behind a comma of a default. -/
def Pattern.Tight : Pattern → Prop
  | .name _ => True
  | .group isObject _ elements _ => elements.Tight isObject

/-- No name is read behind a comma of a default of the elements. -/
def Elements.Tight (isObject : Bool) : Elements → Prop
  | .last element => element.Tight isObject
  | .more element _ others => element.Tight isObject ∧ others.Tight isObject

/-- No name is read behind a comma of the default of the element, or of one inside it. -/
def Element.Tight (isObject : Bool) : Element → Prop
  | .hole => True
  | .rest _ target => target.Tight
  | .plain target byDefault => target.Tight ∧ strays isObject byDefault = []
  | .keyed _ _ target byDefault => target.Tight ∧ strays isObject byDefault = []

end

/-! ## 3. Patterns are units -/

theorem closer?_of_group {isObject : Bool} {opener closer : Token}
    (ho : opener.isPunct (if isObject then "\x7b" else "[") = true)
    (hc : closer.isPunct (if isObject then "\x7d" else "]") = true) :
    opener.closer? = some closer.text ∧ closer.kind = .punct := by
  simp only [isPunct_iff] at ho hc
  refine ⟨?_, hc.1⟩
  cases isObject with
  | true => simp_all [Token.closer?, Token.isPunct]
  | false => simp_all [Token.closer?, Token.isPunct]

theorem not_bracket_of_kind {t : Token} (h : t.kind ≠ .punct) :
    t.isOpener = false ∧ t.isCloser = false := by
  have hpunct := not_isPunct_of_kind h
  simp [Token.isOpener, Token.closer?, Token.isCloser, hpunct]

theorem IsDefault.balanced {ts : List Token} (h : IsDefault ts) : Balanced ts := by
  rcases h with rfl | ⟨eq, value, rfl, heq, hvalue⟩
  · exact .nil
  · obtain ⟨hopener, hcloser⟩ := not_bracket_of_isPunct heq (by decide)
    exact .cons hopener hcloser hvalue

theorem dots_not_bracket {t : Token} (h : t.isPunct "..." = true) :
    t.isOpener = false ∧ t.isCloser = false := by
  simp only [isPunct_iff] at h
  simp [Token.isOpener, Token.closer?, Token.isCloser, Token.isPunct, h.2]

mutual

/-- A pattern is one unit. -/
theorem Pattern.isUnit (p : Pattern) (h : p.Shaped) : IsUnit p.tokens := by
  cases p with
  | name t =>
    rw [Pattern.Shaped] at h
    obtain ⟨hopener, hcloser⟩ := not_bracket_of_kind (t := t) (by simp [h])
    rw [Pattern.tokens]
    exact .single hopener hcloser
  | group isObject opener elements closer =>
    rw [Pattern.Shaped] at h
    obtain ⟨ho, hc, helements⟩ := h
    obtain ⟨hcloser, hkind⟩ := closer?_of_group ho hc
    rw [Pattern.tokens]
    exact .group hcloser hkind (elements.balanced isObject helements)

/-- What stands between the brackets is balanced. -/
theorem Elements.balanced (isObject : Bool) (es : Elements) (h : es.Shaped isObject) :
    Balanced es.tokens := by
  cases es with
  | last element =>
    rw [Elements.Shaped] at h
    rw [Elements.tokens]
    exact element.balanced isObject h
  | more element comma others =>
    rw [Elements.Shaped] at h
    obtain ⟨helement, hcomma, hothers⟩ := h
    obtain ⟨hopener, hcloser⟩ := not_bracket_of_isPunct hcomma (by decide)
    rw [Elements.tokens]
    exact (element.balanced isObject helement).append
      (.cons hopener hcloser (others.balanced isObject hothers))

/-- An element is balanced. -/
theorem Element.balanced (isObject : Bool) (e : Element) (h : e.Shaped isObject) :
    Balanced e.tokens := by
  cases e with
  | hole =>
    rw [Element.tokens]
    exact .nil
  | rest dots target =>
    rw [Element.Shaped] at h
    obtain ⟨hopener, hcloser⟩ := dots_not_bracket h.1
    rw [Element.tokens]
    exact .cons hopener hcloser (target.isUnit h.2).balanced
  | plain target byDefault =>
    rw [Element.Shaped] at h
    rw [Element.tokens]
    exact (target.isUnit h.1).balanced.append h.2.balanced
  | keyed key colon target byDefault =>
    rw [Element.Shaped] at h
    obtain ⟨-, hkey, hcolon, htarget, hdefault⟩ := h
    obtain ⟨hopener, hcloser⟩ := not_bracket_of_isPunct hcolon (by decide)
    rw [Element.tokens]
    exact hkey.1.balanced.append
      (.cons hopener hcloser ((target.isUnit htarget).balanced.append hdefault.balanced))

end

theorem headIsPunct_of_isPunct {t : Token} {ts : List Token} {mark text : String}
    (h : t.isPunct mark = true) (hne : mark ≠ text) : headIsPunct (t :: ts) text = false := by
  simp only [isPunct_iff] at h
  simp [headIsPunct, Token.isPunct, h.2, hne]

/-- A pattern starts with no mark but a bracket. -/
theorem Pattern.headIsPunct_tokens {p : Pattern} (h : p.Shaped) {text : String}
    (hbrace : "\x7b" ≠ text) (hbracket : "[" ≠ text) : headIsPunct p.tokens text = false := by
  cases p with
  | name t =>
    rw [Pattern.Shaped] at h
    simp [Pattern.tokens, headIsPunct, Token.isPunct, h]
  | group isObject opener elements closer =>
    rw [Pattern.Shaped] at h
    rw [Pattern.tokens]
    cases isObject with
    | true => exact headIsPunct_of_isPunct h.1 hbrace
    | false => exact headIsPunct_of_isPunct h.1 hbracket

/-- A key starts with no mark but a bracket. -/
theorem IsKey.headIsPunct_eq_false {key : List Token} (h : IsKey key) {text : String}
    (hbracket : "[" ≠ text) : headIsPunct key text = false := by
  obtain ⟨hunit, hhead | ⟨t, rfl, hkind⟩⟩ := h
  · obtain ⟨t, ts, rfl⟩ := hunit.exists_cons
    exact headIsPunct_of_isPunct (by simpa [headIsPunct] using hhead) hbracket
  · simp [headIsPunct, Token.isPunct, hkind]

/-! ## 4. Reading an element -/

theorem IsUnit.lacks {u : List Token} (h : IsUnit u) {separator : String}
    (hsep : headIsPunct u separator = false) : Lacks separator u := by
  have hbreak := h.breakAt_append hsep []
  rw [List.append_nil] at hbreak
  rw [Lacks, hbreak]
  simp [breakAt]

theorem lacks_cons {t : Token} {ts : List Token} {separator : String} (hopener : t.isOpener = false)
    (hcloser : t.isCloser = false) (hsep : headIsPunct [t] separator = false) (hts : Lacks separator ts) :
    Lacks separator (t :: ts) := by
  have hbreak := (IsUnit.single hopener hcloser).breakAt_append hsep ts
  rw [Lacks, ← List.singleton_append, hbreak]
  exact hts

/-- The target of an element, with or without something in front, holds no mark that could end it. -/
theorem Pattern.lacks_tokens {p : Pattern} (h : p.Shaped) {text : String} (hbrace : "\x7b" ≠ text)
    (hbracket : "[" ≠ text) : Lacks text p.tokens :=
  (p.isUnit h).lacks (p.headIsPunct_tokens h hbrace hbracket)

theorem Pattern.lacks_rest {p : Pattern} (h : p.Shaped) {dots : Token} (hdots : dots.isPunct "..." = true)
    {text : String} (hmark : "..." ≠ text) (hbrace : "\x7b" ≠ text) (hbracket : "[" ≠ text) :
    Lacks text (dots :: p.tokens) := by
  obtain ⟨hopener, hcloser⟩ := dots_not_bracket hdots
  exact lacks_cons hopener hcloser (headIsPunct_of_isPunct hdots hmark) (p.lacks_tokens h hbrace hbracket)

theorem Pattern.lacks_keyed {p : Pattern} (h : p.Shaped) {key : List Token} (hkey : IsKey key)
    {colon : Token} (hcolon : colon.isPunct ":" = true) {text : String} (hmem : text ∈ separators)
    (hmark : ":" ≠ text) (hbrace : "\x7b" ≠ text) (hbracket : "[" ≠ text) :
    Lacks text (key ++ colon :: p.tokens) := by
  obtain ⟨hopener, hcloser⟩ := not_bracket_of_isPunct hcolon (by decide)
  have hfirst : Lacks text key := hkey.1.lacks (hkey.headIsPunct_eq_false hbracket)
  have hlater : Lacks text (colon :: p.tokens) :=
    lacks_cons hopener hcloser (headIsPunct_of_isPunct hcolon hmark) (p.lacks_tokens h hbrace hbracket)
  exact (lacks_append hmem hkey.1.balanced).2 ⟨hfirst, hlater⟩

variable {isObject : Bool}

/-- A default does not count for what an element binds. -/
theorem elementTarget_append_default {ts byDefault : List Token} (hts : Balanced ts)
    (heq : Lacks "=" ts) (hdefault : IsDefault byDefault) :
    elementTarget isObject (ts ++ byDefault) = elementTarget isObject ts := by
  have hfirst : before "=" (ts ++ byDefault) = before "=" ts := by
    rcases hdefault with rfl | ⟨eq, value, rfl, hmark, -⟩
    · rw [List.append_nil]
    · rw [before, before, breakAt_append_of_lacks (by decide) hts heq, breakAt_separator hmark,
        List.append_nil, breakAt_fst_of_lacks heq]
  rw [elementTarget, elementTarget, hfirst]

@[simp] theorem elementNames_nil : elementNames isObject [] = [] := by
  have htarget : elementTarget isObject [] = [] := by
    cases isObject with
    | true => simp [elementTarget, before, after?, breakAt, headIsPunct]
    | false => simp [elementTarget, before, breakAt, headIsPunct]
  rw [elementNames, htarget, boundNames]
  simp [singleIdent?, patternParts?, group?]

/-- What is read off an element: first what it binds, then the strays of its default. -/
theorem readParts_append_default {ts byDefault : List Token} (hts : Balanced ts)
    (hcomma : Lacks "," ts) (heq : Lacks "=" ts) (hdefault : IsDefault byDefault) :
    readParts (elementNames isObject) "," (ts ++ byDefault) =
      elementNames isObject ts ++ strays isObject byDefault := by
  have hbefore : IsDefault (breakAt "," byDefault).1 := by
    rcases hdefault with rfl | ⟨eq, value, rfl, hmark, hvalue⟩
    · exact .inl (by rw [breakAt])
    · obtain ⟨hopener, hcloser⟩ := not_bracket_of_isPunct hmark (by decide)
      have hunit : IsUnit [eq] := .single hopener hcloser
      have hhead : headIsPunct [eq] "," = false := headIsPunct_of_isPunct hmark (by decide)
      have hstep := hunit.breakAt_append hhead value
      rw [List.singleton_append] at hstep
      rw [hstep]
      exact .inr ⟨eq, _, rfl, hmark, (hvalue.breakAt (by decide)).1⟩
  rw [readParts_append_of_lacks elementNames_nil (by decide) hts hcomma, elementNames, elementNames,
    elementTarget_append_default hts heq hbefore, strays]

theorem before_of_lacks {ts : List Token} {separator : String} (h : Lacks separator ts) :
    before separator ts = ts := breakAt_fst_of_lacks h

section

variable {target : Pattern} (htarget : target.Shaped)

include htarget

theorem elementNames_plain : elementNames isObject target.tokens = boundNames target.tokens := by
  have heq : Lacks "=" target.tokens := target.lacks_tokens htarget (by decide) (by decide)
  have hcolon : after? ":" target.tokens = none := target.lacks_tokens htarget (by decide) (by decide)
  have hdots : headIsPunct target.tokens "..." = false :=
    target.headIsPunct_tokens htarget (by decide) (by decide)
  rw [elementNames, elementTarget, before_of_lacks heq]
  simp only [hdots, Bool.false_eq_true, if_false, hcolon, Option.getD_none, ite_self]

theorem elementNames_rest {dots : Token} (hdots : dots.isPunct "..." = true) :
    elementNames isObject (dots :: target.tokens) = boundNames target.tokens := by
  have heq : Lacks "=" (dots :: target.tokens) :=
    target.lacks_rest htarget hdots (by decide) (by decide) (by decide)
  have hhead : headIsPunct (dots :: target.tokens) "..." = true := by simpa [headIsPunct] using hdots
  rw [elementNames, elementTarget, before_of_lacks heq]
  simp only [hhead, if_true, List.tail_cons]

theorem elementNames_keyed {key : List Token} {colon : Token} (hkey : IsKey key)
    (hcolon : colon.isPunct ":" = true) :
    elementNames true (key ++ colon :: target.tokens) = boundNames target.tokens := by
  have heq : Lacks "=" (key ++ colon :: target.tokens) :=
    target.lacks_keyed htarget hkey hcolon (by decide) (by decide) (by decide) (by decide)
  have hhead : headIsPunct (key ++ colon :: target.tokens) "..." = false := by
    have hdots : "[" ≠ "..." := by decide
    obtain ⟨t, ts, rfl⟩ := hkey.1.exists_cons
    simpa [headIsPunct] using hkey.headIsPunct_eq_false hdots
  have hafter : after? ":" (key ++ colon :: target.tokens) = some target.tokens := by
    rw [after?, hkey.1.breakAt_append (hkey.headIsPunct_eq_false (by decide)), breakAt_separator hcolon]
  rw [elementNames, elementTarget, before_of_lacks heq]
  simp only [hhead, Bool.false_eq_true, if_false, if_true, hafter, Option.getD_some]

end

/-! ## 5. Reading a pattern -/

/-- A reading that holds the wanted names and more is the wanted one in no part or in both. -/
theorem append_eq_append_of_sublist {α : Type} {xs xs' ys ys' : List α} (hx : xs.Sublist xs')
    (hy : ys.Sublist ys') : xs' ++ ys' = xs ++ ys ↔ xs' = xs ∧ ys' = ys := by
  refine ⟨fun h => ?_, by rintro ⟨rfl, rfl⟩; rfl⟩
  have hlength := congrArg List.length h
  rw [List.length_append, List.length_append] at hlength
  have hxle := hx.length_le
  have hyle := hy.length_le
  exact ⟨(hx.eq_of_length (by omega)).symm, (hy.eq_of_length (by omega)).symm⟩

theorem append_eq_self_of_sublist {α : Type} {xs xs' ys : List α} (h : xs.Sublist xs') :
    xs' ++ ys = xs ↔ xs' = xs ∧ ys = [] := by
  have hsplit := append_eq_append_of_sublist h (List.nil_sublist ys)
  rwa [List.append_nil] at hsplit

/-- A bracketed pattern is taken apart at the commas between its elements. -/
theorem patternParts?_group {opener closer : Token} {inside : List Token}
    (ho : opener.isPunct (if isObject then "\x7b" else "[") = true)
    (hc : closer.isPunct (if isObject then "\x7d" else "]") = true) (hinside : Balanced inside) :
    patternParts? (opener :: (inside ++ [closer])) = some (isObject, splitAt "," inside) := by
  obtain ⟨hcloser, hkind⟩ := closer?_of_group ho hc
  have hend := splitGroup?_group hcloser hkind hinside []
  cases isObject with
  | true =>
    have ho : opener.isPunct "\x7b" = true := ho
    simp [patternParts?, group?, ho, hend]
  | false =>
    have ho : opener.isPunct "[" = true := ho
    have hhead : headIsPunct [opener] "\x7b" = false := headIsPunct_of_isPunct ho (by decide)
    have hbrace : opener.isPunct "\x7b" = false := by simpa [headIsPunct] using hhead
    simp [patternParts?, group?, ho, hbrace, hend]

theorem singleIdent?_group (opener closer : Token) (inside : List Token) :
    singleIdent? (opener :: (inside ++ [closer])) = none := by
  cases inside <;> rfl

/-- The names of a bracketed pattern are those of its elements. -/
theorem boundNames_group {opener closer : Token} {inside : List Token}
    (ho : opener.isPunct (if isObject then "\x7b" else "[") = true)
    (hc : closer.isPunct (if isObject then "\x7d" else "]") = true) (hinside : Balanced inside) :
    boundNames (opener :: (inside ++ [closer])) = readParts (elementNames isObject) "," inside := by
  have hsingle := singleIdent?_group opener closer inside
  have hparts := patternParts?_group ho hc hinside
  conv => lhs; unfold boundNames
  split
  next hname => simp [hsingle] at hname
  next =>
    split
    next hnone => simp [hparts] at hnone
    next isObject' parts hsome =>
      rw [hparts] at hsome
      cases hsome
      simp [readParts]
      rfl

mutual

/-- **The reader finds the names of a pattern.**  It finds nothing else exactly if the pattern is tight. -/
theorem Pattern.Shaped.boundNames_tokens {p : Pattern} (h : p.Shaped) :
    p.names.Sublist (boundNames p.tokens) ∧ (boundNames p.tokens = p.names ↔ p.Tight) := by
  cases p with
  | name t =>
    rw [Pattern.Shaped] at h
    have hread : boundNames [t] = [t.span] := by simp [boundNames, singleIdent?, h]
    rw [Pattern.tokens, Pattern.names, Pattern.Tight, hread]
    exact ⟨List.Sublist.refl _, by simp⟩
  | group isObject opener elements closer =>
    rw [Pattern.Shaped] at h
    obtain ⟨ho, hc, helements⟩ := h
    rw [Pattern.tokens, Pattern.names, Pattern.Tight,
      boundNames_group ho hc (elements.balanced isObject helements)]
    exact elements.readParts_tokens isObject helements

/-- The names of the elements are read one element at a time. -/
theorem Elements.readParts_tokens (isObject : Bool) (es : Elements) (h : es.Shaped isObject) :
    es.names.Sublist (readParts (elementNames isObject) "," es.tokens) ∧
      (readParts (elementNames isObject) "," es.tokens = es.names ↔ es.Tight isObject) := by
  cases es with
  | last element =>
    rw [Elements.Shaped] at h
    rw [Elements.tokens, Elements.names, Elements.Tight]
    exact element.readParts_tokens isObject h
  | more element comma others =>
    rw [Elements.Shaped] at h
    obtain ⟨helement, hcomma, hothers⟩ := h
    obtain ⟨hfirst, hfirstTight⟩ := element.readParts_tokens isObject helement
    obtain ⟨hlater, hlaterTight⟩ := others.readParts_tokens isObject hothers
    rw [Elements.tokens, Elements.names, Elements.Tight,
      readParts_append elementNames_nil (by decide) (element.balanced isObject helement) hcomma,
      append_eq_append_of_sublist hfirst hlater, hfirstTight, hlaterTight]
    exact ⟨hfirst.append hlater, Iff.rfl⟩

/-- The names of an element are read off its target. -/
theorem Element.readParts_tokens (isObject : Bool) (e : Element) (h : e.Shaped isObject) :
    e.names.Sublist (readParts (elementNames isObject) "," e.tokens) ∧
      (readParts (elementNames isObject) "," e.tokens = e.names ↔ e.Tight isObject) := by
  cases e with
  | hole =>
    have hread : readParts (elementNames isObject) "," [] = [] := by
      rw [readParts_of_lacks elementNames_nil (by simp [Lacks, breakAt]), elementNames_nil]
    rw [Element.tokens, Element.names, Element.Tight, hread]
    exact ⟨List.Sublist.refl _, by simp⟩
  | rest dots target =>
    rw [Element.Shaped] at h
    obtain ⟨hdots, htarget⟩ := h
    have hcomma : Lacks "," (dots :: target.tokens) :=
      target.lacks_rest htarget hdots (by decide) (by decide) (by decide)
    rw [Element.tokens, Element.names, Element.Tight, readParts_of_lacks elementNames_nil hcomma,
      elementNames_rest htarget hdots]
    exact htarget.boundNames_tokens
  | plain target byDefault =>
    rw [Element.Shaped] at h
    obtain ⟨htarget, hdefault⟩ := h
    obtain ⟨hnames, htight⟩ := htarget.boundNames_tokens
    have hcomma : Lacks "," target.tokens := target.lacks_tokens htarget (by decide) (by decide)
    have heq : Lacks "=" target.tokens := target.lacks_tokens htarget (by decide) (by decide)
    have hread := @readParts_append_default isObject _ _ (target.isUnit htarget).balanced hcomma heq hdefault
    rw [elementNames_plain htarget] at hread
    rw [Element.tokens, Element.names, Element.Tight, hread, append_eq_self_of_sublist hnames, htight]
    exact ⟨hnames.trans (List.sublist_append_left _ _), Iff.rfl⟩
  | keyed key colon target byDefault =>
    rw [Element.Shaped] at h
    obtain ⟨rfl, hkey, hcolon, htarget, hdefault⟩ := h
    obtain ⟨hnames, htight⟩ := htarget.boundNames_tokens
    obtain ⟨hopener, hcloser⟩ := not_bracket_of_isPunct hcolon (by decide)
    have hcomma : Lacks "," (key ++ colon :: target.tokens) :=
      target.lacks_keyed htarget hkey hcolon (by decide) (by decide) (by decide) (by decide)
    have heq : Lacks "=" (key ++ colon :: target.tokens) :=
      target.lacks_keyed htarget hkey hcolon (by decide) (by decide) (by decide) (by decide)
    have hbalanced : Balanced (key ++ colon :: target.tokens) :=
      hkey.1.balanced.append (.cons hopener hcloser (target.isUnit htarget).balanced)
    have hread := @readParts_append_default true _ _ hbalanced hcomma heq hdefault
    rw [elementNames_keyed htarget hkey hcolon, List.append_assoc, List.cons_append] at hread
    rw [Element.tokens, Element.names, Element.Tight, hread, append_eq_self_of_sublist hnames, htight]
    exact ⟨hnames.trans (List.sublist_append_left _ _), Iff.rfl⟩

end

theorem Pattern.boundNames_tokens (p : Pattern) (h : p.WellFormed) :
    p.names.Sublist (boundNames p.tokens) ∧ (boundNames p.tokens = p.names ↔ p.Tight) :=
  h.shaped.boundNames_tokens

end ComponentLens.Script
