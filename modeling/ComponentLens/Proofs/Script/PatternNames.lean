/-
# The names of a pattern

`boundNames` sees a run of tokens and cuts it at commas, equals signs and colons.  Whether a token that it takes
for a name binds anything depends on where in the tree of the pattern the token stands: it may as well be a key,
or belong to a default.

`Pattern.roles` lists the tokens of a pattern with what each is there for, and `boundNames_pattern` says that the
reader goes by these roles.  It finds the tokens that bind, in their order, and none of the others.
-/
import ComponentLens.Proofs.Script.LabelPatterns
import Mathlib.Data.List.Nodup

namespace ComponentLens.Script

/-! ## 1. Roles -/

/-- What a token of a pattern is there for. -/
inductive Role where
  | bound
  | key
  | byDefault
  | mark
deriving DecidableEq

/-- Tokens that are all there for the same. -/
def inRole (role : Role) (ts : List Token) : List (Token × Role) := ts.map (·, role)

mutual

/-- The tokens of a pattern and their roles. -/
def Pattern.roles : Pattern → List (Token × Role)
  | .name t => [(t, .bound)]
  | .group _ opener elements closer => (opener, .mark) :: (elements.roles ++ [(closer, .mark)])

/-- The tokens between the brackets and their roles. -/
def Elements.roles : Elements → List (Token × Role)
  | .last element => element.roles
  | .more element comma others => element.roles ++ (comma, .mark) :: others.roles

/-- The tokens of an element and their roles.  All of a computed key is the key. -/
def Element.roles : Element → List (Token × Role)
  | .hole => []
  | .rest dots target => (dots, .mark) :: target.roles
  | .plain target byDefault => target.roles ++ inRole .byDefault byDefault
  | .keyed key colon target byDefault =>
    inRole .key key ++ (colon, .mark) :: (target.roles ++ inRole .byDefault byDefault)

end

@[simp] theorem map_fst_inRole (role : Role) (ts : List Token) : (inRole role ts).map (·.1) = ts := by
  simp [inRole, Function.comp_def]

mutual

/-- The tokens with roles are all tokens of the pattern, in their order. -/
theorem Pattern.map_fst_roles (p : Pattern) : p.roles.map (·.1) = p.tokens := by
  cases p with
  | name t => rw [Pattern.roles, Pattern.tokens, List.map_singleton]
  | group isObject opener elements closer => simp [Pattern.roles, Pattern.tokens, elements.map_fst_roles]

theorem Elements.map_fst_roles (es : Elements) : es.roles.map (·.1) = es.tokens := by
  cases es with
  | last element => rw [Elements.roles, Elements.tokens, element.map_fst_roles]
  | more element comma others =>
    simp [Elements.roles, Elements.tokens, element.map_fst_roles, others.map_fst_roles]

theorem Element.map_fst_roles (e : Element) : e.roles.map (·.1) = e.tokens := by
  cases e with
  | hole => rw [Element.roles, Element.tokens, List.map_nil]
  | rest dots target => simp [Element.roles, Element.tokens, target.map_fst_roles]
  | plain target byDefault => simp [Element.roles, Element.tokens, target.map_fst_roles]
  | keyed key colon target byDefault => simp [Element.roles, Element.tokens, target.map_fst_roles]

end

/-- The places of the tokens that bind. -/
def boundSpans (roles : List (Token × Role)) : List Span := (roles.filter (·.2 == .bound)).map (·.1.span)

@[simp] theorem boundSpans_append (xs ys : List (Token × Role)) :
    boundSpans (xs ++ ys) = boundSpans xs ++ boundSpans ys := by simp [boundSpans]

theorem boundSpans_cons_of_ne {role : Role} (h : role ≠ .bound) (t : Token) (roles : List (Token × Role)) :
    boundSpans ((t, role) :: roles) = boundSpans roles := by simp [boundSpans, h]

theorem boundSpans_inRole {role : Role} (h : role ≠ .bound) (ts : List Token) :
    boundSpans (inRole role ts) = [] := by simp [boundSpans, inRole, h]

mutual

/-- The names of a pattern are the tokens that bind. -/
theorem Pattern.boundSpans_roles (p : Pattern) : boundSpans p.roles = p.names := by
  cases p with
  | name t =>
    rw [Pattern.roles, Pattern.names]
    rfl
  | group isObject opener elements closer =>
    rw [Pattern.roles, Pattern.names, boundSpans_cons_of_ne (by decide), boundSpans_append,
      elements.boundSpans_roles, boundSpans_cons_of_ne (by decide)]
    exact List.append_nil _

theorem Elements.boundSpans_roles (es : Elements) : boundSpans es.roles = es.names := by
  cases es with
  | last element => rw [Elements.roles, Elements.names, element.boundSpans_roles]
  | more element comma others =>
    rw [Elements.roles, Elements.names, boundSpans_append, boundSpans_cons_of_ne (by decide),
      element.boundSpans_roles, others.boundSpans_roles]

theorem Element.boundSpans_roles (e : Element) : boundSpans e.roles = e.names := by
  cases e with
  | hole =>
    rw [Element.roles, Element.names]
    rfl
  | rest dots target =>
    rw [Element.roles, Element.names, boundSpans_cons_of_ne (by decide), target.boundSpans_roles]
  | plain target byDefault =>
    rw [Element.roles, Element.names, boundSpans_append, boundSpans_inRole (by decide), target.boundSpans_roles,
      List.append_nil]
  | keyed key colon target byDefault =>
    rw [Element.roles, Element.names, boundSpans_append, boundSpans_inRole (by decide), List.nil_append,
      boundSpans_cons_of_ne (by decide), boundSpans_append, boundSpans_inRole (by decide),
      target.boundSpans_roles, List.append_nil]

end

/-- The names of a pattern stand in its tokens, in their order. -/
theorem Pattern.names_sublist (p : Pattern) : p.names.Sublist (spansOf p.tokens) := by
  rw [← p.boundSpans_roles, ← p.map_fst_roles, spansOf, List.map_map]
  exact List.filter_sublist.map _

/-- If no two tokens stand in one place, the places of names tell which tokens bind. -/
theorem Pattern.mem_names_iff {p : Pattern} (hdistinct : (spansOf p.tokens).Nodup) {t : Token} {role : Role}
    (h : (t, role) ∈ p.roles) : t.span ∈ p.names ↔ role = .bound := by
  rw [← p.map_fst_roles, spansOf, List.map_map] at hdistinct
  rw [← p.boundSpans_roles, boundSpans, List.mem_map]
  constructor
  · rintro ⟨⟨t', role'⟩, hmem, hspan⟩
    obtain ⟨hmem, hrole⟩ := List.mem_filter.1 hmem
    obtain ⟨-, rfl⟩ := Prod.mk.inj (List.inj_on_of_nodup_map hdistinct hmem h hspan)
    exact beq_iff_eq.1 hrole
  · rintro rfl
    exact ⟨(t, .bound), List.mem_filter.2 ⟨h, rfl⟩, rfl⟩

/-! ## 2. Names -/

/-- **The reader finds what a pattern binds, and nothing else.**  On the tokens of a pattern whose defaults hold
commas only inside brackets, it finds the names of the pattern in the order of the source.  Of the tokens of the
pattern in a source, these are the ones that bind: no key, nothing inside a computed key, and nothing in a
default is among them. -/
theorem boundNames_pattern {p : Pattern} (hp : p.Shaped) (hproper : p.Proper) :
    boundNames p.tokens = p.names ∧ p.names.Sublist (spansOf p.tokens) ∧
      ∀ source ts, tokenize source = .ok ts → p.tokens <:+: ts →
        ∀ t role, (t, role) ∈ p.roles → (t.span ∈ boundNames p.tokens ↔ role = .bound) := by
  have hnames := hp.boundNames_tokens.2.2 (Pattern.Proper.tight p hproper)
  refine ⟨hnames, p.names_sublist, fun source ts htokens hstands t role hrole => ?_⟩
  have hdistinct : (spansOf p.tokens).Nodup := (nodup_spansOf htokens).sublist (hstands.sublist.map _)
  rw [hnames]
  exact Pattern.mem_names_iff hdistinct hrole

/-- The pattern of `const { a, 'b': c = d ? e : f, [g]: [h, , ...i] = [j, k], ...l } = m`. -/
def mixedPattern : Pattern :=
  .group true ⟨.punct, "\x7b", ⟨6, 7⟩, false⟩
    (.more (.plain (.name ⟨.ident, "a", ⟨8, 9⟩, false⟩) []) ⟨.punct, ",", ⟨9, 10⟩, false⟩
    (.more (.keyed [⟨.string, "'b'", ⟨11, 14⟩, false⟩] ⟨.punct, ":", ⟨14, 15⟩, false⟩
        (.name ⟨.ident, "c", ⟨16, 17⟩, false⟩)
        [⟨.punct, "=", ⟨18, 19⟩, false⟩, ⟨.ident, "d", ⟨20, 21⟩, false⟩, ⟨.punct, "?", ⟨22, 23⟩, false⟩,
          ⟨.ident, "e", ⟨24, 25⟩, false⟩, ⟨.punct, ":", ⟨26, 27⟩, false⟩, ⟨.ident, "f", ⟨28, 29⟩, false⟩])
      ⟨.punct, ",", ⟨29, 30⟩, false⟩
    (.more (.keyed [⟨.punct, "[", ⟨31, 32⟩, false⟩, ⟨.ident, "g", ⟨32, 33⟩, false⟩, ⟨.punct, "]", ⟨33, 34⟩, false⟩]
        ⟨.punct, ":", ⟨34, 35⟩, false⟩
        (.group false ⟨.punct, "[", ⟨36, 37⟩, false⟩
          (.more (.plain (.name ⟨.ident, "h", ⟨37, 38⟩, false⟩) []) ⟨.punct, ",", ⟨38, 39⟩, false⟩
          (.more .hole ⟨.punct, ",", ⟨40, 41⟩, false⟩
          (.last (.rest ⟨.punct, "...", ⟨42, 45⟩, false⟩ (.name ⟨.ident, "i", ⟨45, 46⟩, false⟩)))))
          ⟨.punct, "]", ⟨46, 47⟩, false⟩)
        [⟨.punct, "=", ⟨48, 49⟩, false⟩, ⟨.punct, "[", ⟨50, 51⟩, false⟩, ⟨.ident, "j", ⟨51, 52⟩, false⟩,
          ⟨.punct, ",", ⟨52, 53⟩, false⟩, ⟨.ident, "k", ⟨54, 55⟩, false⟩, ⟨.punct, "]", ⟨55, 56⟩, false⟩])
      ⟨.punct, ",", ⟨56, 57⟩, false⟩
    (.last (.rest ⟨.punct, "...", ⟨58, 61⟩, false⟩ (.name ⟨.ident, "l", ⟨61, 62⟩, false⟩))))))
    ⟨.punct, "\x7d", ⟨63, 64⟩, false⟩

theorem shaped_mixedPattern : mixedPattern.Shaped := by
  have hconditional : Balanced [⟨.ident, "d", ⟨20, 21⟩, false⟩, ⟨.punct, "?", ⟨22, 23⟩, false⟩,
      ⟨.ident, "e", ⟨24, 25⟩, false⟩, ⟨.punct, ":", ⟨26, 27⟩, false⟩, ⟨.ident, "f", ⟨28, 29⟩, false⟩] :=
    balanced_of_no_bracket (by decide)
  have hlist : Balanced [⟨.punct, "[", ⟨50, 51⟩, false⟩, ⟨.ident, "j", ⟨51, 52⟩, false⟩,
      ⟨.punct, ",", ⟨52, 53⟩, false⟩, ⟨.ident, "k", ⟨54, 55⟩, false⟩, ⟨.punct, "]", ⟨55, 56⟩, false⟩] :=
    @Balanced.group _ _ [_, _, _] [] (by decide) (by decide) (balanced_of_no_bracket (by decide)) .nil
  have hcomputed : IsKey [⟨.punct, "[", ⟨31, 32⟩, false⟩, ⟨.ident, "g", ⟨32, 33⟩, false⟩,
      ⟨.punct, "]", ⟨33, 34⟩, false⟩] :=
    ⟨@IsUnit.group _ _ [_] (by decide) (by decide) (balanced_of_no_bracket (by decide)), .inl (by decide)⟩
  simp only [mixedPattern, Pattern.Shaped, Elements.Shaped, Element.Shaped]
  refine ⟨by decide, by decide, ⟨trivial, .inl rfl⟩, by decide,
    ⟨trivial, isKey_single (by decide), by decide, trivial, .inr ⟨_, _, rfl, by decide, hconditional⟩⟩, by decide,
    ⟨trivial, hcomputed, by decide, ?_, .inr ⟨_, _, rfl, by decide, hlist⟩⟩, by decide, by decide, trivial⟩
  exact ⟨by decide, by decide, ⟨trivial, .inl rfl⟩, by decide, trivial, by decide, by decide, trivial⟩

/-- Five names among all kinds of keys and elements. -/
theorem boundNames_mixedPattern : ∃ ts,
    tokenize "const \x7b a, 'b': c = d ? e : f, [g]: [h, , ...i] = [j, k], ...l \x7d = m" = .ok ts ∧
      mixedPattern.tokens <:+: ts ∧ mixedPattern.Shaped ∧ mixedPattern.Proper ∧
      mixedPattern.names = [⟨8, 9⟩, ⟨16, 17⟩, ⟨37, 38⟩, ⟨45, 46⟩, ⟨61, 62⟩] ∧
      boundNames mixedPattern.tokens = mixedPattern.names ∧
      ∀ t role, (t, role) ∈ mixedPattern.roles → (t.span ∈ boundNames mixedPattern.tokens ↔ role = .bound) := by
  have hproper : mixedPattern.Proper := by
    simp only [mixedPattern, Pattern.Proper, Elements.Proper, Element.Proper]
    decide +kernel
  have htokens : tokenize "const \x7b a, 'b': c = d ? e : f, [g]: [h, , ...i] = [j, k], ...l \x7d = m" =
      .ok ([⟨.ident, "const", ⟨0, 5⟩, false⟩] ++ mixedPattern.tokens ++
        [⟨.punct, "=", ⟨65, 66⟩, false⟩, ⟨.ident, "m", ⟨67, 68⟩, false⟩]) := by decide +kernel
  have hstands := List.infix_append [⟨.ident, "const", ⟨0, 5⟩, false⟩] mixedPattern.tokens
    [⟨.punct, "=", ⟨65, 66⟩, false⟩, ⟨.ident, "m", ⟨67, 68⟩, false⟩]
  obtain ⟨hnames, -, hroles⟩ := boundNames_pattern shaped_mixedPattern hproper
  exact ⟨_, htokens, hstands, shaped_mixedPattern, hproper, rfl, hnames,
    hroles _ _ htokens hstands⟩

end ComponentLens.Script
