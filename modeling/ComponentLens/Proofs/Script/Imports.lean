/-
# Declarations of imports

A setup block of imports is here a list of declarations (`ImportDecl`), written down by `ImportDecl.tokens`; and
`ImportDecl.names` lists the names that have a value in the template.  `analyzeSetup_imports_exact` says that the
reader finds the declarations and exposes exactly these names.

Two things have to be seen.  A declaration is one statement wherever its lines break (`GoesOn`): between any two
of its parts either the first expects more, or the second starts no statement.  And the loop over the clause,
which steps over a braced list at once and over a namespace by counting tokens, takes one binding after the
other (`Binding.clauseNames_append`).
-/
import ComponentLens.Proofs.Script.Lexemes
import ComponentLens.Proofs.Script.Exposes

namespace ComponentLens.Script

/-! ## 1. Declarations -/

/-- The words that tell the parts of a clause apart. -/
def clauseWords : List String := ["type", "as", "from"]

/-- The token is a name, and none of the words that tell the parts of a clause apart. -/
def IsName (t : Token) : Prop := t.kind = .ident ∧ t.text ∉ clauseWords

instance (t : Token) : Decidable (IsName t) := inferInstanceAs (Decidable (_ ∧ _))

/-- A part of a braced list: a name, under its own name or another, and perhaps marked as a type. -/
structure Specifier where
  typeWord : Option Token := none
  /-- The name that is imported, and `as`, when the local name is another one. -/
  imported : Option (Token × Token) := none
  name : Token

namespace Specifier

def tokens (s : Specifier) : List Token :=
  s.typeWord.toList ++ ((s.imported.map fun (name, as_) => [name, as_]).getD [] ++ [s.name])

/-- The name that the specifier binds to a value. -/
def names (s : Specifier) : List Span := if s.typeWord.isSome then [] else [s.name.span]

structure WellFormed (s : Specifier) : Prop where
  typeWord : ∀ t ∈ s.typeWord, t.isIdent "type" = true
  imported : ∀ pair ∈ s.imported, IsName pair.1 ∧ pair.2.isIdent "as" = true
  name : IsName s.name

instance (s : Specifier) : Decidable s.WellFormed :=
  decidable_of_iff ((∀ t ∈ s.typeWord, t.isIdent "type" = true) ∧
      (∀ pair ∈ s.imported, IsName pair.1 ∧ pair.2.isIdent "as" = true) ∧ IsName s.name)
    ⟨fun ⟨typeWord, imported, name⟩ => ⟨typeWord, imported, name⟩,
      fun ⟨typeWord, imported, name⟩ => ⟨typeWord, imported, name⟩⟩

end Specifier

/-- A braced list.  Behind the last specifier there may be a comma, too. -/
structure NamedList where
  opener : Token
  /-- The specifiers with a comma behind. -/
  items : List (Specifier × Token)
  last : Option Specifier
  closer : Token

namespace NamedList

def inside (l : NamedList) : List Token :=
  l.items.flatMap (fun item => item.1.tokens ++ [item.2]) ++ (l.last.map (·.tokens)).getD []

def tokens (l : NamedList) : List Token := l.opener :: (l.inside ++ [l.closer])

def names (l : NamedList) : List Span := l.items.flatMap (·.1.names) ++ (l.last.map (·.names)).getD []

structure WellFormed (l : NamedList) : Prop where
  opener : l.opener.isPunct "\x7b" = true
  items : ∀ item ∈ l.items, item.1.WellFormed ∧ item.2.isPunct "," = true
  last : ∀ s ∈ l.last, s.WellFormed
  closer : l.closer.isPunct "\x7d" = true

instance (l : NamedList) : Decidable l.WellFormed :=
  decidable_of_iff (l.opener.isPunct "\x7b" = true ∧
      (∀ item ∈ l.items, item.1.WellFormed ∧ item.2.isPunct "," = true) ∧ (∀ s ∈ l.last, s.WellFormed) ∧
      l.closer.isPunct "\x7d" = true)
    ⟨fun ⟨opener, items, last, closer⟩ => ⟨opener, items, last, closer⟩,
      fun ⟨opener, items, last, closer⟩ => ⟨opener, items, last, closer⟩⟩

end NamedList

/-- What a clause binds: the default, all names together, or listed names. -/
inductive Binding where
  | default_ (name : Token)
  | namespace_ (star as_ name : Token)
  | named (list : NamedList)

namespace Binding

def tokens : Binding → List Token
  | default_ name => [name]
  | namespace_ star as_ name => [star, as_, name]
  | named list => list.tokens

def names : Binding → List Span
  | default_ name => [name.span]
  | namespace_ _ _ name => [name.span]
  | named list => list.names

def WellFormed : Binding → Prop
  | default_ name => IsName name
  | namespace_ star as_ name => star.isPunct "*" = true ∧ as_.isIdent "as" = true ∧ IsName name
  | named list => list.WellFormed

instance : (b : Binding) → Decidable b.WellFormed
  | default_ name => inferInstanceAs (Decidable (IsName name))
  | namespace_ star as_ name =>
    inferInstanceAs (Decidable (star.isPunct "*" = true ∧ as_.isIdent "as" = true ∧ IsName name))
  | named list => inferInstanceAs (Decidable list.WellFormed)

end Binding

/-- A clause: bindings with commas between them, in front of `from`.  It may be marked as one of types. -/
structure Clause where
  typeWord : Option Token := none
  first : Binding
  /-- The further bindings, each behind a comma. -/
  more : List (Token × Binding) := []
  from_ : Token

namespace Clause

def bindingTokens (c : Clause) : List Token :=
  c.first.tokens ++ c.more.flatMap fun pair => pair.1 :: pair.2.tokens

def tokens (c : Clause) : List Token := c.typeWord.toList ++ (c.bindingTokens ++ [c.from_])

/-- The names that the clause binds to values. -/
def names (c : Clause) : List Span :=
  if c.typeWord.isSome then [] else c.first.names ++ c.more.flatMap (·.2.names)

structure WellFormed (c : Clause) : Prop where
  typeWord : ∀ t ∈ c.typeWord, t.isIdent "type" = true
  first : c.first.WellFormed
  more : ∀ pair ∈ c.more, pair.1.isPunct "," = true ∧ pair.2.WellFormed
  from_ : c.from_.isIdent "from" = true

instance (c : Clause) : Decidable c.WellFormed :=
  decidable_of_iff ((∀ t ∈ c.typeWord, t.isIdent "type" = true) ∧ c.first.WellFormed ∧
      (∀ pair ∈ c.more, pair.1.isPunct "," = true ∧ pair.2.WellFormed) ∧ c.from_.isIdent "from" = true)
    ⟨fun ⟨typeWord, first, more, from_⟩ => ⟨typeWord, first, more, from_⟩,
      fun ⟨typeWord, first, more, from_⟩ => ⟨typeWord, first, more, from_⟩⟩

end Clause

/-- A declaration of imports.  One without a clause is made for its effects. -/
structure ImportDecl where
  keyword : Token
  clause : Option Clause
  source : Token
  /-- The semicolons behind the declaration. -/
  marks : List Token

namespace ImportDecl

/-- The tokens from the keyword up to the source. -/
def core (d : ImportDecl) : List Token := d.keyword :: ((d.clause.map (·.tokens)).getD [] ++ [d.source])

def tokens (d : ImportDecl) : List Token := d.core ++ d.marks

/-- The semicolon that ends the declaration.  One on a line of its own comes too late: the line has ended the
declaration before. -/
def ownMark (d : ImportDecl) : Option Token := d.marks.head?.filter (!·.newlineBefore)

/-- From the keyword up to the source, or to the semicolon that ends the declaration. -/
def span (d : ImportDecl) : Span := ⟨d.keyword.span.start, (d.ownMark.getD d.source).span.stop⟩

/-- The names that the declaration binds to values. -/
def names (d : ImportDecl) : List Span := (d.clause.map (·.names)).getD []

structure WellFormed (d : ImportDecl) : Prop where
  keyword : d.keyword.isIdent "import" = true
  clause : ∀ c ∈ d.clause, c.WellFormed
  source : d.source.kind = .string
  marks : ∀ t ∈ d.marks, t.isPunct ";" = true

instance (d : ImportDecl) : Decidable d.WellFormed :=
  decidable_of_iff (d.keyword.isIdent "import" = true ∧ (∀ c ∈ d.clause, c.WellFormed) ∧ d.source.kind = .string ∧
      ∀ t ∈ d.marks, t.isPunct ";" = true)
    ⟨fun ⟨keyword, clause, source, marks⟩ => ⟨keyword, clause, source, marks⟩,
      fun ⟨keyword, clause, source, marks⟩ => ⟨keyword, clause, source, marks⟩⟩

/-- A semicolon or a line break stands between the declarations. -/
def Before (d next : ImportDecl) : Prop := d.marks ≠ [] ∨ next.keyword.newlineBefore = true

instance : DecidableRel Before := fun d next =>
  inferInstanceAs (Decidable (d.marks ≠ [] ∨ next.keyword.newlineBefore = true))

end ImportDecl

/-- A block of declarations of imports. -/
structure IsImportBlock (ds : List ImportDecl) : Prop where
  wellFormed : ∀ d ∈ ds, d.WellFormed
  chain : ds.IsChain ImportDecl.Before

instance (ds : List ImportDecl) : Decidable (IsImportBlock ds) :=
  decidable_of_iff ((∀ d ∈ ds, d.WellFormed) ∧ ds.IsChain ImportDecl.Before)
    ⟨fun ⟨wellFormed, chain⟩ => ⟨wellFormed, chain⟩, fun ⟨wellFormed, chain⟩ => ⟨wellFormed, chain⟩⟩

/-! ## 2. The names of a clause -/

theorem IsName.not_isIdent {t : Token} (h : IsName t) {word : String} (hword : word ∈ clauseWords) :
    t.isIdent word = false := by
  rw [Token.isIdent, Bool.and_eq_false_iff, beq_eq_false_iff_ne (a := t.text)]
  exact .inr fun heq => h.2 (heq ▸ hword)

/-- Words are balanced, and no separator stands among them. -/
theorem balanced_of_words {ts : List Token} (h : ∀ t ∈ ts, t.kind ≠ .punct) (separator : String) :
    Balanced ts ∧ Lacks separator ts := by
  induction ts with
  | nil => exact ⟨.nil, by simp [Lacks, breakAt]⟩
  | cons t ts ih =>
    obtain ⟨ht, hts⟩ := List.forall_mem_cons.1 h
    obtain ⟨hopener, hcloser⟩ := not_bracket_of_kind ht
    have hhead : headIsPunct [t] separator = false := not_isPunct_of_kind ht separator
    exact ⟨.cons hopener hcloser (ih hts).1, lacks_cons hopener hcloser hhead (ih hts).2⟩

theorem star_not_bracket {t : Token} (h : t.isPunct "*" = true) : t.isOpener = false ∧ t.isCloser = false := by
  obtain ⟨-, htext⟩ := isPunct_iff.1 h
  simp [Token.isOpener, Token.closer?, Token.isCloser, Token.isPunct, htext]

namespace Specifier

variable {s : Specifier}

theorem WellFormed.kind_tokens (h : s.WellFormed) : ∀ t ∈ s.tokens, t.kind = .ident := by
  intro t ht
  simp only [tokens, List.mem_append, Option.mem_toList, List.mem_singleton] at ht
  rcases ht with ht | ht | rfl
  · exact (isIdent_iff.1 (h.typeWord t ht)).1
  · cases himported : s.imported with
    | none => simp [himported] at ht
    | some pair =>
      obtain ⟨hname, has⟩ := h.imported pair himported
      simp only [himported, Option.map_some, Option.getD_some, List.mem_cons, List.not_mem_nil, or_false] at ht
      rcases ht with rfl | rfl
      · exact hname.1
      · exact (isIdent_iff.1 has).1
  · exact h.name.1

theorem WellFormed.balanced_lacks (h : s.WellFormed) (separator : String) :
    Balanced s.tokens ∧ Lacks separator s.tokens :=
  balanced_of_words (fun t ht => by simp [h.kind_tokens t ht]) separator

/-- A specifier is read: its local name, unless it is marked as a type. -/
theorem WellFormed.specifierName?_tokens (h : s.WellFormed) : (specifierName? s.tokens).toList = s.names := by
  obtain ⟨typeWord, imported, name⟩ := s
  obtain ⟨htype, himported, hname⟩ := h
  have hword : ∀ {t : Token}, IsName t → t.isIdent "type" = false := fun h => h.not_isIdent (by decide)
  cases typeWord with
  | some t => cases imported <;> simp [specifierName?, tokens, names, headIsIdent, htype t rfl]
  | none =>
    cases imported with
    | none => simp [specifierName?, tokens, names, headIsIdent, hword hname]
    | some pair =>
      have hpair := hword (himported pair rfl).1
      simp [specifierName?, tokens, names, headIsIdent, hpair]

end Specifier

namespace NamedList

variable {l : NamedList}

theorem WellFormed.balanced_inside (h : l.WellFormed) : Balanced l.inside := by
  obtain ⟨-, hitems, hlast, -⟩ := h
  rw [inside]
  generalize l.items = items at hitems ⊢
  induction items with
  | nil =>
    cases hl : l.last with
    | none => exact .nil
    | some s => exact ((hlast s hl).balanced_lacks ",").1
  | cons item items ih =>
    obtain ⟨⟨hitem, hcomma⟩, hrest⟩ := List.forall_mem_cons.1 hitems
    obtain ⟨hopener, hcloser⟩ := not_bracket_of_isPunct hcomma (by decide)
    simp only [List.flatMap_cons, List.append_assoc, List.cons_append, List.nil_append]
    exact (hitem.balanced_lacks ",").1.append (.cons hopener hcloser (ih hrest))

/-- A braced list is read specifier by specifier. -/
theorem WellFormed.names_inside (h : l.WellFormed) :
    (splitAt "," l.inside).filterMap specifierName? = l.names := by
  rw [List.filterMap_eq_flatMap_toList]
  show readParts (fun part => (specifierName? part).toList) "," l.inside = l.names
  obtain ⟨-, hitems, hlast, -⟩ := h
  have hread : ∀ {s : Specifier}, s.WellFormed →
      readParts (fun part => (specifierName? part).toList) "," s.tokens = s.names := fun hs => by
    rw [readParts_of_lacks rfl (hs.balanced_lacks ",").2, hs.specifierName?_tokens]
  rw [inside, names]
  generalize l.items = items at hitems ⊢
  induction items with
  | nil =>
    cases hl : l.last with
    | none => exact readParts_of_lacks rfl (by simp [Lacks, breakAt])
    | some s => exact hread (hlast s hl)
  | cons item items ih =>
    obtain ⟨⟨hitem, hcomma⟩, hrest⟩ := List.forall_mem_cons.1 hitems
    simp only [List.flatMap_cons, List.append_assoc, List.cons_append, List.nil_append]
    rw [readParts_append rfl (by decide) (hitem.balanced_lacks ",").1 hcomma, hread hitem, ih hrest]

theorem WellFormed.isUnit_tokens (h : l.WellFormed) : IsUnit l.tokens := by
  obtain ⟨hkind, htext⟩ := isPunct_iff.1 h.closer
  exact .group (by simp [Token.closer?, isPunct_iff.1 h.opener, Token.isPunct, htext]) hkind h.balanced_inside

end NamedList

/-- What is no part of a binding is passed over. -/
theorem clauseNames_skip {t : Token} (hkind : t.kind ≠ .ident) (hbrace : t.isPunct "\x7b" = false)
    (hstar : t.isPunct "*" = false) (ts : List Token) : clauseNames (t :: ts) = clauseNames ts := by
  conv => lhs; unfold clauseNames
  simp [not_isIdent_of_kind hkind, hbrace, hstar, hkind]

theorem clauseNames_separator {t : Token} {separator : String} (h : t.isPunct separator = true)
    (hmem : separator ∈ separators) (ts : List Token) : clauseNames (t :: ts) = clauseNames ts := by
  have hne : ∀ {mark}, mark ∉ separators → t.isPunct mark = false := fun hmark =>
    not_isPunct_of_ne h fun heq => hmark (heq ▸ hmem)
  exact clauseNames_skip (by simp [(isPunct_iff.1 h).1]) (hne (by decide)) (hne (by decide)) ts

theorem clauseNames_from {t : Token} (h : t.isIdent "from" = true) (ts : List Token) : clauseNames (t :: ts) = [] := by
  conv => lhs; unfold clauseNames
  rw [if_pos h]

/-- **The loop takes one binding after the other.** -/
theorem Binding.clauseNames_append {b : Binding} (h : b.WellFormed) (ts : List Token) :
    clauseNames (b.tokens ++ ts) = b.names ++ clauseNames ts := by
  cases b with
  | default_ name =>
    have hkind : name.kind = .ident := h.1
    have hfrom : name.isIdent "from" = false := IsName.not_isIdent h (by decide)
    have hpunct := not_isPunct_of_kind (t := name) (by simp [hkind])
    conv => lhs; unfold Script.clauseNames
    simp [tokens, names, hfrom, hpunct, hkind]
  | namespace_ star as_ name =>
    obtain ⟨hstar, has, -⟩ := h
    obtain ⟨hkind, htext⟩ := isPunct_iff.1 hstar
    have hfrom := not_isIdent_of_kind (t := star) (by simp [hkind]) "from"
    have hbrace : star.isPunct "\x7b" = false := by simp [Token.isPunct, htext]
    conv => lhs; unfold Script.clauseNames
    simp [tokens, names, hfrom, hbrace, hstar, headIsIdent, has]
  | named list =>
    obtain ⟨hkind, -⟩ := isPunct_iff.1 (NamedList.WellFormed.opener h)
    have hfrom := not_isIdent_of_kind (t := list.opener) (by simp [hkind]) "from"
    have hunit := (NamedList.WellFormed.isUnit_tokens h).unit_append ts
    show Script.clauseNames (list.opener :: ((list.inside ++ [list.closer]) ++ ts)) = _
    conv => lhs; unfold Script.clauseNames
    simp only [hfrom, NamedList.WellFormed.opener h, hunit, Bool.false_eq_true, if_false, if_true, List.tail_cons,
      List.dropLast_concat, NamedList.WellFormed.names_inside h]
    rfl

/-- A clause is read binding by binding. -/
theorem Clause.clauseNames_append {c : Clause} (h : c.WellFormed) (ts : List Token) :
    clauseNames (c.bindingTokens ++ c.from_ :: ts) = c.first.names ++ c.more.flatMap (·.2.names) := by
  rw [bindingTokens, List.append_assoc, Binding.clauseNames_append h.first]
  obtain ⟨-, -, hmore, hfrom⟩ := h
  congr 1
  generalize c.more = more at hmore ⊢
  induction more with
  | nil => exact clauseNames_from hfrom ts
  | cons pair more ih =>
    obtain ⟨⟨hcomma, hbinding⟩, hrest⟩ := List.forall_mem_cons.1 hmore
    simp only [List.flatMap_cons, List.cons_append, List.append_assoc]
    rw [clauseNames_separator hcomma (by decide), Binding.clauseNames_append hbinding, ih hrest]

/-- The marks that the reader looks for behind `import` and behind `type`. -/
def marksBehind : List String := ["(", ".", ","]

/-- How a binding starts, it can neither be taken for a clause of types nor for an expression. -/
theorem Binding.exists_cons {b : Binding} (h : b.WellFormed) :
    ∃ t us, b.tokens = t :: us ∧ (∀ word ∈ clauseWords, t.isIdent word = false) ∧
      ∀ mark ∈ marksBehind, t.isPunct mark = false := by
  have hpunct : ∀ {t : Token} {text : String}, t.isPunct text = true → text ∉ marksBehind →
      (∀ word ∈ clauseWords, t.isIdent word = false) ∧ ∀ mark ∈ marksBehind, t.isPunct mark = false := by
    intro t text h htext
    exact ⟨fun word _ => not_isIdent_of_kind (by simp [(isPunct_iff.1 h).1]) word,
      fun mark hmark => not_isPunct_of_ne h fun heq => htext (heq ▸ hmark)⟩
  cases b with
  | default_ name =>
    have hkind : name.kind = .ident := h.1
    exact ⟨name, [], rfl, fun _ hmem => IsName.not_isIdent h hmem,
      fun mark _ => not_isPunct_of_kind (by simp [hkind]) mark⟩
  | namespace_ star as_ name => exact ⟨star, [as_, name], rfl, hpunct h.1 (by decide)⟩
  | named list => exact ⟨list.opener, _, rfl, hpunct (NamedList.WellFormed.opener h) (by decide)⟩

/-- What the reader takes from a clause and what follows it. -/
theorem Clause.importNames_append {c : Clause} (h : c.WellFormed) (ts : List Token) :
    importNames (c.tokens ++ ts) = c.names := by
  obtain ⟨t, us, hhead, hwords, hmarks⟩ := Binding.exists_cons h.first
  obtain ⟨rest, hcons⟩ : ∃ rest, c.bindingTokens ++ c.from_ :: ts = t :: rest := by
    rw [bindingTokens, hhead]
    exact ⟨_, rfl⟩
  rw [tokens, names, List.append_assoc, List.append_assoc, List.singleton_append]
  cases hc : c.typeWord with
  | none =>
    have htype : headIsIdent (c.bindingTokens ++ c.from_ :: ts) "type" = false := by
      simp [hcons, headIsIdent, hwords "type" (by decide)]
    simp only [Option.toList_none, List.nil_append, Option.isSome_none, importNames, htype, Bool.false_and,
      Bool.false_eq_true, if_false, Clause.clauseNames_append h]
  | some word =>
    have hword := h.typeWord word hc
    rw [hcons]
    simp [importNames, headIsIdent, headIsPunct, hword, hmarks "," (by decide), hwords "from" (by decide)]

/-! ## 3. The statement of a declaration -/

/-- The statement that the tokens lie in reaches behind them. -/
def GoesOn (previous : Option Token) (xs : List Token) : Prop :=
  ∀ ts, splitStatement previous (xs ++ ts) =
    (xs ++ (splitStatement (lastOf previous xs) ts).1, (splitStatement (lastOf previous xs) ts).2)

theorem GoesOn.append {previous : Option Token} {xs ys : List Token} (hxs : GoesOn previous xs)
    (hys : GoesOn (lastOf previous xs) ys) : GoesOn previous (xs ++ ys) := by
  intro ts
  rw [List.append_assoc, hxs, hys, lastOf_append, List.append_assoc]

theorem goesOn_nil (previous : Option Token) : GoesOn previous [] := fun _ => rfl

theorem IsUnit.goesOn {u : List Token} (h : IsUnit u) {previous : Option Token}
    (hbreak : breaksBefore previous u = false) (hsemicolon : headIsPunct u ";" = false) : GoesOn previous u := by
  intro ts
  rw [h.splitStatement_append (by rwa [breaksBefore_append h.ne_nil]) hsemicolon, lastOf_of_ne_nil h.ne_nil]

theorem goesOn_of_kind {t : Token} (h : t.kind ≠ .punct) {previous : Option Token}
    (hbreak : breaksBefore previous [t] = false) : GoesOn previous [t] :=
  (IsUnit.single (not_bracket_of_kind h).1 (not_bracket_of_kind h).2).goesOn hbreak (not_isPunct_of_kind h ";")

@[simp] theorem lastOf_concat (previous : Option Token) (xs : List Token) (t : Token) :
    lastOf previous (xs ++ [t]) = some t := by simp [lastOf]

@[simp] theorem lastOf_singleton (previous : Option Token) (t : Token) : lastOf previous [t] = some t := rfl

theorem Binding.goesOn {b : Binding} (h : b.WellFormed) {p : Token} (hp : p.expectsMore = true) :
    GoesOn (some p) b.tokens := by
  have hgo := fun ts => breaksBefore_of_expectsMore hp ts
  cases b with
  | default_ name => exact goesOn_of_kind (by simp [h.1]) (hgo _)
  | namespace_ star as_ name =>
    obtain ⟨hstar, has, hname⟩ := h
    obtain ⟨hopener, hcloser⟩ := star_not_bracket hstar
    have hstarGo : GoesOn (some p) [star] :=
      (IsUnit.single hopener hcloser).goesOn (hgo _) (headIsPunct_of_isPunct hstar (by decide))
    have hasGo : GoesOn (some star) [as_] := goesOn_of_kind (by simp [(isIdent_iff.1 has).1])
      (breaksBefore_of_expectsMore (expectsMore_of_isPunct hstar (by decide)) _)
    have hnameGo : GoesOn (some as_) [name] := goesOn_of_kind (by simp [hname.1])
      (breaksBefore_of_expectsMore (expectsMore_of_isIdent has (by decide)) _)
    exact hstarGo.append (hasGo.append hnameGo)
  | named list =>
    have hopener := NamedList.WellFormed.opener h
    have hsemicolon : list.opener.isPunct ";" = false := by simp [Token.isPunct, (isPunct_iff.1 hopener).2]
    exact (NamedList.WellFormed.isUnit_tokens h).goesOn (hgo _) hsemicolon

theorem Binding.goesOn_more {more : List (Token × Binding)}
    (h : ∀ pair ∈ more, pair.1.isPunct "," = true ∧ pair.2.WellFormed) (previous : Option Token) :
    GoesOn previous (more.flatMap fun pair => pair.1 :: pair.2.tokens) := by
  induction more generalizing previous with
  | nil => exact goesOn_nil previous
  | cons pair more ih =>
    obtain ⟨⟨hcomma, hbinding⟩, hrest⟩ := List.forall_mem_cons.1 h
    obtain ⟨hopener, hcloser⟩ := not_bracket_of_isPunct hcomma (by decide)
    have hunit : GoesOn previous [pair.1] := (IsUnit.single hopener hcloser).goesOn
      (breaksBefore_comma hcomma previous []) (headIsPunct_of_isPunct hcomma (by decide))
    have hbinding := Binding.goesOn hbinding (expectsMore_of_isPunct hcomma (by decide))
    exact (hunit.append hbinding).append (ih hrest _)

/-- No line break ends the statement inside a clause: `from` starts no line, and what else may stand behind a line
break stands behind a token that expects more. -/
theorem Clause.goesOn {c : Clause} (h : c.WellFormed) {p : Token} (hp : p.expectsMore = true) :
    GoesOn (some p) c.tokens := by
  obtain ⟨htype, hfirst, hmore, hfrom⟩ := h
  obtain ⟨hkind, htext⟩ := isIdent_iff.1 hfrom
  have hbindings : ∀ {q : Token}, q.expectsMore = true → GoesOn (some q) (c.bindingTokens ++ [c.from_]) := by
    intro q hq
    refine ((Binding.goesOn hfirst hq).append (Binding.goesOn_more hmore _)).append ?_
    exact goesOn_of_kind (by simp [hkind]) (breaksBefore_of_leads (.inr hkind) (by rw [htext]; decide) _ [])
  rw [tokens]
  cases hc : c.typeWord with
  | none => exact hbindings hp
  | some t =>
    have ht := htype t hc
    have hgo : GoesOn (some p) [t] :=
      goesOn_of_kind (by simp [(isIdent_iff.1 ht).1]) (breaksBefore_of_expectsMore hp _)
    exact hgo.append (hbindings (expectsMore_of_isIdent ht (by decide)))

namespace ImportDecl

variable {d : ImportDecl}

theorem WellFormed.goesOn_core (h : d.WellFormed) : GoesOn none d.core := by
  obtain ⟨hkeyword, hclause, hsource, -⟩ := h
  have hexpects := expectsMore_of_isIdent hkeyword (by decide)
  have hfirst : GoesOn none [d.keyword] := goesOn_of_kind (by simp [(isIdent_iff.1 hkeyword).1]) rfl
  have hlast : ∀ {q : Token}, q.expectsMore = true → GoesOn (some q) [d.source] := fun hq =>
    goesOn_of_kind (by simp [hsource]) (breaksBefore_of_expectsMore hq _)
  refine hfirst.append ?_
  cases hc : d.clause with
  | none => exact hlast hexpects
  | some c =>
    have hwf := hclause c hc
    refine (Clause.goesOn hwf hexpects).append ?_
    have hend : lastOf (some d.keyword) c.tokens = some c.from_ := by
      rw [Clause.tokens, ← List.append_assoc, lastOf_concat]
    rw [hend]
    exact hlast (expectsMore_of_isIdent hwf.from_ (by decide))

/-- Behind the source, a line goes on with nothing but the parts of an expression. -/
theorem WellFormed.breaksBefore_source (h : d.WellFormed) {t : Token} (hnewline : t.newlineBefore = true)
    (htext : t.text ∉ leadingContinuations ∧ t.text ≠ "\x7b") (ts : List Token) :
    breaksBefore (some d.source) (t :: ts) = true := by
  simp [breaksBefore, hnewline, continues, Token.expectsMore, h.source, List.contains_eq_mem, htext]

/-- What the declaration leaves over are semicolons. -/
theorem WellFormed.splitStatement_marks (h : d.WellFormed) {ts : List Token}
    (hends : d.marks ≠ [] ∨ splitStatement (some d.source) ts = ([], ts)) :
    ∃ more, (∀ t ∈ more, t.isPunct ";" = true) ∧
      splitStatement (some d.source) (d.marks ++ ts) = (d.ownMark.toList, more ++ ts) := by
  have hmarks := h.marks
  rw [ownMark]
  cases hd : d.marks with
  | nil => exact ⟨[], by simp, hends.resolve_left (fun h => h hd)⟩
  | cons mark more =>
    rw [hd] at hmarks
    obtain ⟨hmark, hmore⟩ := List.forall_mem_cons.1 hmarks
    have htext := (isPunct_iff.1 hmark).2
    cases hnewline : mark.newlineBefore with
    | true =>
      have hbreak := h.breaksBefore_source hnewline (by rw [htext]; decide) (more ++ ts)
      exact ⟨mark :: more, hmarks, by
        rw [List.cons_append, splitStatement_of_breaksBefore hbreak]
        simp [hnewline]⟩
    | false =>
      have hbreak : breaksBefore (some d.source) (mark :: (more ++ ts)) = false := by simp [breaksBefore, hnewline]
      exact ⟨more, hmore, by
        rw [List.cons_append, splitStatement_semicolon hbreak hmark]
        simp [Option.filter, hnewline]⟩

/-- The tokens of the statement. -/
def statement (d : ImportDecl) : List Token := d.core ++ d.ownMark.toList

theorem WellFormed.isPunct_ownMark (h : d.WellFormed) : ∀ t ∈ d.ownMark, t.isPunct ";" = true := by
  intro t ht
  obtain ⟨hmem, -⟩ := Option.filter_eq_some_iff.1 ht
  exact h.marks t (List.mem_of_mem_head? hmem)

/-- What the reader takes from behind the keyword.  It does not stop at the source, but finds no name there. -/
theorem WellFormed.importNames_tail (h : d.WellFormed) : importNames d.statement.tail = d.names := by
  have hown := h.isPunct_ownMark
  rw [statement, core, names]
  cases hc : d.clause with
  | none =>
    have hkind : d.source.kind ≠ .ident := by simp [h.source]
    have hpunct := not_isPunct_of_kind (t := d.source) (by simp [h.source])
    show importNames (d.source :: d.ownMark.toList) = []
    have htype : headIsIdent (d.source :: d.ownMark.toList) "type" = false := not_isIdent_of_kind hkind "type"
    rw [importNames, htype, Bool.false_and, Bool.false_and, if_neg Bool.false_ne_true,
      clauseNames_skip hkind (hpunct _) (hpunct _)]
    have hnil : clauseNames [] = [] := by rw [clauseNames]
    cases hmark : d.ownMark with
    | none => exact hnil
    | some mark => exact (clauseNames_separator (hown mark hmark) (by decide) []).trans hnil
  | some c =>
    simp only [Option.map_some, Option.getD_some, List.cons_append, List.tail_cons, List.append_assoc]
    exact Clause.importNames_append (h.clause c hc) _

/-- Behind the keyword stands no mark of an expression. -/
theorem WellFormed.headIsPunct_tail (h : d.WellFormed) {mark : String} (hmark : mark ∈ marksBehind) :
    headIsPunct d.statement.tail mark = false := by
  rw [statement, core]
  cases hc : d.clause with
  | none => exact not_isPunct_of_kind (by simp [h.source]) mark
  | some c =>
    have hwf := h.clause c hc
    obtain ⟨t, us, hhead, -, hmarks⟩ := Binding.exists_cons hwf.first
    simp only [Option.map_some, Option.getD_some, List.cons_append, List.tail_cons, Clause.tokens,
      Clause.bindingTokens, hhead]
    cases hword : c.typeWord with
    | none => simpa [headIsPunct] using hmarks mark hmark
    | some word =>
      have hkind := (isIdent_iff.1 (hwf.typeWord word hword)).1
      exact not_isPunct_of_kind (by simp [hkind]) mark

theorem spanOf_statement (d : ImportDecl) : spanOf d.statement 0 = d.span := by
  have hlast : d.statement.getLast? = some (d.ownMark.getD d.source) := by
    rw [statement, core]
    cases d.ownMark <;> simp [List.getLast?_cons]
  rw [spanOf, hlast]
  rfl

/-- **What the reader takes from a declaration.** -/
theorem WellFormed.contribution (h : d.WellFormed) :
    Contribution.ofStatement d.statement = ⟨[d.span], d.names⟩ := by
  obtain ⟨hkind, htext⟩ := isIdent_iff.1 h.keyword
  have hident : ∀ word, headIsIdent d.statement word = ("import" == word) := fun word => by
    rw [← htext]
    simp [statement, core, headIsIdent, Token.isIdent, hkind]
  have hhead : headText d.statement = "import" := htext
  have hword : ("import" == "export") = false ∧ ("import" == "declare") = false := by decide
  have hparen : headIsPunct d.statement.tail "(" = false := h.headIsPunct_tail (by decide)
  have hdot : headIsPunct d.statement.tail "." = false := h.headIsPunct_tail (by decide)
  unfold Contribution.ofStatement
  simp only [hident, hword.1, hword.2, hhead, hparen, hdot, h.importNames_tail, d.spanOf_statement, Bool.or_self,
    Bool.false_eq_true, if_false, BEq.rfl, if_true]

end ImportDecl

theorem statements_append_of_semicolons {xs : List Token} (h : ∀ t ∈ xs, t.isPunct ";" = true) (ts : List Token) :
    statements (xs ++ ts) = statements ts := by
  induction xs with
  | nil => rfl
  | cons t xs ih =>
    obtain ⟨ht, hxs⟩ := List.forall_mem_cons.1 h
    rw [List.cons_append, statements_semicolon ht, ih hxs]

/-- **A declaration is a statement.** -/
theorem statements_of_block {ds : List ImportDecl} (h : IsImportBlock ds) :
    (statements (ds.flatMap (·.tokens))).map (·.tokens) = ds.map (·.statement) := by
  obtain ⟨hwf, hchain⟩ := h
  induction ds with
  | nil => rw [List.flatMap_nil, statements_nil]; rfl
  | cons d ds ih =>
    obtain ⟨hd, hds⟩ := List.forall_mem_cons.1 hwf
    have hends : d.marks ≠ [] ∨
        splitStatement (some d.source) (ds.flatMap (·.tokens)) = ([], ds.flatMap (·.tokens)) := by
      cases ds with
      | nil => exact .inr (by rw [List.flatMap_nil, splitStatement])
      | cons next ds =>
        refine (List.isChain_cons_cons.1 hchain).1.imp_right fun hnewline => ?_
        have htext := (isIdent_iff.1 (hwf next (by simp)).keyword).2
        exact splitStatement_of_breaksBefore (hd.breaksBefore_source hnewline (by rw [htext]; decide) _)
    obtain ⟨more, hmore, hsplit⟩ := hd.splitStatement_marks hends
    have hcore := hd.goesOn_core (d.marks ++ ds.flatMap (·.tokens))
    have hlast : lastOf none d.core = some d.source := by
      rw [ImportDecl.core, ← List.cons_append, lastOf_concat]
    rw [hlast, hsplit] at hcore
    have hhead : headIsPunct (d.core ++ (d.marks ++ ds.flatMap (·.tokens))) ";" = false :=
      not_isPunct_of_kind (by simp [(isIdent_iff.1 hd.keyword).1]) ";"
    rw [List.flatMap_cons, ImportDecl.tokens, List.append_assoc,
      statements_of_splitStatement hhead hcore (by simp [ImportDecl.core]), statements_append_of_semicolons hmore,
      List.map_cons, ih hds hchain.tail]
    rfl

/-! ## 4. The block -/

theorem Binding.balanced {b : Binding} (h : b.WellFormed) : Balanced b.tokens := by
  cases b with
  | default_ name => exact (balanced_of_words (by simp [tokens, h.1]) ",").1
  | namespace_ star as_ name =>
    obtain ⟨hstar, has, hname⟩ := h
    obtain ⟨hopener, hcloser⟩ := star_not_bracket hstar
    exact .cons hopener hcloser (balanced_of_words (by simp [(isIdent_iff.1 has).1, hname.1]) ",").1
  | named list => exact (NamedList.WellFormed.isUnit_tokens h).balanced

theorem Clause.balanced {c : Clause} (h : c.WellFormed) : Balanced c.tokens := by
  obtain ⟨htype, hfirst, hmore, hfrom⟩ := h
  have htype : Balanced c.typeWord.toList :=
    (balanced_of_words (fun t ht => by simp [(isIdent_iff.1 (htype t (Option.mem_toList.1 ht))).1]) ",").1
  have hfrom : Balanced [c.from_] := (balanced_of_words (by simp [(isIdent_iff.1 hfrom).1]) ",").1
  have hmore : Balanced (c.more.flatMap fun pair => pair.1 :: pair.2.tokens) := by
    refine Balanced.flatMap fun pair hpair => ?_
    obtain ⟨hcomma, hbinding⟩ := hmore pair hpair
    obtain ⟨hopener, hcloser⟩ := not_bracket_of_isPunct hcomma (by decide)
    exact .cons hopener hcloser (Binding.balanced hbinding)
  exact htype.append (((Binding.balanced hfirst).append hmore).append hfrom)

theorem ImportDecl.WellFormed.balanced {d : ImportDecl} (h : d.WellFormed) : Balanced d.tokens := by
  obtain ⟨hkeyword, hclause, hsource, hmarks⟩ := h
  have hsource : Balanced [d.source] := (balanced_of_words (by simp [hsource]) ",").1
  have hmarks : Balanced d.marks := balanced_of_no_bracket fun t ht => not_bracket_of_isPunct (hmarks t ht) (by decide)
  have hclause : Balanced ((d.clause.map (·.tokens)).getD []) := by
    cases hc : d.clause with
    | none => exact .nil
    | some c => exact Clause.balanced (hclause c hc)
  obtain ⟨hopener, hcloser⟩ := not_bracket_of_kind (t := d.keyword) (by simp [(isIdent_iff.1 hkeyword).1])
  exact .cons hopener hcloser ((hclause.append hsource).append hmarks)

/-- **What a block of imports exposes.**  Reading a text that is written as declarations of imports succeeds.  It finds
the declarations, one behind the other, and exposes the local names that they bind to values, and no others. -/
theorem analyzeSetup_imports_exact {source : String} {ds : List ImportDecl} (hblock : IsImportBlock ds)
    (hwritten : IsWritten source (ds.flatMap (·.tokens))) :
    ∃ facts, analyzeSetup source = .ok facts ∧ facts.imports = ds.map (·.span) ∧
      facts.exposes = ds.flatMap (·.names) := by
  have htokens : tokenize source = .ok (ds.flatMap (·.tokens)) := tokensFrom_of_written hwritten none
  have hbalanced : Balanced (ds.flatMap (·.tokens)) := .flatMap fun d hd => (hblock.wellFormed d hd).balanced
  obtain ⟨facts, hfacts, himports, hexposes⟩ := analyzeSetup_of_balanced hbalanced htokens
  have hparts : (statements (ds.flatMap (·.tokens))).map (Contribution.ofStatement ·.tokens) =
      ds.map fun d => ⟨[d.span], d.names⟩ := by
    have hmap := congrArg (List.map Contribution.ofStatement) (statements_of_block hblock)
    rw [List.map_map, List.map_map] at hmap
    exact hmap.trans (List.map_congr_left fun d hd => (hblock.wellFormed d hd).contribution)
  refine ⟨facts, hfacts, himports.trans ?_, hexposes.trans ?_⟩
  · have hparts := congrArg (List.flatMap (·.imports)) hparts
    rw [List.flatMap_map, List.flatMap_map] at hparts
    exact hparts.trans List.map_eq_flatMap.symm
  · have hparts := congrArg (List.flatMap (·.exposes)) hparts
    rwa [List.flatMap_map, List.flatMap_map] at hparts

def mixedImportsText : String :=
  "import './side.css'\nimport type \x7b T \x7d from './t'; import d, \x7b\n  a as b,\n  type U,\n" ++
    "  c,\n\x7d from './m'\nimport * as ns\n  from './n' // all\n"

/-- Declarations of all kinds. -/
def mixedImports : List ImportDecl := [
  ⟨⟨.ident, "import", ⟨0, 6⟩, false⟩, none, ⟨.string, "'./side.css'", ⟨7, 19⟩, false⟩, []⟩,
  ⟨⟨.ident, "import", ⟨20, 26⟩, true⟩,
    some ⟨some ⟨.ident, "type", ⟨27, 31⟩, false⟩,
      .named ⟨⟨.punct, "\x7b", ⟨32, 33⟩, false⟩, [], some ⟨none, none, ⟨.ident, "T", ⟨34, 35⟩, false⟩⟩,
        ⟨.punct, "\x7d", ⟨36, 37⟩, false⟩⟩,
      [], ⟨.ident, "from", ⟨38, 42⟩, false⟩⟩,
    ⟨.string, "'./t'", ⟨43, 48⟩, false⟩, [⟨.punct, ";", ⟨48, 49⟩, false⟩]⟩,
  ⟨⟨.ident, "import", ⟨50, 56⟩, false⟩,
    some ⟨none, .default_ ⟨.ident, "d", ⟨57, 58⟩, false⟩,
      [(⟨.punct, ",", ⟨58, 59⟩, false⟩, .named ⟨⟨.punct, "\x7b", ⟨60, 61⟩, false⟩,
        [(⟨none, some (⟨.ident, "a", ⟨64, 65⟩, true⟩, ⟨.ident, "as", ⟨66, 68⟩, false⟩),
            ⟨.ident, "b", ⟨69, 70⟩, false⟩⟩, ⟨.punct, ",", ⟨70, 71⟩, false⟩),
          (⟨some ⟨.ident, "type", ⟨74, 78⟩, true⟩, none, ⟨.ident, "U", ⟨79, 80⟩, false⟩⟩,
            ⟨.punct, ",", ⟨80, 81⟩, false⟩),
          (⟨none, none, ⟨.ident, "c", ⟨84, 85⟩, true⟩⟩, ⟨.punct, ",", ⟨85, 86⟩, false⟩)],
        none, ⟨.punct, "\x7d", ⟨87, 88⟩, true⟩⟩)],
      ⟨.ident, "from", ⟨89, 93⟩, false⟩⟩,
    ⟨.string, "'./m'", ⟨94, 99⟩, false⟩, []⟩,
  ⟨⟨.ident, "import", ⟨100, 106⟩, true⟩,
    some ⟨none, .namespace_ ⟨.punct, "*", ⟨107, 108⟩, false⟩ ⟨.ident, "as", ⟨109, 111⟩, false⟩
        ⟨.ident, "ns", ⟨112, 114⟩, false⟩,
      [], ⟨.ident, "from", ⟨117, 121⟩, true⟩⟩,
    ⟨.string, "'./n'", ⟨122, 127⟩, false⟩, []⟩]

theorem analyzeSetup_imports_exact_mixed :
    ∃ facts, analyzeSetup mixedImportsText = .ok facts ∧
      facts.imports = [⟨0, 19⟩, ⟨20, 49⟩, ⟨50, 99⟩, ⟨100, 127⟩] ∧
      facts.exposes = [⟨57, 58⟩, ⟨69, 70⟩, ⟨84, 85⟩, ⟨112, 114⟩] :=
  @analyzeSetup_imports_exact _ mixedImports (by decide +kernel)
    ((tokenize_iff_written (by decide +kernel)).1 (by decide +kernel))

end ComponentLens.Script
