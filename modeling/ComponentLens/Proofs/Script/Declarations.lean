/-
# Declarations as they are written

A setup block of `const`, `let` and `var` statements is here a list of declarators (`Declarator`), each with
the keyword or the comma in front of it.  `Declarator.tokens` writes a declarator down and
`Declarator.names` lists what it binds.  The main theorem (`analyzeSetup_exposes_iff`) says when the names
that `analyzeSetup` exposes are the names that the block declares.

They are not always.  The reader ends the pattern of a declarator at the first equals sign, so a name with a
type and a value is not seen (`const x: number = 1`); it leaves the semicolon in the last declarator, so a
name with nothing behind it is not seen (`let x;`); it takes every comma outside brackets for the end of a
declarator, also one between angle brackets; and it goes on over a line break behind any operator, also the
closing angle bracket of a type.  `ReadsRight` is the exact condition.
-/
import ComponentLens.Proofs.Script.Patterns
import Mathlib.Data.List.Chain

namespace ComponentLens.Script

/-! ## 1. Declarators -/

/-- A declarator: a pattern, and behind it nothing, a type, a value, or both.  `lead` is the keyword of the
statement, or the comma that separates the declarator from the one before. -/
structure Declarator where
  lead : Token
  pattern : Pattern
  /-- What stands behind the pattern: a colon and a type, an equals sign and a value, or one behind the
  other. -/
  rest : List Token
  /-- The semicolon that ends the statement. -/
  semicolon : Option Token

/-- The words that start the declaration of a variable. -/
def variableWords : List String := ["const", "let", "var"]

namespace Declarator

/-- The tokens from the pattern on. -/
def body (d : Declarator) : List Token := d.pattern.tokens ++ (d.rest ++ d.semicolon.toList)

/-- The tokens of a declarator. -/
def tokens (d : Declarator) : List Token := d.lead :: d.body

/-- The names that the declarator declares. -/
def names (d : Declarator) : List Span := d.pattern.names

/-- Whether the declarator is the first of its statement. -/
def isFirst (d : Declarator) : Bool := d.lead.kind == .ident && variableWords.contains d.lead.text

end Declarator

/-- The tokens of a run of declarators. -/
def tokensOf (ds : List Declarator) : List Token := ds.flatMap (·.tokens)

/-- The names that a run of declarators declares, in the order of the source. -/
def namesOf (ds : List Declarator) : List Span := ds.flatMap (·.names)

/-- The words that a statement with names of its own starts with. -/
def declaringWords : List String :=
  ["export", "import", "const", "let", "var", "function", "async", "class", "abstract"]

/-- No line that code does not go on to starts with a declaring word: with such a line the next statement
would begin.  `previous` is the token in front. -/
def Quiet (previous : Option Token) (ts : List Token) : Prop :=
  match ts with
  | [] => True
  | t :: ts =>
    have := unit_rest_le t ts
    (breaksBefore previous (t :: ts) = true → t.text ∉ declaringWords) ∧
      Quiet (unit t ts).1.getLast? (unit t ts).2
termination_by ts.length
decreasing_by simp; omega

/-- A declarator of the grammar: its pattern is well-formed, and a type and a value are balanced, hold no
semicolon outside brackets and no line that starts another statement. -/
structure Declarator.WellFormed (d : Declarator) : Prop where
  lead : d.isFirst = true ∨ d.lead.isPunct "," = true
  pattern : d.pattern.WellFormed
  balanced : Balanced d.rest
  lacks : Lacks ";" d.rest
  quiet : Quiet d.pattern.tokens.getLast? d.rest
  semicolon : ∀ t ∈ d.semicolon, t.isPunct ";" = true

/-- A declarator may stand in front of the next: a comma does not follow a semicolon, and a statement ends
with a semicolon or a line break. -/
def Declarator.Before (d next : Declarator) : Prop :=
  if next.isFirst then d.semicolon.isSome = true ∨ next.lead.newlineBefore = true else d.semicolon = none

/-- A block of declaring statements. -/
structure IsBlock (ds : List Declarator) : Prop where
  wellFormed : ∀ d ∈ ds, d.WellFormed
  chain : ds.IsChain Declarator.Before
  first : ∀ d ∈ ds.head?, d.isFirst = true

/-! ## 2. What is read -/

/-- What the reader takes a declarator to declare. -/
def declaredNames (declarator : List Token) : List Span := boundNames (declaredPattern declarator)

/-- The reader ends the pattern where it ends: nothing follows it, or an equals sign, or a colon with no
equals sign to come. -/
def Fits (behind : List Token) : Prop :=
  behind = [] ∨ headIsPunct behind "=" = true ∨ (headIsPunct behind ":" = true ∧ Lacks "=" behind)

instance (behind : List Token) : Decidable (Fits behind) :=
  inferInstanceAs (Decidable (behind = [] ∨ headIsPunct behind "=" = true ∨
    (headIsPunct behind ":" = true ∧ Lacks "=" behind)))

namespace Declarator

/-- The tokens behind the pattern that the reader gives to the statement, and those that it does not. -/
def behind (d : Declarator) : List Token × List Token :=
  splitStatement d.pattern.tokens.getLast? (d.rest ++ d.semicolon.toList)

/-- Whether the code goes on from a statement without a semicolon to the next. -/
def runsInto (d next : Declarator) : Bool :=
  next.isFirst && d.semicolon.isNone && d.tokens.getLast?.any (·.expectsMore)

/-- The declarator with the one that it runs into. -/
def join (d next : Declarator) : Declarator where
  lead := d.lead
  pattern := d.pattern
  rest := d.rest ++ next.lead :: (next.pattern.tokens ++ next.rest)
  semicolon := next.semicolon

/-- The names of a declarator of a declaring statement are read: those of its pattern if it has any, nothing
behind a comma, and none is `buried` in what the statement runs into. -/
def ReadRight (d : Declarator) (buried : List Span) : Prop :=
  (if Fits (before "," d.behind.1) then d.pattern.Tight else d.names = []) ∧
    laterParts declaredNames "," d.behind.1 = [] ∧ buried = []

end Declarator

/-- The declarators as the reader sees them, each with the names of those that it runs into. -/
def absorb : List Declarator → List (Declarator × List Span)
  | [] => []
  | d :: ds =>
    match absorb ds with
    | [] => [(d, [])]
    | (next, buried) :: more =>
      if d.runsInto next then (d.join next, next.names ++ buried) :: more
      else (d, []) :: (next, buried) :: more

/-- The names of the declarators are read.  `declaring` tells whether the statement so far is a declaring
one.  Behind a line break inside a declarator it is not, and all the names up to the next statement are
lost. -/
def ReadRightFrom (declaring : Bool) : List (Declarator × List Span) → Prop
  | [] => True
  | (d, buried) :: ds =>
    (if declaring || d.isFirst then d.ReadRight buried else d.names = [] ∧ buried = []) ∧
      ReadRightFrom ((declaring || d.isFirst) && d.behind.2.isEmpty) ds

/-- The names of a block are read, and nothing else. -/
def ReadsRight (ds : List Declarator) : Prop := ReadRightFrom false (absorb ds)

/-! ## 3. Reading a declarator -/

theorem singleIdent?_of_length {ts : List Token} (h : 2 ≤ ts.length) : singleIdent? ts = none := by
  match ts with
  | [] => rfl
  | [t] => simp at h
  | _ :: _ :: _ => rfl

theorem isOpener_of_isPunct {t : Token} {opener : String} (h : t.isPunct opener = true)
    (hmem : opener ∈ ["\x7b", "["]) : t.isOpener = true := by
  simp only [isPunct_iff] at h
  simp only [List.mem_cons, List.not_mem_nil, or_false] at hmem
  rcases hmem with rfl | rfl
  · simp [Token.isOpener, Token.closer?, Token.isPunct, h]
  · simp [Token.isOpener, Token.closer?, Token.isPunct, h]

/-- A unit with something behind it is no group. -/
theorem group?_append_of_ne_nil {u ts : List Token} (hu : IsUnit u) (hts : ts ≠ []) {opener : String}
    (hmem : opener ∈ ["\x7b", "["]) : group? opener (u ++ ts) = none := by
  cases hu with
  | single hopener hcloser =>
    rename_i t
    rw [List.singleton_append, group?]
    split
    next hpunct =>
      rw [isOpener_of_isPunct hpunct hmem] at hopener
      simp at hopener
    · rfl
  | group ho hc hinside =>
    have hend := splitGroup?_group ho hc hinside ts
    rw [List.cons_append, group?, List.append_assoc, List.singleton_append, hend]
    split
    · cases ts with
      | nil => exact absurd rfl hts
      | cons t ts => rfl
    · rfl

/-- Nothing is bound by a unit with something behind it. -/
theorem boundNames_append_of_ne_nil {u ts : List Token} (hu : IsUnit u) (hts : ts ≠ []) :
    boundNames (u ++ ts) = [] := by
  have hlength : 2 ≤ (u ++ ts).length := by
    have hu := List.length_pos_iff.2 hu.ne_nil
    have hts := List.length_pos_iff.2 hts
    rw [List.length_append]
    omega
  have hparts : patternParts? (u ++ ts) = none := by
    rw [patternParts?, group?_append_of_ne_nil hu hts (by simp),
      group?_append_of_ne_nil hu hts (by simp)]
    rfl
  conv => lhs; unfold boundNames
  split
  next hname => simp [singleIdent?_of_length hlength] at hname
  next =>
    split
    · rfl
    next hsome => simp [hparts] at hsome

/-- Nothing stands before the first separator. -/
theorem breakAt_fst_eq_nil_iff {separator : String} {ts : List Token} (h : Balanced ts)
    (hmem : separator ∈ separators) :
    (breakAt separator ts).1 = [] ↔ ts = [] ∨ headIsPunct ts separator = true := by
  cases ts, h using Balanced.units with
  | nil => simp [breakAt]
  | cons u ts hu hts _ =>
    obtain ⟨t, us, rfl⟩ := hu.exists_cons
    cases hsep : headIsPunct (t :: us) separator with
    | true =>
      obtain ⟨t', heq, ht⟩ := hu.eq_singleton hsep hmem
      cases heq
      rw [List.singleton_append, breakAt_separator ht]
      simp [headIsPunct, ht]
    | false =>
      have hhead : headIsPunct (t :: us ++ ts) separator = false := hsep
      rw [hu.breakAt_append hsep, hhead]
      simp

/-- **What a declarator with the given tokens behind its pattern declares.**  Either the pattern is read as
it stands, or nothing is. -/
theorem declaredNames_append {p : Pattern} (hp : p.WellFormed) {behind : List Token}
    (hbehind : Balanced behind) :
    declaredNames (p.tokens ++ behind) = if Fits behind then boundNames p.tokens else [] := by
  have hunit := p.isUnit hp.shaped
  have hlacks : ∀ mark, "\x7b" ≠ mark → "[" ≠ mark → Lacks mark p.tokens :=
    fun mark hbrace hbracket => hunit.lacks (p.headIsPunct_tokens hp.shaped hbrace hbracket)
  have hread : ∀ ts : List Token, boundNames (p.tokens ++ ts) = if ts = [] then boundNames p.tokens else [] := by
    intro ts
    split
    next h => rw [h, List.append_nil]
    next h => exact boundNames_append_of_ne_nil hunit h
  have heq := breakAt_append_of_lacks (by decide) hunit.balanced (hlacks "=" (by decide) (by decide)) behind
  have hcolon := breakAt_append_of_lacks (by decide) hunit.balanced (hlacks ":" (by decide) (by decide)) behind
  cases hbreak : (breakAt "=" behind).2 with
  | none =>
    have hpattern : declaredPattern (p.tokens ++ behind) = p.tokens ++ (breakAt ":" behind).1 := by
      rw [declaredPattern, heq, hbreak, before, hcolon]
    have hfits : Fits behind ↔ (breakAt ":" behind).1 = [] := by
      rw [breakAt_fst_eq_nil_iff hbehind (by decide), Fits]
      have hhead : headIsPunct behind "=" = true → behind = [] := by
        intro hhead
        have hfirst := (breakAt_fst_eq_nil_iff hbehind (by decide)).2 (.inr hhead)
        rwa [breakAt_fst_of_lacks hbreak] at hfirst
      have hnone : Lacks "=" behind := hbreak
      tauto
    rw [declaredNames, hpattern, hread]
    simp only [hfits]
  | some value =>
    have hpattern : declaredPattern (p.tokens ++ behind) = p.tokens ++ (breakAt "=" behind).1 := by
      rw [declaredPattern, heq, hbreak]
    have hfits : Fits behind ↔ (breakAt "=" behind).1 = [] := by
      rw [breakAt_fst_eq_nil_iff hbehind (by decide), Fits]
      have hsome : ¬ Lacks "=" behind := by rw [Lacks, hbreak]; simp
      tauto
    rw [declaredNames, hpattern, hread]
    simp only [hfits]

theorem declaredNames_nil : declaredNames [] = [] := by
  rw [declaredNames, declaredPattern, breakAt, before, breakAt, boundNames]
  simp [singleIdent?, patternParts?, group?]

/-- What is read off a declarator: its pattern if the reader ends it where it ends, and behind each comma
what stands there. -/
theorem readParts_declarator {p : Pattern} (hp : p.WellFormed) {behind : List Token}
    (hbehind : Balanced behind) :
    readParts declaredNames "," (p.tokens ++ behind) =
      (if Fits (before "," behind) then boundNames p.tokens else []) ++
        laterParts declaredNames "," behind := by
  have hunit := p.isUnit hp.shaped
  have hlacks : Lacks "," p.tokens := hunit.lacks (p.headIsPunct_tokens hp.shaped (by decide) (by decide))
  rw [readParts_append_of_lacks declaredNames_nil (by decide) hunit.balanced hlacks,
    declaredNames_append hp (hbehind.breakAt (by decide)).1]
  rfl

end ComponentLens.Script
