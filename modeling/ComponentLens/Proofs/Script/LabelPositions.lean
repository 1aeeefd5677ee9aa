/-
# Where labels stand

A label belongs where a statement can start: outside all brackets, or right inside braces around a block of
statements (`InStatements`).  The reader of labels does not look at the bracket around the word `ref`.  It
looks at the one token in front, and only if that is an opening brace does it ask what the brace opens.
A semicolon, a closing brace or a line break in front are enough for it (`EndsMember`), but they end members of
interfaces, classes and object types as they end statements.

So the brackets decide where a word stands first in them, and the marks between members decide everywhere
else.  `labels_inStatements_iff` puts the two together: what can go wrong is a member behind a mark that could
end a statement, and nothing else.  Members of object literals are parted by commas and are never taken for
labels.

Which braces are around statements is what `opensBlock` says.  It looks at the token in front of the brace, so
an object type behind an arrow is one of them, and so is the body of a class that extends a call.
-/
import ComponentLens.Proofs.Script.Brackets
import ComponentLens.Proofs.Script.ReadsRight

namespace ComponentLens.Script

/-! ## 1. Places -/

/-- Behind the tokens a statement can stand: no bracket is open there, or the innermost one that is open is
a brace around statements. -/
def InStatements (before : List Token) : Prop :=
  Balanced before ∨ ∃ front brace inside, before = front ++ brace :: inside ∧ brace.isPunct "\x7b" = true ∧
    opensBlock front.reverse = true ∧ Balanced inside

/-- The token in front of `next` may end a member of any kind: it is a semicolon or a closing brace, or it ends
its line and the code does not go on. -/
def EndsMember (before : List Token) (next : Token) : Prop :=
  ∃ last ∈ before.getLast?, last.isPunct ";" = true ∨ last.isPunct "\x7d" = true ∨
    (next.newlineBefore = true ∧ continues last next = false)

/-- Neither a comma nor an opening bracket ends a member. -/
theorem EndsMember.last {before : List Token} {mark next : Token} (h : EndsMember (before ++ [mark]) next) :
    mark.isPunct "," = false ∧ mark.isOpener = false := by
  obtain ⟨last, hlast, h⟩ := h
  obtain rfl : mark = last := by simpa using hlast
  have hother : ∀ text ∈ [",", "(", "[", "\x7b"], mark.isPunct text = false := by
    intro text htext
    cases hpunct : mark.isPunct text with
    | false => rfl
    | true =>
      obtain ⟨hkind, rfl⟩ : mark.kind = .punct ∧ mark.text = text := by simpa [Token.isPunct] using hpunct
      simp only [List.mem_cons, List.not_mem_nil, or_false] at htext
      rcases htext with hmark | hmark | hmark | hmark
      all_goals simp [Token.isPunct, continues, Token.expectsMore, hkind, hmark] at h
  exact ⟨hother _ (by simp), by simp [Token.isOpener, Token.closer?, hother]⟩

/-- Nothing stands in front but, at most, a brace around statements. -/
def OpensStatements (before : List Token) : Prop :=
  before = [] ∨ ∃ front brace, before = front ++ [brace] ∧ brace.isPunct "\x7b" = true ∧
    opensBlock front.reverse = true

theorem OpensStatements.inStatements {before : List Token} (h : OpensStatements before) :
    InStatements before := by
  rcases h with rfl | ⟨front, brace, rfl, hbrace, hblock⟩
  · exact .inl .nil
  · exact .inr ⟨front, brace, [], rfl, hbrace, hblock, .nil⟩

/-- If a bracket is open behind the tokens, it decides. -/
theorem InStatements.opensBlock {before front : List Token} {bracket : Token} (h : InStatements before)
    (hopen : enclosing? 0 before.reverse = some (bracket, front)) :
    bracket.isPunct "\x7b" = true ∧ Script.opensBlock front = true := by
  rcases h with hbalanced | ⟨front', brace, inside, rfl, hbrace, hblock, hinside⟩
  · rw [hbalanced.enclosing?_eq_none] at hopen
    cases hopen
  · have hopener : brace.isOpener = true := by
      obtain ⟨hkind, htext⟩ : brace.kind = .punct ∧ brace.text = "\x7b" := by
        simpa [Token.isPunct] using hbrace
      simp [Token.isOpener, Token.closer?, Token.isPunct, hkind, htext]
    rw [hinside.enclosing?_opener hopener, Option.some.injEq, Prod.mk.injEq] at hopen
    obtain ⟨rfl, rfl⟩ := hopen
    exact ⟨hbrace, hblock⟩

/-! ## 2. Marks

The reader compares texts alone.  That is enough, since no other token is spelled like one of the marks. -/

/-- The marks that the reader looks for in front of a label. -/
def statementMarks : List String := [";", "\x7b", "\x7d"]

/-- A piece that starts with one of the marks is a punctuator. -/
theorem readPiece_kind {pos : Nat} {previous : Option Token} {c : Char} {cs : List Char} {p : Piece}
    (h : readPiece pos previous c cs = .ok p) (hc : c ∈ [';', '\x7b', '\x7d']) : p.kind = some .punct := by
  obtain ⟨hline, hgap, hslash, hdouble, hsingle, hback, hdigit, hdot, hname⟩ : (c == '\n') = false ∧ isGap c = false ∧
      (c == '/') = false ∧ (c == '"') = false ∧ (c == '\'') = false ∧ (c == '`') = false ∧ c.isDigit = false ∧
      (c == '.') = false ∧ isNameStart c = false := by
    simp only [List.mem_cons, List.not_mem_nil, or_false] at hc
    rcases hc with rfl | rfl | rfl
    all_goals decide
  simp only [readPiece, hline, hgap, hslash, hdouble, hsingle, hback, hdigit, hdot, hname, Bool.false_and, Bool.or_self,
    Bool.false_eq_true, if_false, Except.ok.injEq] at h
  exact h ▸ rfl

theorem tokensFrom_kind {pos : Nat} {previous : Option Token} {broken : Bool} {cs : List Char}
    {ts : List Token} (h : tokensFrom pos previous broken cs = .ok ts) :
    ∀ t ∈ ts, t.text ∈ statementMarks → t.kind = .punct := by
  fun_induction tokensFrom pos previous broken cs generalizing ts with
  | case1 => simp_all
  | case2 => simp_all
  | case3 pos previous broken c cs piece hread _ stop _ _ =>
    rename_i ih
    exact ih h
  | case4 pos previous broken c cs piece hread _ stop _ kind hkind token =>
    rename_i ih
    obtain ⟨rest, hrest, rfl⟩ := map_eq_ok.1 h
    intro t hmem htext
    rcases List.mem_cons.1 hmem with rfl | hmem
    · obtain ⟨tail, htaken, -⟩ := readPiece_append hread
      have hc : c ∈ [';', '\x7b', '\x7d'] := by
        simp only [token, htaken, statementMarks, List.mem_cons, List.not_mem_nil, or_false,
          String.ext_iff, String.toList_ofList] at htext
        simp only [List.mem_cons, List.not_mem_nil, or_false]
        rcases htext with htext | htext | htext
        · exact .inl (List.cons.inj htext).1
        · exact .inr (.inl (List.cons.inj htext).1)
        · exact .inr (.inr (List.cons.inj htext).1)
      have hpunct := readPiece_kind hread hc
      rw [hkind] at hpunct
      exact Option.some.inj hpunct
    · exact ih hrest t hmem htext

/-- **A mark is a punctuator.** -/
theorem isPunct_of_text {source : String} {ts : List Token} (h : tokenize source = .ok ts) {t : Token}
    (hmem : t ∈ ts) {text : String} (hmark : text ∈ statementMarks) :
    t.isPunct text = (t.text == text) := by
  cases heq : t.text == text with
  | false => simp [Token.isPunct, heq]
  | true =>
    have hkind := tokensFrom_kind h t hmem (by rwa [eq_of_beq heq])
    simp [Token.isPunct, hkind, heq]

/-- A label may start right inside a block of statements and behind the end of any member. -/
theorem startsStatement_iff {source : String} {before rest : List Token}
    (htokens : tokenize source = .ok (before ++ rest)) (next : Token) :
    startsStatement next before.reverse = true ↔ OpensStatements before ∨ EndsMember before next := by
  rcases List.eq_nil_or_concat before with rfl | ⟨front, last, rfl⟩
  · simp [startsStatement, OpensStatements]
  · rw [List.concat_eq_append] at htokens ⊢
    have hpunct : ∀ text ∈ statementMarks, last.isPunct text = (last.text == text) :=
      fun text hmark => isPunct_of_text htokens (by simp) hmark
    have hopens : OpensStatements (front ++ [last]) ↔
        (last.text == "\x7b") = true ∧ opensBlock front.reverse = true := by
      rw [← hpunct _ (by decide)]
      constructor
      · rintro (hnil | ⟨front', brace, heq, hbrace, hblock⟩)
        · simp at hnil
        · obtain ⟨rfl, rfl⟩ : front = front' ∧ last = brace := by simpa using heq
          exact ⟨hbrace, hblock⟩
      · rintro ⟨hbrace, hblock⟩
        exact .inr ⟨front, last, rfl, hbrace, hblock⟩
    have hends : EndsMember (front ++ [last]) next ↔ (last.text == ";") = true ∨ (last.text == "\x7d") = true ∨
        (next.newlineBefore = true ∧ continues last next = false) := by
      rw [← hpunct _ (by decide), ← hpunct _ (by decide)]
      simp [EndsMember]
    rw [hopens, hends, List.reverse_append, List.reverse_singleton, List.singleton_append, startsStatement]
    by_cases hend : (last.text == ";" || last.text == "\x7d") = true
    · rw [if_pos hend]
      rw [Bool.or_eq_true] at hend
      refine iff_of_true rfl (.inr ?_)
      tauto
    · rw [if_neg hend]
      rw [Bool.or_eq_true, not_or] at hend
      by_cases hbrace : (last.text == "\x7b") = true
      · have hmore : continues last next = true := by
          have hkind : last.kind = .punct := by
            have := hpunct "\x7b" (by decide)
            rw [hbrace, Token.isPunct, Bool.and_eq_true] at this
            exact eq_of_beq this.1
          simp [continues, Token.expectsMore, hkind, eq_of_beq hbrace]
        simp [hbrace, hend.1, hend.2, hmore]
      · simp [hbrace, hend.1, hend.2]

/-! ## 3. Labels -/

/-- The word of a label stands where the label is read. -/
theorem RefLabel.label_of_read? {before ts : List Token} {label : RefLabel}
    (h : RefLabel.read? before ts = some label) :
    ∃ ref colon rest, ts = ref :: colon :: rest ∧ label.label = ref.span ∧ ref.isIdent "ref" = true ∧
      colon.isPunct ":" = true ∧ startsStatement ref before = true := by
  unfold RefLabel.read? at h
  split at h
  next ref colon rest =>
    split at h
    next hlabel =>
      cases h
      simp only [Bool.and_eq_true] at hlabel
      exact ⟨ref, colon, rest, rfl, rfl, hlabel.1.1, hlabel.1.2, hlabel.2⟩
    next => cases h
  next => cases h

/-- Labels are read from every place. -/
theorem mem_refLabelsFrom {behind ts : List Token} {label : RefLabel} :
    label ∈ refLabelsFrom behind ts ↔
      ∃ before rest, ts = before ++ rest ∧ RefLabel.read? (before.reverse ++ behind) rest = some label := by
  induction ts generalizing behind with
  | nil =>
    simp only [refLabelsFrom, List.not_mem_nil, false_iff, not_exists, not_and]
    intro before rest hsplit
    obtain ⟨rfl, rfl⟩ := List.append_eq_nil_iff.1 hsplit.symm
    simp [RefLabel.read?]
  | cons t ts ih =>
    rw [refLabelsFrom, List.mem_append, Option.mem_toList, ih]
    constructor
    · rintro (hread | ⟨before, rest, rfl, hread⟩)
      · exact ⟨[], t :: ts, rfl, hread⟩
      · exact ⟨t :: before, rest, rfl, by simpa using hread⟩
    · rintro ⟨before, rest, hsplit, hread⟩
      cases before with
      | nil =>
        obtain rfl : t :: ts = rest := hsplit
        exact .inl hread
      | cons u before =>
        obtain ⟨rfl, rfl⟩ := List.cons.inj hsplit
        exact .inr ⟨before, rest, rfl, by simpa using hread⟩

section

variable {source : String} {ts : List Token} {facts : SetupFacts}

/-- A token is known by its place. -/
theorem split_eq_of_span (htokens : tokenize source = .ok ts) {before before' rest rest' : List Token}
    {t t' : Token} (h : ts = before ++ t :: rest) (h' : ts = before' ++ t' :: rest')
    (hspan : t.span = t'.span) : before = before' ∧ t = t' ∧ rest = rest' := by
  have hdistinct := nodup_spansOf htokens
  have hindex : ∀ {before rest : List Token} {t : Token}, ts = before ++ t :: rest →
      (spansOf ts).idxOf t.span = before.length := by
    rintro before rest t rfl
    rw [spansOf_append, spansOf_cons] at hdistinct ⊢
    have hnot : t.span ∉ spansOf before :=
      fun hmem => (List.nodup_append.1 hdistinct).2.2 _ hmem _ List.mem_cons_self rfl
    rw [List.idxOf_append_of_notMem hnot, List.idxOf_cons_self, Nat.add_zero, spansOf, List.length_map]
  have hlength : before.length = before'.length := by rw [← hindex h, ← hindex h', hspan]
  obtain ⟨hbefore, hrest⟩ := List.append_inj (h.symm.trans h') hlength
  exact ⟨hbefore, List.cons.inj hrest⟩

/-- What is reported for a block is what is read from its places. -/
theorem mem_labels_iff (htokens : tokenize source = .ok ts) (hfacts : analyzeSetup source = .ok facts)
    {label : RefLabel} : label ∈ facts.labels ↔
      ∃ before rest, ts = before ++ rest ∧ RefLabel.read? before.reverse rest = some label := by
  obtain ⟨us, hblock, hreturn⟩ := bind_eq_ok.1 hfacts
  obtain rfl : us = ts := Except.ok.inj ((balancedTokens_eq_ok hblock).symm.trans htokens)
  cases hreturn
  simp only [refLabels, mem_refLabelsFrom, List.append_nil]

/-- **Which words are labels.**  A word `ref` in front of a colon is reported exactly if it is the first in a
block of statements or stands behind the end of a member. -/
theorem reported_iff (htokens : tokenize source = .ok ts) (hfacts : analyzeSetup source = .ok facts)
    {before rest : List Token} {ref colon : Token} (hstands : ts = before ++ ref :: colon :: rest)
    (href : ref.isIdent "ref" = true) (hcolon : colon.isPunct ":" = true) :
    (∃ label ∈ facts.labels, label.label = ref.span) ↔ OpensStatements before ∨ EndsMember before ref := by
  rw [← startsStatement_iff (hstands ▸ htokens)]
  constructor
  · rintro ⟨label, hlabel, hspan⟩
    obtain ⟨before', rest', hsplit, hread⟩ := (mem_labels_iff htokens hfacts).1 hlabel
    obtain ⟨ref', colon', more, rfl, hspan', -, -, hstart⟩ := RefLabel.label_of_read? hread
    obtain ⟨rfl, rfl, -⟩ := split_eq_of_span htokens hstands hsplit (hspan.symm.trans hspan')
    exact hstart
  · intro hstart
    obtain ⟨label, hread⟩ : ∃ label, RefLabel.read? before.reverse (ref :: colon :: rest) = some label := by
      simp [RefLabel.read?, href, hcolon, hstart]
    obtain ⟨ref', colon', more, heq, hspan, -⟩ := RefLabel.label_of_read? hread
    obtain ⟨rfl, -⟩ := List.cons.inj heq
    exact ⟨label, (mem_labels_iff htokens hfacts).2 ⟨before, _, hstands, hread⟩, hspan⟩

/-- A label that is reported is a word in front of a colon. -/
theorem stands_of_mem_labels (htokens : tokenize source = .ok ts) (hfacts : analyzeSetup source = .ok facts)
    {label : RefLabel} (hlabel : label ∈ facts.labels) :
    ∃ before ref colon rest, ts = before ++ ref :: colon :: rest ∧ label.label = ref.span ∧
      ref.isIdent "ref" = true ∧ colon.isPunct ":" = true := by
  obtain ⟨before, rest, hsplit, hread⟩ := (mem_labels_iff htokens hfacts).1 hlabel
  obtain ⟨ref, colon, more, rfl, hspan, href, hcolon, -⟩ := RefLabel.label_of_read? hread
  exact ⟨before, ref, colon, more, hsplit, hspan, href, hcolon⟩

/-- **Labels stand among statements** exactly if every word `ref` with a colon that stands behind the end of a
member does.  No label stands behind a comma, and none right behind a bracket that is not around
statements: the places where a member of an object literal can stand. -/
theorem labels_inStatements_iff (htokens : tokenize source = .ok ts)
    (hfacts : analyzeSetup source = .ok facts) :
    ((∀ label ∈ facts.labels, ∃ before ref rest, ts = before ++ ref :: rest ∧ label.label = ref.span ∧
        InStatements before) ↔
      ∀ before ref colon rest, ts = before ++ ref :: colon :: rest → ref.isIdent "ref" = true →
        colon.isPunct ":" = true → EndsMember before ref → InStatements before) ∧
    ∀ label ∈ facts.labels, ∀ before mark ref rest, ts = before ++ mark :: ref :: rest →
      label.label = ref.span → mark.isPunct "," = false ∧
        (mark.isOpener = true → mark.isPunct "\x7b" = true ∧ opensBlock before.reverse = true) := by
  refine ⟨⟨fun hall before ref colon rest hstands href hcolon hends => ?_,
    fun hall label hlabel => ?_⟩, fun label hlabel before mark ref rest hstands hspan => ?_⟩
  · obtain ⟨label, hlabel, hspan⟩ := (reported_iff htokens hfacts hstands href hcolon).2 (.inr hends)
    obtain ⟨before', ref', rest', hsplit, hspan', hin⟩ := hall label hlabel
    obtain ⟨rfl, -⟩ := split_eq_of_span htokens hstands hsplit (hspan.symm.trans hspan')
    exact hin
  · obtain ⟨before, ref, colon, rest, hstands, hspan, href, hcolon⟩ :=
      stands_of_mem_labels htokens hfacts hlabel
    refine ⟨before, ref, colon :: rest, hstands, hspan, ?_⟩
    rcases (reported_iff htokens hfacts hstands href hcolon).1 ⟨label, hlabel, hspan⟩ with hopens | hends
    · exact hopens.inStatements
    · exact hall before ref colon rest hstands href hcolon hends
  · obtain ⟨before', ref', colon, rest', hsplit, hspan', href, hcolon⟩ :=
      stands_of_mem_labels htokens hfacts hlabel
    have hstands : ts = (before ++ [mark]) ++ ref :: rest := by simpa using hstands
    obtain ⟨rfl, rfl, -⟩ := split_eq_of_span htokens hstands hsplit (hspan.symm.trans hspan')
    rcases (reported_iff htokens hfacts hsplit href hcolon).1 ⟨label, hlabel, hspan⟩ with hopens | hends
    · rcases hopens with hnil | ⟨front, brace, heq, hbrace, hblock⟩
      · simp at hnil
      · obtain ⟨rfl, rfl⟩ : before = front ∧ mark = brace := by simpa using heq
        refine ⟨?_, fun _ => ⟨hbrace, hblock⟩⟩
        simp only [isPunct_iff] at hbrace
        simp [Token.isPunct, hbrace.2]
    · obtain ⟨hcomma, hopener⟩ := hends.last
      exact ⟨hcomma, fun hopens => by simp [hopener] at hopens⟩

end

/-- What stands in front of the brace of `f` in `function f() { g(); ref: a = 1 }`, with a line for each
statement. -/
def blockHead : List Token :=
  [⟨.ident, "function", ⟨0, 8⟩, false⟩, ⟨.ident, "f", ⟨9, 10⟩, false⟩, ⟨.punct, "(", ⟨10, 11⟩, false⟩,
    ⟨.punct, ")", ⟨11, 12⟩, false⟩]

/-- The first statement of the block. -/
def blockStatement : List Token :=
  [⟨.ident, "g", ⟨17, 18⟩, true⟩, ⟨.punct, "(", ⟨18, 19⟩, false⟩, ⟨.punct, ")", ⟨19, 20⟩, false⟩,
    ⟨.punct, ";", ⟨20, 21⟩, false⟩]

/-- A label behind the statement of a function, and none behind the member of an object literal. -/
theorem labels_inStatements_functionBody : ∃ ts facts,
    tokenize "function f() \x7b\n  g();\n  ref: a = 1\n\x7d\nconst o = \x7b b: 1, ref: 2 \x7d" = .ok ts ∧
      analyzeSetup "function f() \x7b\n  g();\n  ref: a = 1\n\x7d\nconst o = \x7b b: 1, ref: 2 \x7d" =
        .ok facts ∧
      facts.labels.map (·.label) = [⟨24, 27⟩] ∧
      ((∀ before ref colon rest, ts = before ++ ref :: colon :: rest → ref.isIdent "ref" = true →
        colon.isPunct ":" = true → EndsMember before ref → InStatements before) ∧
      ∀ label ∈ facts.labels, ∀ before mark ref rest, ts = before ++ mark :: ref :: rest →
        label.label = ref.span → mark.isPunct "," = false ∧
          (mark.isOpener = true → mark.isPunct "\x7b" = true ∧ opensBlock before.reverse = true)) := by
  have htokens : tokenize "function f() \x7b\n  g();\n  ref: a = 1\n\x7d\nconst o = \x7b b: 1, ref: 2 \x7d" =
      .ok ((blockHead ++ ⟨.punct, "\x7b", ⟨13, 14⟩, false⟩ :: blockStatement) ++
        ⟨.ident, "ref", ⟨24, 27⟩, true⟩ :: [⟨.punct, ":", ⟨27, 28⟩, false⟩, ⟨.ident, "a", ⟨29, 30⟩, false⟩,
          ⟨.punct, "=", ⟨31, 32⟩, false⟩, ⟨.number, "1", ⟨33, 34⟩, false⟩, ⟨.punct, "\x7d", ⟨35, 36⟩, true⟩,
          ⟨.ident, "const", ⟨37, 42⟩, true⟩, ⟨.ident, "o", ⟨43, 44⟩, false⟩, ⟨.punct, "=", ⟨45, 46⟩, false⟩,
          ⟨.punct, "\x7b", ⟨47, 48⟩, false⟩, ⟨.ident, "b", ⟨49, 50⟩, false⟩, ⟨.punct, ":", ⟨50, 51⟩, false⟩,
          ⟨.number, "1", ⟨52, 53⟩, false⟩, ⟨.punct, ",", ⟨53, 54⟩, false⟩, ⟨.ident, "ref", ⟨55, 58⟩, false⟩,
          ⟨.punct, ":", ⟨58, 59⟩, false⟩, ⟨.number, "2", ⟨60, 61⟩, false⟩,
          ⟨.punct, "\x7d", ⟨62, 63⟩, false⟩]) := by
    decide +kernel
  have hfacts : analyzeSetup
      "function f() \x7b\n  g();\n  ref: a = 1\n\x7d\nconst o = \x7b b: 1, ref: 2 \x7d" =
      .ok { exposes := [⟨9, 10⟩, ⟨43, 44⟩]
            labels := [⟨⟨24, 34⟩, ⟨24, 27⟩, [⟨⟨29, 34⟩, ⟨29, 30⟩, some ⟨33, 34⟩, [⟨"a", ⟨29, 30⟩, false, false⟩]⟩]⟩] } := by
    decide +kernel
  have hinside : Balanced blockStatement :=
    .cons (by decide) (by decide) (@Balanced.group _ _ [] _ (by decide) (by decide) .nil
      (.cons (by decide) (by decide) .nil))
  have hin : InStatements (blockHead ++ ⟨.punct, "\x7b", ⟨13, 14⟩, false⟩ :: blockStatement) :=
    .inr ⟨blockHead, _, blockStatement, rfl, by decide, by decide, hinside⟩
  have hboth := labels_inStatements_iff htokens hfacts
  refine ⟨_, _, htokens, hfacts, rfl, hboth.1.1 ?_, hboth.2⟩
  intro label hlabel
  obtain rfl := List.mem_singleton.1 hlabel
  exact ⟨_, _, _, rfl, rfl, hin⟩

/-- What stands in front of the word `ref` in `interface P { a: string; ref: number }`. -/
def interfaceFront : List Token :=
  [⟨.ident, "interface", ⟨0, 9⟩, false⟩, ⟨.ident, "P", ⟨10, 11⟩, false⟩, ⟨.punct, "\x7b", ⟨12, 13⟩, false⟩,
    ⟨.ident, "a", ⟨14, 15⟩, false⟩, ⟨.punct, ":", ⟨15, 16⟩, false⟩, ⟨.ident, "string", ⟨17, 23⟩, false⟩,
    ⟨.punct, ";", ⟨23, 24⟩, false⟩]

/-- The second member of an interface is reported as a label, although its brace opens no statements. -/
theorem not_labels_inStatements_interface : ∃ ts facts,
    tokenize "interface P \x7b a: string; ref: number \x7d" = .ok ts ∧
      analyzeSetup "interface P \x7b a: string; ref: number \x7d" = .ok facts ∧
      facts.labels.map (·.label) = [⟨25, 28⟩] ∧
      ¬ ∀ label ∈ facts.labels, ∃ before ref rest, ts = before ++ ref :: rest ∧ label.label = ref.span ∧
        InStatements before := by
  have htokens : tokenize "interface P \x7b a: string; ref: number \x7d" =
      .ok (interfaceFront ++ ⟨.ident, "ref", ⟨25, 28⟩, false⟩ :: [⟨.punct, ":", ⟨28, 29⟩, false⟩,
        ⟨.ident, "number", ⟨30, 36⟩, false⟩, ⟨.punct, "\x7d", ⟨37, 38⟩, false⟩]) := by
    decide +kernel
  have hfacts : analyzeSetup "interface P \x7b a: string; ref: number \x7d" =
      .ok { labels := [⟨⟨25, 36⟩, ⟨25, 28⟩, [⟨⟨30, 36⟩, ⟨30, 36⟩, none, [⟨"number", ⟨30, 36⟩, false, false⟩]⟩]⟩] } := by
    decide +kernel
  have hopen : enclosing? 0 interfaceFront.reverse = some (⟨.punct, "\x7b", ⟨12, 13⟩, false⟩,
      [⟨.ident, "P", ⟨10, 11⟩, false⟩, ⟨.ident, "interface", ⟨0, 9⟩, false⟩]) := by
    decide
  refine ⟨_, _, htokens, hfacts, rfl, fun hall => ?_⟩
  obtain ⟨before, ref, rest, hsplit, hspan, hin⟩ := hall _ (List.mem_singleton_self _)
  obtain ⟨rfl, -⟩ := split_eq_of_span htokens rfl hsplit hspan
  exact absurd (hin.opensBlock hopen).2 (by decide)

end ComponentLens.Script
