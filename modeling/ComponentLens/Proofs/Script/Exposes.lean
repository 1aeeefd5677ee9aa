/-
# What a run of declarators exposes

`analyzeSetup` cuts a block into statements, takes each that starts with a declaring word apart at its
commas, and reads one name or pattern off each part.  On a run of declarators that no statement runs out of
(`IsSettled`) this comes to a walk from declarator to declarator (`exposesOf_tokensOf`): a declarator is read
as long as the statement so far is a declaring one.  A line break inside a declarator ends that statement.
What is left over is `Silent`: its lines start with no declaring word, and the walk passes it by.
-/
import ComponentLens.Proofs.Script.Declarations
import ComponentLens.Script.Analysis

namespace ComponentLens.Script

/-! ## 1. Quiet lines -/

theorem quiet_nil (previous : Option Token) : Quiet previous [] := by
  rw [Quiet]
  trivial

theorem IsUnit.quiet_append {u : List Token} (h : IsUnit u) (previous : Option Token) (ts : List Token) :
    Quiet previous (u ++ ts) ↔
      (breaksBefore previous u = true → headText u ∉ declaringWords) ∧ Quiet u.getLast? ts := by
  obtain ⟨t, us, rfl⟩ := h.exists_cons
  rw [List.cons_append, Quiet, h.unit_append]
  exact Iff.rfl

/-- Lines are quiet part by part. -/
theorem quiet_append {xs : List Token} (h : Balanced xs) (previous : Option Token) (ys : List Token) :
    Quiet previous (xs ++ ys) ↔ Quiet previous xs ∧ Quiet (lastOf previous xs) ys := by
  induction xs, h using Balanced.units generalizing previous with
  | nil => simp [quiet_nil]
  | cons u ts hu hts ih =>
    rw [List.append_assoc, hu.quiet_append, hu.quiet_append, ih, lastOf_append,
      lastOf_of_ne_nil hu.ne_nil, and_assoc]

/-- At the start of the tokens no line has to be quiet. -/
theorem Quiet.start {previous : Option Token} {ts : List Token} (h : Balanced ts)
    (hquiet : Quiet previous ts) : Quiet none ts := by
  cases ts, h using Balanced.units with
  | nil => exact quiet_nil none
  | cons u ts hu hts _ =>
    rw [hu.quiet_append] at hquiet ⊢
    refine ⟨fun hbreak => ?_, hquiet.2⟩
    cases hhead : u.head? <;> simp [breaksBefore, hhead] at hbreak

theorem Quiet.headText_notMem {previous : Option Token} {ts : List Token} (hquiet : Quiet previous ts)
    (hbreak : breaksBefore previous ts = true) : headText ts ∉ declaringWords := by
  cases ts with
  | nil => simp [breaksBefore] at hbreak
  | cons t ts =>
    rw [Quiet] at hquiet
    exact hquiet.1 hbreak

/-! ## 2. Statements of a block -/

/-- The names that the statements of the tokens expose. -/
def exposesOf (ts : List Token) : List Span :=
  (statements ts).flatMap fun s => (Contribution.ofStatement s.tokens).exposes

theorem exposesOf_nil : exposesOf [] = [] := by
  rw [exposesOf, statements_nil]
  rfl

theorem exposesOf_semicolon {t : Token} (ht : t.isPunct ";" = true) (ts : List Token) :
    exposesOf (t :: ts) = exposesOf ts := by
  rw [exposesOf, statements_semicolon ht]
  rfl

/-- The first statement exposes its names, and then the others do. -/
theorem exposesOf_statement {ts statement rest : List Token} (hsemicolon : headIsPunct ts ";" = false)
    (hsplit : splitStatement none ts = (statement, rest)) (hne : statement ≠ []) :
    exposesOf ts = (Contribution.ofStatement statement).exposes ++ exposesOf rest := by
  rw [exposesOf, statements_of_splitStatement hsemicolon hsplit hne]
  rfl

/-- Reading balanced tokens succeeds, and takes what their statements add. -/
theorem analyzeSetup_of_balanced {source : String} {ts : List Token} (hts : Balanced ts)
    (htokens : tokenize source = .ok ts) :
    ∃ facts, analyzeSetup source = .ok facts ∧
      facts.imports = (statements ts).flatMap (fun s => (Contribution.ofStatement s.tokens).imports) ∧
      facts.exposes = exposesOf ts := by
  obtain ⟨partners, hpairs⟩ := pairs_ok hts
  have hbalanced : balancedTokens source = .ok ts :=
    bind_eq_ok.2 ⟨_, htokens, bind_eq_ok.2 ⟨partners, hpairs, rfl⟩⟩
  refine ⟨_, bind_eq_ok.2 ⟨_, hbalanced, rfl⟩, ?_, ?_⟩
  · simp only [List.flatMap_map]
  · simp only [exposesOf, List.flatMap_map]

/-- A statement that starts with no declaring word exposes nothing. -/
theorem exposes_eq_nil_of_headText {statement : List Token} (h : headText statement ∉ declaringWords) :
    (Contribution.ofStatement statement).exposes = [] := by
  have hexport : headIsIdent statement "export" = false := by
    cases statement with
    | nil => rfl
    | cons t ts =>
      simp only [headText, List.head?_cons, Option.map_some, Option.getD_some] at h
      simp only [headIsIdent, List.head?_cons, Option.any_some, Token.isIdent, Bool.and_eq_false_iff,
        beq_eq_false_iff_ne]
      exact .inr fun heq => h (by rw [heq]; decide)
  have hword : ∀ word ∈ declaringWords, (headText statement == word) = false := by
    intro word hword
    rw [beq_eq_false_iff_ne]
    rintro rfl
    exact h hword
  have hdefinition : definitionWords.contains (headText statement) = false := by
    rw [List.contains_eq_mem, decide_eq_false_iff_not]
    have hsubset : definitionWords ⊆ declaringWords := by simp [definitionWords, declaringWords]
    exact fun hmem => h (hsubset hmem)
  unfold Contribution.ofStatement
  simp only [hexport, Bool.false_eq_true, if_false, hword "import" (by decide),
    hword "const" (by decide), hword "let" (by decide), hword "var" (by decide), Bool.or_self,
    hdefinition, ite_self]

theorem splitStatement_of_semicolon_or_break {previous : Option Token} {semicolon : Option Token}
    (hsemicolon : ∀ t ∈ semicolon, t.isPunct ";" = true) {ts : List Token}
    (hends : semicolon.isSome = true ∨ ts = [] ∨ breaksBefore previous ts = true) :
    splitStatement previous (semicolon.toList ++ ts) = (semicolon.toList, ts) ∨
      splitStatement previous (semicolon.toList ++ ts) = ([], semicolon.toList ++ ts) := by
  cases semicolon with
  | some t =>
    rw [Option.toList_some, List.singleton_append]
    cases hbreak : breaksBefore previous (t :: ts) with
    | true => exact .inr (splitStatement_of_breaksBefore hbreak)
    | false => exact .inl (splitStatement_semicolon hbreak (hsemicolon t rfl))
  | none =>
    rw [Option.toList_none, List.nil_append]
    rcases hends with h | rfl | h
    · simp at h
    · exact .inl (by rw [splitStatement])
    · exact .inr (splitStatement_of_breaksBefore h)

theorem exposesOf_semicolons {semicolon : Option Token} (h : ∀ t ∈ semicolon, t.isPunct ";" = true)
    (ts : List Token) : exposesOf (semicolon.toList ++ ts) = exposesOf ts := by
  cases semicolon with
  | some t => exact exposesOf_semicolon (h t rfl) ts
  | none => rfl

/-- Tokens without names: they start with no declaring word, and none of their lines does. -/
structure Silent (ts : List Token) : Prop where
  balanced : Balanced ts
  lacks : Lacks ";" ts
  ne_nil : ts ≠ []
  quiet : Quiet none ts
  head : headText ts ∉ declaringWords

/-- What a statement leaves over of quiet lines is silent. -/
theorem silent_of_splitStatement {xs first rest : List Token} {previous : Option Token} (hxs : Balanced xs)
    (hlacks : Lacks ";" xs) (hquiet : Quiet previous xs)
    (hsplit : splitStatement previous xs = (first, rest)) (hrest : rest ≠ []) :
    Silent rest ∧ lastOf none rest = lastOf previous xs := by
  have happend := splitStatement_append previous xs
  obtain ⟨hfirst, hsecond⟩ := hxs.splitStatement previous
  have hne : (splitStatement previous xs).2 ≠ [] := by rwa [hsplit]
  have hbreak := breaksBefore_of_splitStatement hxs hlacks hne
  simp only [hsplit] at happend hfirst hsecond hbreak
  subst happend
  have hquietRest := ((quiet_append hfirst previous rest).1 hquiet).2
  have hlacksRest := ((lacks_append (by decide) hfirst).1 hlacks).2
  refine ⟨⟨hsecond, hlacksRest, hrest, hquietRest.start hsecond, hquietRest.headText_notMem hbreak⟩, ?_⟩
  rw [lastOf_append, lastOf_of_ne_nil hrest, lastOf_of_ne_nil hrest]

theorem Silent.headIsPunct_append {xs : List Token} (h : Silent xs) (ys : List Token) :
    headIsPunct (xs ++ ys) ";" = false := by
  obtain ⟨hxs, hlacks, hne, -, -⟩ := h
  cases xs, hxs using Balanced.units with
  | nil => exact absurd rfl hne
  | cons u us hu hus _ =>
    obtain ⟨t, ts, rfl⟩ := hu.exists_cons
    exact hu.headIsPunct_semicolon hlacks

/-- **Silent tokens expose nothing.**  They are a run of statements without names, up to its end. -/
theorem Silent.exposesOf_append {xs : List Token} (h : Silent xs) {semicolon : Option Token}
    (hsemicolon : ∀ t ∈ semicolon, t.isPunct ";" = true) {ts : List Token}
    (hends : semicolon.isSome = true ∨ ts = [] ∨ breaksBefore (lastOf none xs) ts = true) :
    exposesOf (xs ++ (semicolon.toList ++ ts)) = exposesOf ts := by
  obtain ⟨n, hn⟩ : ∃ n, xs.length ≤ n := ⟨_, Nat.le_refl _⟩
  induction n generalizing xs with
  | zero => exact absurd (List.length_eq_zero_iff.1 (Nat.le_zero.1 hn)) h.ne_nil
  | succ n ih =>
    have hstart := h.headIsPunct_append
    obtain ⟨hxs, hlacks, hne, hquiet, hhead⟩ := h
    have hheads : ∀ ys zs, ys ≠ [] → ys ++ zs = xs → ∀ ws, headText (ys ++ ws) ∉ declaringWords := by
      rintro (_ | ⟨y, ys⟩) zs hys rfl ws
      · exact absurd rfl hys
      · exact hhead
    have hfirst := splitStatement_fst_ne_nil hxs hne
    have happend := splitStatement_append none xs
    have hwhole := splitStatement_append_of_balanced hxs hlacks none (semicolon.toList ++ ts)
    rcases hsplit : splitStatement none xs with ⟨first, rest⟩
    simp only [hsplit] at hfirst happend hwhole
    by_cases hrest : rest = []
    · rw [hrest, List.isEmpty_nil, if_pos rfl] at hwhole
      rcases splitStatement_of_semicolon_or_break hsemicolon hends with h | h
      · rw [h] at hwhole
        rw [exposesOf_statement (hstart _) hwhole (by simp [hne]),
          exposes_eq_nil_of_headText (hheads xs [] hne (List.append_nil xs) _), List.nil_append]
      · rw [h] at hwhole
        rw [exposesOf_statement (hstart _) hwhole (by simp [hne]),
          exposes_eq_nil_of_headText (hheads xs [] hne (List.append_nil xs) _), List.nil_append,
          exposesOf_semicolons hsemicolon]
    · obtain ⟨hsilent, hlast⟩ := silent_of_splitStatement hxs hlacks hquiet hsplit hrest
      rw [if_neg (by simpa using hrest)] at hwhole
      have hlength : rest.length ≤ n := by
        have hlength := congrArg List.length happend
        have hpos := List.length_pos_iff.2 hfirst
        rw [List.length_append] at hlength
        omega
      have hnothing := exposes_eq_nil_of_headText (hheads first rest hfirst happend [])
      rw [List.append_nil] at hnothing
      rw [exposesOf_statement (hstart _) hwhole hfirst, hnothing, List.nil_append]
      exact ih hsilent (hlast ▸ hends) hlength

/-! ## 3. Line breaks between declarators -/

theorem expectsMore_of_isIdent {t : Token} {word : String} (h : t.isIdent word = true)
    (hword : word ∈ continuingKeywords) : t.expectsMore = true := by
  obtain ⟨hkind, rfl⟩ := isIdent_iff.1 h
  simpa [Token.expectsMore, hkind, List.contains_eq_mem] using hword

theorem expectsMore_of_isPunct {t : Token} {mark : String} (h : t.isPunct mark = true)
    (hmark : mark ∉ [")", "]", "\x7d", "++", "--"]) : t.expectsMore = true := by
  obtain ⟨hkind, rfl⟩ := isPunct_iff.1 h
  simpa [Token.expectsMore, hkind, List.contains_eq_mem] using hmark

theorem breaksBefore_of_expectsMore {t : Token} (h : t.expectsMore = true) (ts : List Token) :
    breaksBefore (some t) ts = false := by
  cases ts with
  | nil => rfl
  | cons u us => simp [breaksBefore, continues, h]

/-- What no statement starts with goes on with the line in front. -/
theorem breaksBefore_of_leads {t : Token} (hkind : t.kind = .punct ∨ t.kind = .ident)
    (htext : t.text ∈ leadingContinuations) (previous : Option Token) (ts : List Token) :
    breaksBefore previous (t :: ts) = false := by
  have hcontinues : ∀ p, continues p t = true := fun p => by
    rcases hkind with h | h <;> simp [continues, h, htext]
  cases previous with
  | none => rfl
  | some p => simp [breaksBefore, hcontinues p]

theorem breaksBefore_comma {comma : Token} (h : comma.isPunct "," = true) (previous : Option Token)
    (ts : List Token) : breaksBefore previous (comma :: ts) = false := by
  obtain ⟨hkind, htext⟩ := isPunct_iff.1 h
  exact breaksBefore_of_leads (.inl hkind) (by rw [htext]; decide) previous ts

namespace Declarator

variable {d next : Declarator}

theorem isFirst_iff : d.isFirst = true ↔ d.lead.kind = .ident ∧ d.lead.text ∈ variableWords := by
  simp [isFirst, List.contains_eq_mem]

theorem WellFormed.isPunct_lead (h : d.WellFormed) (hfirst : d.isFirst = false) :
    d.lead.isPunct "," = true := by
  rcases h.lead with hlead | hlead
  · rw [hfirst] at hlead
    exact absurd hlead Bool.false_ne_true
  · exact hlead

/-- Behind a keyword or a comma the line goes on. -/
theorem WellFormed.lead_expectsMore (h : d.WellFormed) : d.lead.expectsMore = true := by
  rcases h.lead with hlead | hlead
  · obtain ⟨hkind, htext⟩ := isFirst_iff.1 hlead
    have hsubset : variableWords ⊆ continuingKeywords := by simp [variableWords, continuingKeywords]
    simp [Token.expectsMore, hkind, List.contains_eq_mem, hsubset htext]
  · exact expectsMore_of_isPunct hlead (by decide)

/-- Code goes on to a keyword only from a token that expects more. -/
theorem continues_lead (h : next.isFirst = true) (p : Token) :
    continues p next.lead = p.expectsMore := by
  obtain ⟨hkind, htext⟩ := isFirst_iff.1 h
  simp only [variableWords, List.mem_cons, List.not_mem_nil, or_false] at htext
  rcases htext with htext | htext | htext
  all_goals simp [continues, htext, leadingContinuations]

/-- No statement runs into the next. -/
def Settled (d next : Declarator) : Prop := d.Before next ∧ d.runsInto next = false

/-- The last token in front of the semicolon. -/
def last (d : Declarator) : Option Token := (d.pattern.tokens ++ d.rest).getLast?

theorem last_eq_lastOf : d.last = lastOf d.pattern.tokens.getLast? d.rest := List.getLast?_append

theorem WellFormed.exists_last (h : d.WellFormed) : ∃ t, d.last = some t := by
  cases hlast : d.last with
  | none =>
    have hnil := List.getLast?_eq_none_iff.1 hlast
    exact absurd (List.append_eq_nil_iff.1 hnil).1 (d.pattern.isUnit h.pattern.shaped).ne_nil
  | some t => exact ⟨t, rfl⟩

theorem WellFormed.getLast?_tokens (h : d.WellFormed) (hsemicolon : d.semicolon = none) :
    d.tokens.getLast? = d.last := by
  obtain ⟨t, ht⟩ := h.exists_last
  have hbody : d.body.getLast? = some t := by
    rwa [body, hsemicolon, Option.toList_none, List.append_nil]
  rw [tokens, ← List.singleton_append, List.getLast?_append, hbody, ht]
  rfl

end Declarator

/-- The declarators may follow a statement with the given semicolon and last token. -/
def Follows (semicolon last : Option Token) (ds : List Declarator) : Prop :=
  ∀ next ∈ ds.head?,
    if next.isFirst then semicolon.isSome = true ∨ breaksBefore last next.tokens = true
    else semicolon = none

/-- In a settled run each statement ends in front of the next. -/
theorem Declarator.Settled.follows {d next : Declarator} (h : d.WellFormed) (hsettled : d.Settled next)
    (ds : List Declarator) : Follows d.semicolon d.last (next :: ds) := by
  rintro _ ⟨⟩
  obtain ⟨hbefore, hruns⟩ := hsettled
  unfold Before at hbefore
  split
  next hfirst =>
    rw [if_pos hfirst] at hbefore
    cases hsemicolon : d.semicolon with
    | some t => exact .inl rfl
    | none =>
      have hnewline : next.lead.newlineBefore = true := by
        rcases hbefore with hsome | hnewline
        · rw [hsemicolon] at hsome
          exact absurd hsome Bool.false_ne_true
        · exact hnewline
      obtain ⟨t, ht⟩ := h.exists_last
      have hexpects : t.expectsMore = false := by
        rw [runsInto, hfirst, hsemicolon, h.getLast?_tokens hsemicolon, ht] at hruns
        simpa using hruns
      refine .inr ?_
      rw [ht, Declarator.tokens]
      simp [breaksBefore, hnewline, Declarator.continues_lead hfirst, hexpects]
  next hfirst =>
    rwa [if_neg hfirst] at hbefore

/-- Declarators that no statement runs into. -/
structure IsSettled (ds : List Declarator) : Prop where
  wellFormed : ∀ d ∈ ds, d.WellFormed
  chain : ds.IsChain Declarator.Settled

theorem IsSettled.tail {d : Declarator} {ds : List Declarator} (h : IsSettled (d :: ds)) : IsSettled ds :=
  ⟨fun next hmem => h.wellFormed next (List.mem_cons_of_mem d hmem), List.IsChain.tail h.chain⟩

theorem IsSettled.follows {d : Declarator} {ds : List Declarator} (h : IsSettled (d :: ds)) :
    Follows d.semicolon d.last ds := by
  cases ds with
  | nil => simp [Follows]
  | cons next ds =>
    exact (List.isChain_cons_cons.1 h.chain).1.follows (h.wellFormed d List.mem_cons_self) ds

/-! ## 4. From declarator to declarator -/

namespace Declarator

variable {d next : Declarator}

/-- A pattern stands whole in its statement. -/
theorem WellFormed.splitStatement_body (h : d.WellFormed) (ts : List Token) :
    splitStatement (some d.lead) (d.body ++ ts) =
      (d.pattern.tokens ++
          (splitStatement d.pattern.tokens.getLast? (d.rest ++ (d.semicolon.toList ++ ts))).1,
        (splitStatement d.pattern.tokens.getLast? (d.rest ++ (d.semicolon.toList ++ ts))).2) := by
  rw [body, List.append_assoc, List.append_assoc]
  exact (d.pattern.isUnit h.pattern.shaped).splitStatement_append
    (breaksBefore_of_expectsMore h.lead_expectsMore _)
    (d.pattern.headIsPunct_tokens h.pattern.shaped (by decide) (by decide))

theorem WellFormed.lacks_semicolon (h : d.WellFormed) : Lacks ";" (d.pattern.tokens ++ d.rest) := by
  have hunit := d.pattern.isUnit h.pattern.shaped
  exact (lacks_append (by decide) hunit.balanced).2
    ⟨hunit.lacks (d.pattern.headIsPunct_tokens h.pattern.shaped (by decide) (by decide)), h.lacks⟩

theorem WellFormed.balanced_tokens (h : d.WellFormed) : Balanced (d.pattern.tokens ++ d.rest) :=
  (d.pattern.isUnit h.pattern.shaped).balanced.append h.balanced

theorem WellFormed.balanced_semicolon (h : d.WellFormed) : Balanced d.semicolon.toList := by
  cases hsemicolon : d.semicolon with
  | none => exact .nil
  | some t =>
    obtain ⟨hopener, hcloser⟩ := not_bracket_of_isPunct (h.semicolon t hsemicolon) (by decide)
    exact .cons hopener hcloser .nil

theorem WellFormed.quiet_tokens (h : d.WellFormed) : Quiet (some d.lead) (d.pattern.tokens ++ d.rest) := by
  rw [(d.pattern.isUnit h.pattern.shaped).quiet_append, breaksBefore_of_expectsMore h.lead_expectsMore]
  exact ⟨fun hbreak => absurd hbreak Bool.false_ne_true, h.quiet⟩

end Declarator

/-- A declarator behind a comma prolongs what is silent. -/
theorem Silent.append_declarator {xs : List Token} (h : Silent xs) {d : Declarator} (hd : d.WellFormed)
    (hfirst : d.isFirst = false) : Silent (xs ++ d.lead :: (d.pattern.tokens ++ d.rest)) := by
  have hcomma := hd.isPunct_lead hfirst
  obtain ⟨hopener, hcloser⟩ := not_bracket_of_isPunct hcomma (by decide)
  have hunit : IsUnit [d.lead] := .single hopener hcloser
  refine ⟨h.balanced.append (.cons hopener hcloser hd.balanced_tokens), ?_, by simp, ?_, ?_⟩
  · exact (lacks_append (by decide) h.balanced).2
      ⟨h.lacks, lacks_cons hopener hcloser (headIsPunct_of_isPunct hcomma (by decide)) hd.lacks_semicolon⟩
  · rw [quiet_append h.balanced, ← List.singleton_append, hunit.quiet_append, breaksBefore_comma hcomma]
    exact ⟨h.quiet, fun hbreak => absurd hbreak Bool.false_ne_true, hd.quiet_tokens⟩
  · have hhead := h.head
    have hne := h.ne_nil
    cases xs with
    | nil => exact absurd rfl hne
    | cons x xs => exact hhead

/-- The names that the reader takes from a run of declarators. -/
def readNames (declaring : Bool) : List Declarator → List Span
  | [] => []
  | d :: ds =>
    (if declaring || d.isFirst then readParts declaredNames "," (d.pattern.tokens ++ d.behind.1) else []) ++
      readNames ((declaring || d.isFirst) && d.behind.2.isEmpty) ds

/-- What a keyword stands in front of is read whatever came before. -/
theorem readNames_of_first {ds : List Declarator} (h : ∀ d ∈ ds.head?, d.isFirst = true) (declaring : Bool) :
    readNames declaring ds = readNames false ds := by
  cases ds with
  | nil => rfl
  | cons d ds => simp [readNames, h d rfl]

/-- What the reader does on a run of declarators: at the start of a statement, and behind tokens that are
not read. -/
structure Walk (ds : List Declarator) : Prop where
  start : (∀ d ∈ ds.head?, d.isFirst = true) → exposesOf (tokensOf ds) = readNames false ds
  skip : ∀ {xs : List Token} {semicolon : Option Token}, Silent xs →
    (∀ t ∈ semicolon, t.isPunct ";" = true) → Follows semicolon (lastOf none xs) ds →
    exposesOf (xs ++ (semicolon.toList ++ tokensOf ds)) = readNames false ds

/-- What the reader does behind the keyword or the comma of a declarator that is read. -/
def Reads (d : Declarator) (ds : List Declarator) : Prop :=
  readParts declaredNames "," (splitStatement (some d.lead) (d.body ++ tokensOf ds)).1 ++
    exposesOf (splitStatement (some d.lead) (d.body ++ tokensOf ds)).2 = readNames true (d :: ds)

/-- A statement that a keyword starts exposes what is read off its parts. -/
theorem exposes_of_first {d : Declarator} (hfirst : d.isFirst = true) {ts : List Token}
    (henum : headIsIdent ts "enum" = false) :
    (Contribution.ofStatement (d.lead :: ts)).exposes = readParts declaredNames "," ts := by
  obtain ⟨hkind, htext⟩ := Declarator.isFirst_iff.1 hfirst
  simp only [variableWords, List.mem_cons, List.not_mem_nil, or_false] at htext
  have hident : ∀ word, headIsIdent (d.lead :: ts) word = (d.lead.text == word) := by
    simp [headIsIdent, Token.isIdent, hkind]
  have hhead : headText (d.lead :: ts) = d.lead.text := rfl
  have hexport : (d.lead.text == "export") = false := by
    rcases htext with h | h | h <;> simp [h]
  have hdeclare : (d.lead.text == "declare") = false := by
    rcases htext with h | h | h <;> simp [h]
  have himport : (d.lead.text == "import") = false := by
    rcases htext with h | h | h <;> simp [h]
  have hword : (d.lead.text == "const" || d.lead.text == "let" || d.lead.text == "var") = true := by
    rcases htext with h | h | h <;> simp [h]
  unfold Contribution.ofStatement
  simp only [hident, hexport, Bool.false_eq_true, if_false, hdeclare, hhead, himport, hword, if_true,
    List.tail_cons, henum]
  rfl

theorem Pattern.headIsIdent_enum {p : Pattern} (h : p.WellFormed) (ts : List Token) :
    headIsIdent (p.tokens ++ ts) "enum" = false := by
  cases p with
  | name t =>
    rw [Pattern.WellFormed] at h
    simp [Pattern.tokens, headIsIdent, Token.isIdent, h.2]
  | group isObject opener elements closer =>
    rw [Pattern.WellFormed] at h
    obtain ⟨ho, -, -⟩ := h
    simp only [isPunct_iff] at ho
    simp [Pattern.tokens, headIsIdent, Token.isIdent, ho.1]

theorem tokensOf_cons (d : Declarator) (ds : List Declarator) :
    tokensOf (d :: ds) = d.lead :: (d.body ++ tokensOf ds) := rfl

section

variable {d : Declarator} {ds : List Declarator}

/-- At the start of a statement the keyword makes the statement a declaring one. -/
theorem start_of_reads (hsettled : IsSettled (d :: ds)) (hread : Reads d ds) (hfirst : d.isFirst = true) :
    exposesOf (tokensOf (d :: ds)) = readNames false (d :: ds) := by
  have hd := hsettled.wellFormed d List.mem_cons_self
  obtain ⟨hkind, -⟩ := Declarator.isFirst_iff.1 hfirst
  obtain ⟨hopener, hcloser⟩ := not_bracket_of_kind (t := d.lead) (by simp [hkind])
  have hsemicolon : headIsPunct [d.lead] ";" = false := by simp [headIsPunct, Token.isPunct, hkind]
  have hunit : IsUnit [d.lead] := .single hopener hcloser
  have hbreak : breaksBefore none ([d.lead] ++ (d.body ++ tokensOf ds)) = false := rfl
  have hstatement := hunit.splitStatement_append hbreak hsemicolon
  rw [List.getLast?_singleton, List.singleton_append] at hstatement
  have henum : headIsIdent (splitStatement (some d.lead) (d.body ++ tokensOf ds)).1 "enum" = false := by
    rw [hd.splitStatement_body]
    exact Pattern.headIsIdent_enum hd.pattern _
  rw [tokensOf_cons, exposesOf_statement (by simpa [headIsPunct] using hsemicolon) hstatement (by simp)]
  rw [List.singleton_append, exposes_of_first hfirst henum]
  rw [Reads] at hread
  rw [hread]
  simp [readNames, hfirst]

/-- Behind silent tokens a declarator behind a comma is not read, and a keyword starts afresh. -/
theorem Walk.skip_cons (hsettled : IsSettled (d :: ds)) (hds : Walk ds) (hread : Reads d ds)
    {xs : List Token} {semicolon : Option Token} (hxs : Silent xs) (hsemicolon : ∀ t ∈ semicolon, t.isPunct ";" = true)
    (hfollows : Follows semicolon (lastOf none xs) (d :: ds)) :
    exposesOf (xs ++ (semicolon.toList ++ tokensOf (d :: ds))) = readNames false (d :: ds) := by
  have hd := hsettled.wellFormed d List.mem_cons_self
  have hnext := hfollows d rfl
  cases hfirst : d.isFirst with
  | true =>
    rw [if_pos hfirst] at hnext
    have hbreak : breaksBefore (lastOf none xs) (tokensOf (d :: ds)) =
        breaksBefore (lastOf none xs) d.tokens := rfl
    rw [hxs.exposesOf_append hsemicolon (hnext.imp_right fun h => .inr (hbreak.trans h))]
    exact start_of_reads hsettled hread hfirst
  | false =>
    rw [hfirst, if_neg Bool.false_ne_true] at hnext
    subst hnext
    have hlast : lastOf none (xs ++ d.lead :: (d.pattern.tokens ++ d.rest)) = d.last := by
      obtain ⟨t, ht⟩ := hd.exists_last
      rw [Declarator.last] at ht
      simp [lastOf, List.getLast?_append, List.getLast?_cons, Declarator.last, ht]
    have hgo := hds.skip (hxs.append_declarator hd hfirst) hd.semicolon (hlast ▸ hsettled.follows)
    have hread : readNames false (d :: ds) = readNames false ds := by simp [readNames, hfirst]
    rw [hread, ← hgo, tokensOf_cons, Declarator.body]
    simp

/-- A line break inside a declarator ends the statement, and what is left over is not read. -/
theorem reads_of_cut (hsettled : IsSettled (d :: ds)) (hds : Walk ds) {first rest : List Token}
    (hsplit : splitStatement d.pattern.tokens.getLast? d.rest = (first, rest)) (hrest : rest ≠ []) :
    Reads d ds := by
  have hd := hsettled.wellFormed d List.mem_cons_self
  have hcut : ∀ ts, splitStatement d.pattern.tokens.getLast? (d.rest ++ ts) = (first, rest ++ ts) := by
    intro ts
    rw [splitStatement_append_of_balanced hd.balanced hd.lacks, hsplit, if_neg (by simpa using hrest)]
  have hempty : (rest ++ d.semicolon.toList).isEmpty = false := by simp [hrest]
  obtain ⟨hsilent, hlast⟩ := silent_of_splitStatement hd.balanced hd.lacks hd.quiet hsplit hrest
  rw [← Declarator.last_eq_lastOf] at hlast
  have hskip := hds.skip hsilent hd.semicolon (hlast ▸ hsettled.follows)
  rw [Reads, hd.splitStatement_body, hcut, hskip]
  simp only [readNames, Bool.true_or, if_true, Declarator.behind, hcut, hempty, Bool.and_false]

/-- Behind a semicolon the walk goes on in the next statement, whether the statement takes the semicolon or a
line break in front of it ends the statement. -/
theorem Walk.readParts_semicolon (hds : Walk ds) {last : Option Token} {t : Token}
    (ht : t.isPunct ";" = true) (hfollows : Follows (some t) last ds) (xs : List Token) :
    readParts declaredNames "," (xs ++ (splitStatement last (t :: tokensOf ds)).1) ++
        exposesOf (splitStatement last (t :: tokensOf ds)).2 =
      readParts declaredNames "," (xs ++ (splitStatement last [t]).1) ++
        readNames (splitStatement last [t]).2.isEmpty ds := by
  have hfirst : ∀ next ∈ ds.head?, next.isFirst = true := by
    intro next hnext
    have hnext := hfollows next hnext
    by_contra hfirst
    rw [if_neg hfirst] at hnext
    simp at hnext
  have hstart := hds.start hfirst
  cases hbreak : breaksBefore last [t] with
  | true =>
    have hcut : ∀ ts, splitStatement last (t :: ts) = ([], t :: ts) :=
      fun ts => splitStatement_of_breaksBefore hbreak
    rw [hcut, hcut, exposesOf_semicolon ht, hstart]
    rfl
  | false =>
    have htake : ∀ ts, splitStatement last (t :: ts) = ([t], ts) :=
      fun ts => splitStatement_semicolon hbreak ht
    rw [htake, htake, hstart]
    exact congrArg _ (readNames_of_first hfirst true).symm

/-- Without a semicolon the walk goes on behind a comma, or with a keyword behind a line break. -/
theorem Walk.readParts_next (hds : Walk (d :: ds)) (hd : d.WellFormed) (hread : Reads d ds)
    {last : Option Token} (hfollows : Follows none last (d :: ds)) {xs : List Token} (hxs : Balanced xs) :
    readParts declaredNames "," (xs ++ (splitStatement last (tokensOf (d :: ds))).1) ++
        exposesOf (splitStatement last (tokensOf (d :: ds))).2 =
      readParts declaredNames "," xs ++ readNames true (d :: ds) := by
  have hnext := hfollows d rfl
  cases hfirst : d.isFirst with
  | true =>
    rw [if_pos hfirst] at hnext
    have hbreak : breaksBefore last (tokensOf (d :: ds)) = true := hnext.resolve_left Bool.false_ne_true
    have hstart : ∀ next ∈ (d :: ds).head?, next.isFirst = true := by
      rintro _ ⟨⟩
      exact hfirst
    rw [splitStatement_of_breaksBefore hbreak, List.append_nil, hds.start hstart,
      readNames_of_first hstart true]
  | false =>
    have hcomma := hd.isPunct_lead hfirst
    obtain ⟨hopener, hcloser⟩ := not_bracket_of_isPunct hcomma (by decide)
    have hunit : IsUnit [d.lead] := .single hopener hcloser
    have hbreak : breaksBefore last ([d.lead] ++ (d.body ++ tokensOf ds)) = false :=
      breaksBefore_comma hcomma last _
    have hgo := hunit.splitStatement_append hbreak (headIsPunct_of_isPunct hcomma (by decide))
    rw [List.getLast?_singleton, List.singleton_append] at hgo
    rw [tokensOf_cons, hgo, List.singleton_append,
      readParts_append declaredNames_nil (by decide) hxs hcomma, List.append_assoc, hread]

/-- Behind a whole declarator the walk goes on in the same statement or in the next one. -/
theorem reads_of_whole (hsettled : IsSettled (d :: ds)) (hds : Walk ds)
    (hread : ∀ next more, ds = next :: more → Reads next more) {first : List Token}
    (hsplit : splitStatement d.pattern.tokens.getLast? d.rest = (first, [])) :
    Reads d ds := by
  have hd := hsettled.wellFormed d List.mem_cons_self
  have hwhole : ∀ ts, splitStatement d.pattern.tokens.getLast? (d.rest ++ ts) =
      (d.rest ++ (splitStatement d.last ts).1, (splitStatement d.last ts).2) := by
    intro ts
    rw [splitStatement_append_of_balanced hd.balanced hd.lacks, hsplit, Declarator.last_eq_lastOf]
    rfl
  have hfollows := hsettled.follows
  rw [Reads, hd.splitStatement_body, hwhole]
  simp only [readNames, Bool.true_or, if_true, Declarator.behind, hwhole, Bool.true_and]
  rw [← List.append_assoc, ← List.append_assoc]
  cases hsemicolon : d.semicolon with
  | some t =>
    rw [hsemicolon] at hfollows
    exact hds.readParts_semicolon (hd.semicolon t hsemicolon) hfollows _
  | none =>
    rw [hsemicolon] at hfollows
    rw [Option.toList_none, List.nil_append, splitStatement, List.append_nil]
    cases ds with
    | nil => simp [tokensOf, splitStatement, exposesOf_nil, readNames]
    | cons next more =>
      have hnext := hsettled.tail.wellFormed next List.mem_cons_self
      exact hds.readParts_next hnext (hread next more rfl) hfollows hd.balanced_tokens

theorem reads_of_walk (hsettled : IsSettled (d :: ds)) (hds : Walk ds)
    (hread : ∀ next more, ds = next :: more → Reads next more) : Reads d ds := by
  rcases hsplit : splitStatement d.pattern.tokens.getLast? d.rest with ⟨first, rest⟩
  by_cases hrest : rest = []
  · subst hrest
    exact reads_of_whole hsettled hds hread hsplit
  · exact reads_of_cut hsettled hds hsplit hrest

end

/-- The reader walks a settled run of declarators.  By induction on the run: with the last declarators
walked, the one in front is read and then walked as well. -/
theorem walk {ds : List Declarator} (hsettled : IsSettled ds) :
    Walk ds ∧ ∀ d, IsSettled (d :: ds) → Reads d ds := by
  induction ds with
  | nil =>
    have hwalk : Walk [] := by
      refine ⟨fun _ => by rw [tokensOf, List.flatMap_nil, exposesOf_nil, readNames], ?_⟩
      intro xs semicolon hxs hsemicolon _
      rw [tokensOf, List.flatMap_nil, hxs.exposesOf_append hsemicolon (.inr (.inl rfl)), exposesOf_nil,
        readNames]
    exact ⟨hwalk, fun d hd => reads_of_walk hd hwalk (by simp)⟩
  | cons next more ih =>
    obtain ⟨hmore, hreads⟩ := ih hsettled.tail
    have hread := hreads next hsettled
    have hwalk : Walk (next :: more) :=
      ⟨fun hfirst => start_of_reads hsettled hread (hfirst next rfl),
        fun hxs hsemicolon hfollows => Walk.skip_cons hsettled hmore hread hxs hsemicolon hfollows⟩
    refine ⟨hwalk, fun d hd => reads_of_walk hd hwalk ?_⟩
    rintro _ _ ⟨⟩
    exact hread

/-- **What a settled run exposes.** -/
theorem exposesOf_tokensOf {ds : List Declarator} (hsettled : IsSettled ds)
    (hfirst : ∀ d ∈ ds.head?, d.isFirst = true) : exposesOf (tokensOf ds) = readNames false ds :=
  (walk hsettled).1.start hfirst

end ComponentLens.Script
