/-
# Statements as ranges

`statements` hands out the tokens of each statement and what follows it.  Seen from the whole block, a statement
is a range of positions (`Statement.range`), and `statements_partition` says how the ranges lie: in order and
apart, over balanced tokens, with nothing but semicolons between them.

Where statements end is one property of a place (`BreaksBetween`): a semicolon stands in front of it, or the
next line does not go on with the code.  No range holds such a place outside its brackets, and a range ends
nowhere else.

The way there goes along the list of statements (`Cut`), with all that is known of one statement in one
structure (`Statement.IsCut`).
-/
import ComponentLens.Proofs.Script.Brackets
import Mathlib.Data.List.Basic

namespace ComponentLens.Script

/-! ## 1. Places between statements -/

/-- A statement ends between the tokens: with a semicolon, or at a line break across which the code does not go
on. -/
def BreaksBetween (front back : List Token) : Prop :=
  ∃ last ∈ front.getLast?, ∃ next ∈ back.head?,
    last.isPunct ";" = true ∨ (next.newlineBefore = true ∧ continues last next = false)

theorem breaksBetween_iff {front back : List Token} : BreaksBetween front back ↔
    (∃ last ∈ front.getLast?, last.isPunct ";" = true) ∧ back ≠ [] ∨ breaksBefore front.getLast? back = true := by
  cases hlast : front.getLast? with
  | none => cases back <;> simp [BreaksBetween, breaksBefore, hlast]
  | some last => cases back <;> simp [BreaksBetween, breaksBefore, hlast]

/-- Only the tokens next to the place count. -/
theorem breaksBetween_append {front back : List Token} (hfront : front ≠ []) (hback : back ≠ [])
    (before after : List Token) : BreaksBetween (before ++ front) (back ++ after) ↔ BreaksBetween front back := by
  obtain ⟨next, rest, rfl⟩ := List.exists_cons_of_ne_nil hback
  rw [BreaksBetween, BreaksBetween, List.getLast?_append, List.getLast?_eq_some_getLast hfront, Option.some_or,
    List.cons_append, List.head?_cons, List.head?_cons]

/-- A unit that is no semicolon does not end with one. -/
theorem IsUnit.last_not_semicolon {u : List Token} (h : IsUnit u) (hsemicolon : headIsPunct u ";" = false) :
    ∀ last ∈ u.getLast?, last.isPunct ";" = false := by
  cases h with
  | single => simpa [headIsPunct] using hsemicolon
  | group ho hc hinside =>
    rename_i o c inside
    intro last hlast
    have hlast : c = last := by simpa [List.getLast?_cons, List.getLast?_append] using hlast
    subst hlast
    refine Bool.eq_false_iff.2 fun hmark => ?_
    have hcloser := isCloser_of_closer? ho hc
    rw [(not_bracket_of_isPunct hmark (by decide)).2] at hcloser
    exact Bool.false_ne_true hcloser

/-- Balanced tokens in front begin with the unit in front. -/
theorem IsUnit.append_eq {u ys front back : List Token} (h : IsUnit u) (hfront : Balanced front) (hne : front ≠ [])
    (heq : front ++ back = u ++ ys) : ∃ rest, front = u ++ rest ∧ Balanced rest ∧ rest ++ back = ys := by
  cases front, hfront using Balanced.units with
  | nil => exact absurd rfl hne
  | cons u' rest hu' hrest _ =>
    obtain ⟨t, us, rfl⟩ := h.exists_cons
    obtain ⟨t', us', rfl⟩ := hu'.exists_cons
    rw [List.append_assoc, List.cons_append, List.cons_append, List.cons.injEq] at heq
    obtain ⟨rfl, heq⟩ := heq
    have hsame := hu'.unit_append (rest ++ back)
    rw [heq, h.unit_append, Prod.mk.injEq] at hsame
    exact ⟨rest, by rw [hsame.1], hrest, hsame.2.symm⟩

/-- A statement does not end in front of its own tokens. -/
theorem breaksBefore_splitStatement {xs : List Token} {previous : Option Token}
    (hne : (splitStatement previous xs).1 ≠ []) : breaksBefore previous (splitStatement previous xs).1 = false := by
  cases hbreak : breaksBefore previous xs with
  | true =>
    rw [splitStatement_of_breaksBefore hbreak] at hne
    exact absurd rfl hne
  | false => rwa [← splitStatement_append previous xs, breaksBefore_append hne] at hbreak

/-- A statement holds no place where one ends. -/
theorem splitStatement_unbroken {xs : List Token} (h : Balanced xs) {previous : Option Token}
    {front back : List Token} (hsplit : (splitStatement previous xs).1 = front ++ back) (hfront : Balanced front)
    (hback : back ≠ []) :
    (∀ last ∈ front.getLast?, last.isPunct ";" = false) ∧ breaksBefore (lastOf previous front) back = false := by
  induction xs, h using Balanced.units generalizing previous front with
  | nil => simp [splitStatement, hback] at hsplit
  | cons u ts hu hts ih =>
    by_cases hne : front = []
    · subst hne
      rw [List.nil_append] at hsplit
      rw [lastOf_nil, ← hsplit]
      exact ⟨by simp, breaksBefore_splitStatement (hsplit ▸ hback)⟩
    -- the unit stands in front of the place, so the place is looked for behind it
    rcases hu.splitStatement_cases previous ts with ⟨-, heq⟩ | ⟨-, ⟨t, -, -, heq⟩ | ⟨hsemicolon, heq⟩⟩
    · rw [heq] at hsplit
      exact absurd (List.append_eq_nil_iff.1 hsplit.symm).2 hback
    · rw [heq, ← List.append_nil u] at hsplit
      obtain ⟨rest, -, -, hover⟩ := hu.append_eq hfront hne hsplit.symm
      exact absurd (List.append_eq_nil_iff.1 hover).2 hback
    · rw [heq] at hsplit
      obtain ⟨rest, rfl, hrest, hover⟩ := hu.append_eq hfront hne hsplit.symm
      obtain ⟨hlast, hgo⟩ := ih hover.symm hrest
      rw [lastOf_append, lastOf_of_ne_nil hu.ne_nil]
      refine ⟨fun last hmem => ?_, hgo⟩
      rw [List.getLast?_append, Option.mem_def, Option.or_eq_some_iff] at hmem
      rcases hmem with hmem | ⟨-, hmem⟩
      · exact hlast last hmem
      · exact hu.last_not_semicolon hsemicolon last hmem

/-! ## 2. Cuts -/

/-- A statement of balanced tokens, cut where it ends and nowhere before that. -/
structure Statement.IsCut (s : Statement) : Prop where
  ne_nil : s.tokens ≠ []
  balanced : Balanced s.tokens
  balanced_after : Balanced s.after
  ends : s.after = [] ∨ BreaksBetween s.tokens s.after
  unbroken : ∀ {front back}, s.tokens = front ++ back → Balanced front → front ≠ [] → back ≠ [] →
    ¬ BreaksBetween front back

theorem isCut_of_splitStatement {ts statement rest : List Token} (h : Balanced ts) (hne : ts ≠ [])
    (hsplit : splitStatement none ts = (statement, rest)) : Statement.IsCut ⟨statement, rest⟩ := by
  obtain ⟨hstatement, hrest⟩ := h.splitStatement none
  have hfilled := splitStatement_fst_ne_nil h hne
  have hends := @splitStatement_ends _ h none
  have hunbroken := @splitStatement_unbroken _ h none
  rw [hsplit] at hstatement hrest hfilled hends hunbroken
  refine ⟨hfilled, hstatement, hrest, ?_, fun hparts hfront hf hb hbreak => ?_⟩
  · by_cases hover : rest = []
    · exact .inl hover
    refine .inr (breaksBetween_iff.2 ?_)
    rcases hends hover with ⟨front, t, rfl, -, ht⟩ | hbreak
    · exact .inl ⟨⟨t, by simp, ht⟩, hover⟩
    · exact .inr (by rwa [lastOf_of_ne_nil hfilled] at hbreak)
  · obtain ⟨hlast, hgo⟩ := hunbroken hparts hfront hb
    rw [lastOf_of_ne_nil hf] at hgo
    rcases breaksBetween_iff.1 hbreak with ⟨⟨t, ht, hsemicolon⟩, -⟩ | hline
    · rw [hlast t ht] at hsemicolon
      exact Bool.false_ne_true hsemicolon
    · rw [hgo] at hline
      exact Bool.false_ne_true hline

/-- The tokens are the statements one after another, with semicolons between them. -/
inductive Cut : List Token → List Statement → Prop
  | nil : Cut [] []
  | semicolon {t : Token} {ts : List Token} {ss : List Statement} (ht : t.isPunct ";" = true) (hts : Cut ts ss) :
      Cut (t :: ts) ss
  | statement {s : Statement} {ss : List Statement} (hs : s.IsCut) (hafter : Cut s.after ss) :
      Cut (s.tokens ++ s.after) (s :: ss)

theorem Balanced.cut {ts : List Token} (h : Balanced ts) : Cut ts (statements ts) := by
  obtain ⟨n, hn⟩ : ∃ n, ts.length ≤ n := ⟨_, Nat.le_refl _⟩
  induction n generalizing ts with
  | zero =>
    obtain rfl : ts = [] := List.length_eq_zero_iff.1 (Nat.le_zero.1 hn)
    rw [statements_nil]
    exact .nil
  | succ n ih =>
    cases ts, h using Balanced.units with
    | nil =>
      rw [statements_nil]
      exact .nil
    | cons u ts hu hts _ =>
      have hall := hu.balanced.append hts
      cases hsemicolon : headIsPunct u ";" with
      | true =>
        obtain ⟨t, rfl, ht⟩ := hu.eq_singleton hsemicolon (by decide)
        rw [List.singleton_append, statements_semicolon ht]
        exact .semicolon ht (ih hts (by simpa using hn))
      | false =>
        have hne : u ++ ts ≠ [] := List.append_ne_nil_of_left_ne_nil hu.ne_nil ts
        obtain ⟨⟨statement, rest⟩, hsplit⟩ : ∃ cut, Script.splitStatement none (u ++ ts) = cut := ⟨_, rfl⟩
        have hcut := isCut_of_splitStatement hall hne hsplit
        have happend := splitStatement_append none (u ++ ts)
        rw [hsplit] at happend
        obtain ⟨t, us, rfl⟩ := hu.exists_cons
        rw [statements_of_splitStatement (by simpa [headIsPunct] using hsemicolon) hsplit hcut.ne_nil, ← happend]
        have hlength := congrArg List.length happend
        have hpos := List.length_pos_iff.2 hcut.ne_nil
        rw [List.length_append] at hlength
        exact .statement hcut (ih hcut.balanced_after (by simp only at hlength hpos ⊢; omega))

variable {ts : List Token} {ss : List Statement}

/-- A statement stands where its tokens and what follows them end the tokens. -/
theorem Cut.exists_front (h : Cut ts ss) {s : Statement} (hs : s ∈ ss) :
    ∃ front, ts = front ++ (s.tokens ++ s.after) ∧ Balanced front ∧ s.IsCut := by
  induction h with
  | nil => simp at hs
  | semicolon ht _ ih =>
    rename_i t ts ss _
    obtain ⟨front, rfl, hfront, hcut⟩ := ih hs
    obtain ⟨hopener, hcloser⟩ := not_bracket_of_isPunct ht (by decide)
    exact ⟨t :: front, rfl, .cons hopener hcloser hfront, hcut⟩
  | statement hfirst _ ih =>
    rename_i first ss _
    rcases List.mem_cons.1 hs with rfl | hs
    · exact ⟨[], rfl, .nil, hfirst⟩
    · obtain ⟨front, hafter, hfront, hcut⟩ := ih hs
      exact ⟨first.tokens ++ front, by rw [hafter, List.append_assoc], hfirst.balanced.append hfront, hcut⟩

/-- The later statements stand in what follows a statement. -/
theorem Cut.pairwise (h : Cut ts ss) :
    ss.Pairwise fun s s' => ∃ front, s.after = front ++ (s'.tokens ++ s'.after) := by
  induction h with
  | nil => exact .nil
  | semicolon _ _ ih => exact ih
  | statement _ hafter ih =>
    refine .cons (fun s hs => ?_) ih
    obtain ⟨front, hfront, -⟩ := hafter.exists_front hs
    exact ⟨front, hfront⟩

/-- A token is a semicolon or in a statement.  Its place is counted from the end, where the statements that were
cut off in front do not change it. -/
theorem Cut.covers (h : Cut ts ss) {k : Nat} {t : Token} (ht : ts[k]? = some t) :
    (∃ s ∈ ss, s.after.length + k < ts.length ∧ ts.length ≤ s.tokens.length + s.after.length + k) ∨
      t.isPunct ";" = true := by
  induction h generalizing k with
  | nil => simp at ht
  | semicolon hsemicolon _ ih =>
    cases k with
    | zero =>
      rw [List.getElem?_cons_zero, Option.some.injEq] at ht
      exact .inr (ht ▸ hsemicolon)
    | succ k =>
      refine (ih (k := k) (by simpa using ht)).imp_left fun ⟨s, hs, hplace⟩ => ⟨s, hs, ?_⟩
      simp only [List.length_cons]
      omega
  | statement _ _ ih =>
    rename_i first ss _ _
    rw [List.length_append]
    rcases Nat.lt_or_ge k first.tokens.length with hk | hk
    · exact .inl ⟨first, List.mem_cons_self, by omega, by omega⟩
    · rw [List.getElem?_append_right hk] at ht
      refine (ih ht).imp_left fun ⟨s, hs, hafter, hbefore⟩ => ⟨s, List.mem_cons_of_mem first hs, ?_⟩
      omega

/-! ## 3. Ranges -/

/-- The positions of a statement among so many tokens: the first one, and the one behind it. -/
def Statement.range (total : Nat) (s : Statement) : Nat × Nat :=
  (total - (s.tokens.length + s.after.length), total - s.after.length)

/-- The ranges of the statements. -/
def statementRanges (ts : List Token) : List (Nat × Nat) := (statements ts).map (·.range ts.length)

theorem Statement.range_eq (front : List Token) (s : Statement) :
    s.range (front ++ (s.tokens ++ s.after)).length = (front.length, front.length + s.tokens.length) := by
  simp only [Statement.range, List.length_append, Prod.mk.injEq]
  omega

/-- No bracket is open behind balanced tokens. -/
theorem Balanced.depths_append {front : List Token} (h : Balanced front) (t : Token) (back : List Token) :
    (depths (front ++ t :: back))[front.length]? = some 0 := by
  obtain ⟨found, hfound⟩ := h.exists_pairedFrom 0
  have hdepths := hfound.depthsFrom_append 0 (f := depthAt found) (fun k _ _ => (Nat.zero_add _).symm) (t :: back)
  rw [depths, hdepths, List.getElem?_append_right (by simp)]
  simp [depthsFrom]

/-- The ranges divide the tokens into statements.  They stand apart and in order, and leave out nothing but
semicolons.  Each is balanced and starts outside all brackets.  Where two ranges meet, a statement ends, and no
statement ends within one. -/
structure Partition (ts : List Token) (ranges : List (Nat × Nat)) : Prop where
  nonempty : ∀ r ∈ ranges, r.1 < r.2 ∧ r.2 ≤ ts.length
  ordered : ranges.Pairwise fun r r' => r.2 ≤ r'.1
  covers : ∀ k t, ts[k]? = some t → (∃ r ∈ ranges, r.1 ≤ k ∧ k < r.2) ∨ t.isPunct ";" = true
  balanced : ∀ r ∈ ranges, Balanced (ts.extract r.1 r.2)
  outside : ∀ r ∈ ranges, (depths ts)[r.1]? = some 0
  meets : ∀ r ∈ ranges, ∀ r' ∈ ranges, r.2 = r'.1 → BreaksBetween (ts.take r.2) (ts.drop r.2)
  unbroken : ∀ r ∈ ranges, ∀ k, r.1 < k → k < r.2 → Balanced (ts.extract r.1 k) →
    ¬ BreaksBetween (ts.take k) (ts.drop k)

/-- A range is that of a statement. -/
theorem Cut.exists_of_mem_ranges (h : Cut ts ss) {r : Nat × Nat} (hr : r ∈ ss.map (·.range ts.length)) :
    ∃ (s : Statement) (front : List Token), s.IsCut ∧ ts = front ++ (s.tokens ++ s.after) ∧ Balanced front ∧
      r = (front.length, front.length + s.tokens.length) := by
  obtain ⟨s, hs, rfl⟩ := List.mem_map.1 hr
  obtain ⟨front, rfl, hfront, hcut⟩ := h.exists_front hs
  exact ⟨s, front, hcut, rfl, hfront, s.range_eq front⟩

theorem Cut.partition (h : Cut ts ss) : Partition ts (ss.map (·.range ts.length)) where
  nonempty r hr := by
    obtain ⟨s, front, hcut, rfl, -, rfl⟩ := h.exists_of_mem_ranges hr
    have hpos := List.length_pos_iff.2 hcut.ne_nil
    simp only [List.length_append]
    omega
  ordered := by
    refine List.pairwise_map.2 (h.pairwise.imp fun ⟨front, hfront⟩ => ?_)
    simp only [Statement.range, hfront, List.length_append]
    omega
  covers k t ht := by
    refine (h.covers ht).imp_left fun ⟨s, hs, hafter, hbefore⟩ => ⟨_, List.mem_map_of_mem hs, ?_⟩
    simp only [Statement.range]
    omega
  balanced r hr := by
    obtain ⟨s, front, hcut, rfl, -, rfl⟩ := h.exists_of_mem_ranges hr
    simpa [List.extract] using hcut.balanced
  outside r hr := by
    obtain ⟨s, front, hcut, rfl, hfront, rfl⟩ := h.exists_of_mem_ranges hr
    obtain ⟨t, us, hus⟩ := List.exists_cons_of_ne_nil hcut.ne_nil
    rw [hus]
    exact hfront.depths_append t (us ++ s.after)
  meets r hr r' hr' hmeet := by
    obtain ⟨s, front, hcut, hts, -, rfl⟩ := h.exists_of_mem_ranges hr
    have hnext : front.length + s.tokens.length < ts.length := by
      obtain ⟨s', front', hcut', hts', -, rfl⟩ := h.exists_of_mem_ranges hr'
      have hpos := List.length_pos_iff.2 hcut'.ne_nil
      simp only at hmeet
      simp only [hts', List.length_append]
      omega
    have hover : s.after ≠ [] := by
      rintro hnil
      simp [hts, hnil] at hnext
    have hbreaks := (breaksBetween_append hcut.ne_nil hover front []).2 (hcut.ends.resolve_left hover)
    simpa [hts, ← List.append_assoc, ← List.length_append] using hbreaks
  unbroken r hr k hstart hend hbalanced hbreak := by
    obtain ⟨s, front, hcut, rfl, -, rfl⟩ := h.exists_of_mem_ranges hr
    obtain ⟨m, rfl⟩ := Nat.exists_eq_add_of_lt hstart
    have hm : m + 1 < s.tokens.length := by
      simp only at hend
      omega
    have hfront : s.tokens.take (m + 1) ≠ [] := by
      rw [← List.length_pos_iff, List.length_take]
      omega
    have hback : s.tokens.drop (m + 1) ≠ [] := by
      rw [← List.length_pos_iff, List.length_drop]
      omega
    refine hcut.unbroken (List.take_append_drop (m + 1) s.tokens).symm ?_ hfront hback
      ((breaksBetween_append hfront hback front s.after).1 ?_)
    · simpa [List.extract, Nat.add_assoc, List.take_append_of_le_length (Nat.le_of_lt hm)] using hbalanced
    · rwa [Nat.add_assoc, List.take_length_add_append, List.drop_length_add_append,
        List.take_append_of_le_length (Nat.le_of_lt hm), List.drop_append_of_le_length (Nat.le_of_lt hm)] at hbreak

/-- **Statements partition the tokens.** -/
theorem statements_partition {source : String} {ts : List Token} (h : balancedTokens source = .ok ts) :
    Partition ts (statementRanges ts) ∧ ∀ s ∈ statements ts,
      ts.extract (s.range ts.length).1 (s.range ts.length).2 = s.tokens ∧ ts.drop (s.range ts.length).2 = s.after := by
  obtain ⟨us, -, hpairs⟩ := bind_eq_ok.1 h
  obtain ⟨partners, hmatched, hreturn⟩ := bind_eq_ok.1 hpairs
  obtain rfl : us = ts := Except.ok.inj hreturn
  have hcut := (balanced_of_pairs hmatched).cut
  refine ⟨hcut.partition, fun s hs => ?_⟩
  obtain ⟨front, heq, -⟩ := hcut.exists_front hs
  rw [heq, s.range_eq front]
  simp [List.extract]

/-- A line break in brackets ends nothing, a semicolon behind a semicolon is stray, and the last two statements
meet at a line break. -/
theorem partition_of_lines : ∃ ts, balancedTokens "a = [b\nc];; d\ne" = .ok ts ∧
    statementRanges ts = [(0, 7), (8, 9), (9, 10)] ∧ (depths ts)[4]? = some 1 ∧
    Partition ts (statementRanges ts) ∧ ∀ s ∈ statements ts,
      ts.extract (s.range ts.length).1 (s.range ts.length).2 = s.tokens ∧ ts.drop (s.range ts.length).2 = s.after := by
  have htokens : balancedTokens "a = [b\nc];; d\ne" = .ok
      [⟨.ident, "a", ⟨0, 1⟩, false⟩, ⟨.punct, "=", ⟨2, 3⟩, false⟩, ⟨.punct, "[", ⟨4, 5⟩, false⟩,
        ⟨.ident, "b", ⟨5, 6⟩, false⟩, ⟨.ident, "c", ⟨7, 8⟩, true⟩, ⟨.punct, "]", ⟨8, 9⟩, false⟩,
        ⟨.punct, ";", ⟨9, 10⟩, false⟩, ⟨.punct, ";", ⟨10, 11⟩, false⟩, ⟨.ident, "d", ⟨12, 13⟩, false⟩,
        ⟨.ident, "e", ⟨14, 15⟩, true⟩] := by decide +kernel
  exact ⟨_, htokens, by decide +kernel, by decide, statements_partition htokens⟩

end ComponentLens.Script
