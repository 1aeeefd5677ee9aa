/-
# Matching brackets

`pairs` runs over the tokens with a stack of open brackets.  What it should find is said without a stack.  The
texts of the brackets are a word (`bracketWord`), and some words are balanced (`Dyck`); an opening bracket and a
closer are partners if one group reaches from the one to the other (`Partner`).  `pairs_exact` compares the two:
the run succeeds exactly on balanced words and then gives every opening bracket its partner; otherwise the fault
names the first closer without a partner, or else the last opening bracket without one.

Two things are read off a block in two passes: the pairs, and how many brackets are open around each token
(`depths`).  Both follow the groups of balanced tokens (`PairedFrom`), so the pairs around a token are its depth.

What carries the run is the shape of the tokens behind which the brackets of a stack are open (`LeavesOpen`): runs of
balanced tokens with the open brackets between them.
-/
import ComponentLens.Proofs.Script.Balanced
import Mathlib.Order.Bounds.Defs

namespace ComponentLens.Script

/-! ## 1. Balanced words -/

/-- The brackets that belong together. -/
def bracketPairs : List (String × String) := [("(", ")"), ("[", "]"), ("\x7b", "\x7d")]

/-- The words of brackets in which every opening bracket is closed by its partner. -/
inductive Dyck : List String → Prop
  | nil : Dyck []
  | wrap {o c : String} {inside rest : List String} (hpair : (o, c) ∈ bracketPairs) (hinside : Dyck inside)
      (hrest : Dyck rest) : Dyck (o :: (inside ++ c :: rest))

/-- Whether the token is a bracket of either side. -/
def Token.isBracket (t : Token) : Bool :=
  t.kind == .punct && bracketPairs.any fun (o, c) => t.text == o || t.text == c

/-- The texts of the brackets among the tokens. -/
def bracketWord (ts : List Token) : List String := (ts.filter (·.isBracket)).map (·.text)

theorem closer?_eq_some_iff {o : Token} {closer : String} :
    o.closer? = some closer ↔ o.kind = .punct ∧ (o.text, closer) ∈ bracketPairs := by
  simp only [Token.closer?, Token.isPunct, bracketPairs, List.mem_cons, List.not_mem_nil, or_false, Prod.mk.injEq]
  grind

/-- A bracket of either side is an opening bracket or a closer. -/
theorem isBracket_eq (t : Token) : t.isBracket = (t.isOpener || t.isCloser) := by
  simp only [Token.isBracket, bracketPairs, Token.isOpener, Token.closer?, Token.isCloser, Token.isPunct,
    List.any_cons, List.any_nil]
  grind

theorem isBracket_eq_false_iff {t : Token} :
    t.isBracket = false ↔ t.isOpener = false ∧ t.isCloser = false := by
  rw [isBracket_eq, Bool.or_eq_false_iff]

@[simp] theorem bracketWord_nil : bracketWord [] = [] := rfl

@[simp] theorem bracketWord_append (xs ys : List Token) :
    bracketWord (xs ++ ys) = bracketWord xs ++ bracketWord ys := by simp [bracketWord]

theorem bracketWord_cons {t : Token} (h : t.isBracket = true) (ts : List Token) :
    bracketWord (t :: ts) = t.text :: bracketWord ts := by simp [bracketWord, h]

theorem bracketWord_cons_plain {t : Token} (h : t.isBracket = false) (ts : List Token) :
    bracketWord (t :: ts) = bracketWord ts := by simp [bracketWord, h]

/-- The first bracket of a word, among the tokens. -/
theorem exists_of_bracketWord_eq_cons {ts : List Token} {text : String} {word : List String}
    (h : bracketWord ts = text :: word) :
    ∃ front t rest, ts = front ++ t :: rest ∧ Balanced front ∧ t.isBracket = true ∧ t.text = text ∧
      bracketWord rest = word := by
  induction ts with
  | nil => simp at h
  | cons t ts ih =>
    cases ht : t.isBracket with
    | true =>
      rw [bracketWord_cons ht, List.cons.injEq] at h
      exact ⟨[], t, ts, rfl, .nil, ht, h⟩
    | false =>
      rw [bracketWord_cons_plain ht] at h
      obtain ⟨front, b, rest, rfl, hfront, hb⟩ := ih h
      obtain ⟨hopener, hcloser⟩ := isBracket_eq_false_iff.1 ht
      exact ⟨t :: front, b, rest, rfl, .cons hopener hcloser hfront, hb⟩

/-- A word in two parts cuts the tokens in two. -/
theorem exists_of_bracketWord_eq_append {ts : List Token} {xs ys : List String}
    (h : bracketWord ts = xs ++ ys) :
    ∃ as bs, ts = as ++ bs ∧ bracketWord as = xs ∧ bracketWord bs = ys := by
  obtain ⟨kept, rest, hfilter, rfl, rfl⟩ := List.map_eq_append_iff.1 h
  obtain ⟨as, bs, rfl, rfl, rfl⟩ := List.filter_eq_append_iff.1 hfilter
  exact ⟨as, bs, rfl, rfl, rfl⟩

/-- **Tokens are balanced if their brackets are a balanced word.** -/
theorem dyck_bracketWord_iff {ts : List Token} : Dyck (bracketWord ts) ↔ Balanced ts := by
  constructor
  · intro h
    generalize hword : bracketWord ts = word at h
    induction h generalizing ts with
    | nil =>
      refine balanced_of_no_bracket fun t ht => isBracket_eq_false_iff.1 ?_
      simpa using List.filter_eq_nil_iff.1 (List.map_eq_nil_iff.1 hword) t ht
    | wrap hpair _ _ ihinside ihrest =>
      obtain ⟨front, o, ts', rfl, hfront, ho, rfl, hafter⟩ := exists_of_bracketWord_eq_cons hword
      obtain ⟨inside, ts'', rfl, hinside, hclosing⟩ := exists_of_bracketWord_eq_append hafter
      obtain ⟨gap, c, rest, rfl, hgap, hc, rfl, hrest⟩ := exists_of_bracketWord_eq_cons hclosing
      have hkind : ∀ t : Token, t.isBracket = true → t.kind = .punct := by
        intro t ht
        simp only [Token.isBracket, Bool.and_eq_true, beq_iff_eq] at ht
        exact ht.1
      have hgroup := Balanced.group (closer?_eq_some_iff.2 ⟨hkind o ho, hpair⟩) (hkind c hc)
        ((ihinside hinside).append hgap) (ihrest hrest)
      rw [List.append_assoc] at hgroup
      exact hfront.append hgroup
  · intro h
    induction h with
    | nil => exact .nil
    | cons hopener hcloser _ ih => rwa [bracketWord_cons_plain (isBracket_eq_false_iff.2 ⟨hopener, hcloser⟩)]
    | group ho hc _ _ ihinside ihts =>
      rename_i o c inside ts _ _
      have hopener : o.isBracket = true := by rw [isBracket_eq, isOpener_of_closer? ho, Bool.true_or]
      have hcloser : c.isBracket = true := by rw [isBracket_eq, isCloser_of_closer? ho hc, Bool.or_true]
      rw [bracketWord_cons hopener, bracketWord_append, bracketWord_cons hcloser]
      exact .wrap (closer?_eq_some_iff.1 ho).2 ihinside ihts

/-! ## 2. Open brackets -/

/-- The innermost bracket that is open behind the tokens, and the tokens in front of it.  The tokens come
nearest first, and `closed` counts the groups that were passed into from behind. -/
def enclosing? (closed : Nat) : List Token → Option (Token × List Token)
  | [] => none
  | t :: before =>
    if t.isCloser then enclosing? (closed + 1) before
    else if t.isOpener then
      if closed = 0 then some (t, before) else enclosing? (closed - 1) before
    else enclosing? closed before

theorem enclosing?_closer {t : Token} (h : t.isCloser = true) (closed : Nat) (before : List Token) :
    enclosing? closed (t :: before) = enclosing? (closed + 1) before := by
  rw [enclosing?, if_pos h]

theorem enclosing?_plain {t : Token} (hopener : t.isOpener = false) (hcloser : t.isCloser = false)
    (closed : Nat) (before : List Token) : enclosing? closed (t :: before) = enclosing? closed before := by
  rw [enclosing?, hcloser, hopener, if_neg Bool.false_ne_true, if_neg Bool.false_ne_true]

theorem enclosing?_opener {t : Token} (h : t.isOpener = true) (closed : Nat) (before : List Token) :
    enclosing? closed (t :: before) =
      if closed = 0 then some (t, before) else enclosing? (closed - 1) before := by
  rw [enclosing?, isCloser_eq_false_of_isOpener h, if_neg Bool.false_ne_true, if_pos h]

/-- Balanced tokens hold no open bracket. -/
theorem Balanced.enclosing?_append {inside : List Token} (h : Balanced inside) (closed : Nat)
    (front : List Token) : enclosing? closed (inside.reverse ++ front) = enclosing? closed front := by
  induction h generalizing closed front with
  | nil => rfl
  | cons hopener hcloser _ ih =>
    rw [List.reverse_cons, List.append_assoc, ih, List.singleton_append, enclosing?_plain hopener hcloser]
  | group ho hc _ _ ihinside ihts =>
    rename_i o c inside ts _ _
    have hopener := isOpener_of_closer? ho
    have hcloser := isCloser_of_closer? ho hc
    rw [List.reverse_cons, List.reverse_append, List.reverse_cons]
    simp only [List.append_assoc, List.cons_append, List.nil_append]
    rw [ihts, enclosing?_closer hcloser, ihinside, enclosing?_opener hopener,
      if_neg (Nat.add_one_ne_zero closed), Nat.add_one_sub_one]

/-- Behind balanced tokens no bracket is open. -/
theorem Balanced.enclosing?_eq_none {ts : List Token} (h : Balanced ts) : enclosing? 0 ts.reverse = none := by
  have hnone := h.enclosing?_append 0 []
  rwa [List.append_nil] at hnone

/-- Behind an opening bracket and balanced tokens that bracket is open. -/
theorem Balanced.enclosing?_opener {inside : List Token} (h : Balanced inside) {o : Token} (ho : o.isOpener = true)
    (front : List Token) : enclosing? 0 (front ++ o :: inside).reverse = some (o, front.reverse) := by
  rw [List.reverse_append, List.reverse_cons, List.append_assoc, h.enclosing?_append, List.singleton_append,
    Script.enclosing?_opener ho, if_pos rfl]

/-! ## 3. Partners -/

/-- The bracket at `i` opens a group and that at `j` closes it. -/
def Partner (ts : List Token) (i j : Nat) : Prop :=
  ∃ front o inside c back, ts = front ++ o :: (inside ++ c :: back) ∧ front.length = i ∧
    i + inside.length + 1 = j ∧ o.closer? = some c.text ∧ c.kind = .punct ∧ Balanced inside

theorem Partner.append {xs : List Token} {i j : Nat} (h : Partner xs i j) (ys : List Token) :
    Partner (xs ++ ys) i j := by
  obtain ⟨front, o, inside, c, back, rfl, hi, hj, hgroup⟩ := h
  exact ⟨front, o, inside, c, back ++ ys, by simp, hi, hj, hgroup⟩

theorem Partner.behind {ys : List Token} {i j : Nat} (h : Partner ys i j) (xs : List Token) :
    Partner (xs ++ ys) (xs.length + i) (xs.length + j) := by
  obtain ⟨front, o, inside, c, back, rfl, hi, hj, hgroup⟩ := h
  exact ⟨xs ++ front, o, inside, c, back, by simp, by simp [hi], by omega, hgroup⟩

theorem partner_group {o c : Token} {inside : List Token} (ho : o.closer? = some c.text) (hc : c.kind = .punct)
    (hinside : Balanced inside) (ts : List Token) : Partner (o :: (inside ++ c :: ts)) 0 (inside.length + 1) :=
  ⟨[], o, inside, c, ts, rfl, rfl, by omega, ho, hc, hinside⟩

/-- The end of a group is found by stepping over the group from its opening bracket. -/
theorem Partner.splitGroup? {ts : List Token} {i j : Nat} (h : Partner ts i j) :
    ∃ inside c back, Script.splitGroup? 0 (ts.drop (i + 1)) = some (inside, c, back) ∧
      i + inside.length + 1 = j ∧ c.isCloser = true := by
  obtain ⟨front, o, inside, c, back, rfl, rfl, hj, ho, hc, hinside⟩ := h
  refine ⟨inside, c, back, ?_, hj, isCloser_of_closer? ho hc⟩
  rw [List.drop_append, List.drop_eq_nil_of_le (Nat.le_succ _), Nat.add_sub_cancel_left]
  exact splitGroup?_group ho hc hinside back

/-- An opening bracket has one partner at most. -/
theorem Partner.unique {ts : List Token} {i j j' : Nat} (h : Partner ts i j) (h' : Partner ts i j') : j = j' := by
  obtain ⟨inside, c, back, hgroup, hj, -⟩ := h.splitGroup?
  obtain ⟨inside', c', back', hgroup', hj', -⟩ := h'.splitGroup?
  rw [hgroup, Option.some.injEq, Prod.mk.injEq] at hgroup'
  rw [← hj, ← hj', hgroup'.1]

/-! ## 4. Pairs of balanced tokens -/

/-- The pairs that are found are partners. -/
theorem PairedFrom.partner {index : Nat} {ts : List Token} {found : List (Nat × Nat)}
    (h : PairedFrom index ts found) : ∀ p ∈ found, ∃ i j, p = (index + i, index + j) ∧ Partner ts i j := by
  induction h with
  | nil => simp
  | cons hopener hcloser _ ih =>
    rename_i index t ts found _
    intro p hp
    obtain ⟨i, j, rfl, hpartner⟩ := ih p hp
    exact ⟨1 + i, 1 + j, by simp [Nat.add_assoc], hpartner.behind [t]⟩
  | group ho hc hinside hts ihinside ihts =>
    rename_i index o c inside ts inner later
    intro p hp
    rcases List.mem_append.1 hp with hp | hp
    · obtain ⟨i, j, rfl, hpartner⟩ := ihinside p hp
      exact ⟨1 + i, 1 + j, by simp [Nat.add_assoc], (hpartner.append (c :: ts)).behind [o]⟩
    rcases List.mem_cons.1 hp with rfl | hp
    · exact ⟨0, inside.length + 1, rfl, partner_group ho hc hinside.balanced ts⟩
    · obtain ⟨i, j, rfl, hpartner⟩ := ihts p hp
      have hbehind := hpartner.behind (o :: (inside ++ [c]))
      have hlength : (o :: (inside ++ [c])).length = inside.length + 2 := by simp
      rw [hlength, List.cons_append, List.append_assoc, List.singleton_append] at hbehind
      exact ⟨inside.length + 2 + i, inside.length + 2 + j, by simp [Nat.add_assoc], hbehind⟩

/-- Each bracket is in one of the pairs. -/
theorem PairedFrom.exists_mem {index : Nat} {ts : List Token} {found : List (Nat × Nat)}
    (h : PairedFrom index ts found) {k : Nat} {t : Token} (ht : ts[k]? = some t) :
    (t.isCloser = true → ∃ i, (i, index + k) ∈ found) ∧ (t.isOpener = true → ∃ j, (index + k, j) ∈ found) := by
  induction h generalizing k with
  | nil => simp at ht
  | cons hopener hcloser _ ih =>
    rename_i index first ts found _
    cases k with
    | zero =>
      obtain rfl : first = t := by simpa using ht
      simp [hopener, hcloser]
    | succ k =>
      have hrest := ih (by simpa using ht)
      rwa [Nat.add_assoc, Nat.add_comm 1] at hrest
  | group ho hc _ _ ihinside ihts =>
    rename_i index o c inside ts inner later _ _
    cases k with
    | zero =>
      obtain rfl : o = t := by simpa using ht
      have hcloser := isCloser_eq_false_of_isOpener (isOpener_of_closer? ho)
      exact ⟨fun h => by simp [hcloser] at h, fun _ => ⟨index + inside.length + 1, by simp⟩⟩
    | succ k =>
      rw [List.getElem?_cons_succ] at ht
      rcases Nat.lt_or_ge k inside.length with hk | hk
      · rw [List.getElem?_append_left hk] at ht
        obtain ⟨hclosers, hopeners⟩ := ihinside ht
        rw [Nat.add_assoc, Nat.add_comm 1] at hclosers hopeners
        exact ⟨fun h => (hclosers h).imp fun i hi => List.mem_append_left _ hi,
          fun h => (hopeners h).imp fun j hj => List.mem_append_left _ hj⟩
      obtain ⟨m, rfl⟩ := Nat.exists_eq_add_of_le hk
      rw [List.getElem?_append_right hk, Nat.add_sub_cancel_left] at ht
      cases m with
      | zero =>
        obtain rfl : c = t := by simpa using ht
        have hopener := isOpener_eq_false_of_isCloser (isCloser_of_closer? ho hc)
        exact ⟨fun _ => ⟨index, by simp [Nat.add_assoc]⟩, fun h => by simp [hopener] at h⟩
      | succ m =>
        have hplace : index + inside.length + 2 + m = index + (inside.length + (m + 1) + 1) := by omega
        obtain ⟨hclosers, hopeners⟩ := ihts (by simpa using ht)
        rw [hplace] at hclosers hopeners
        exact ⟨fun h => (hclosers h).imp fun i hi => List.mem_append_right _ (List.mem_cons_of_mem _ hi),
          fun h => (hopeners h).imp fun j hj => List.mem_append_right _ (List.mem_cons_of_mem _ hj)⟩

/-- Each bracket of balanced tokens has a partner. -/
theorem Balanced.exists_partner {ts : List Token} (h : Balanced ts) {k : Nat} {t : Token} (ht : ts[k]? = some t) :
    (t.isCloser = true → ∃ i, Partner ts i k) ∧ (t.isOpener = true → ∃ j, Partner ts k j) := by
  obtain ⟨found, hfound⟩ := h.exists_pairedFrom 0
  obtain ⟨hclosers, hopeners⟩ := hfound.exists_mem ht
  refine ⟨fun hcloser => ?_, fun hopener => ?_⟩
  · obtain ⟨i, hi⟩ := hclosers hcloser
    obtain ⟨i', j', heq, hpartner⟩ := hfound.partner _ hi
    simp only [Nat.zero_add, Prod.mk.injEq] at heq
    exact ⟨i', heq.2 ▸ hpartner⟩
  · obtain ⟨j, hj⟩ := hopeners hopener
    obtain ⟨i', j', heq, hpartner⟩ := hfound.partner _ hj
    simp only [Nat.zero_add, Prod.mk.injEq] at heq
    exact ⟨j', heq.1 ▸ hpartner⟩

/-! ## 5. Depths -/

/-- The pairs stand where the tokens stand, and their closers follow one another. -/
theorem PairedFrom.ordered {index : Nat} {ts : List Token} {found : List (Nat × Nat)}
    (h : PairedFrom index ts found) :
    (∀ p ∈ found, index ≤ p.1 ∧ p.1 < p.2 ∧ p.2 < index + ts.length) ∧ found.Pairwise (·.2 < ·.2) := by
  induction h with
  | nil => simp
  | cons _ _ _ ih =>
    obtain ⟨hplaces, hordered⟩ := ih
    refine ⟨fun p hp => ?_, hordered⟩
    have := hplaces p hp
    simp only [List.length_cons]
    omega
  | group _ _ _ _ ihinside ihts =>
    rename_i index o c inside ts inner later _ _ _ _
    obtain ⟨hinner, hinnerOrdered⟩ := ihinside
    obtain ⟨hlater, hlaterOrdered⟩ := ihts
    have hlength : (o :: (inside ++ c :: ts)).length = inside.length + ts.length + 2 := by simp; omega
    rw [hlength]
    refine ⟨fun p hp => ?_, List.pairwise_append.2 ⟨hinnerOrdered, List.pairwise_cons.2 ⟨fun q hq => ?_, hlaterOrdered⟩,
      fun p hp q hq => ?_⟩⟩
    · rcases List.mem_append.1 hp with hp | hp
      · have := hinner p hp
        omega
      rcases List.mem_cons.1 hp with rfl | hp
      · simp only
        omega
      · have := hlater p hp
        omega
    · have := hlater q hq
      simp only
      omega
    · have := hinner p hp
      rcases List.mem_cons.1 hq with rfl | hq
      · simp only
        omega
      · have := hlater q hq
        omega

theorem depthAt_append (xs ys : List (Nat × Nat)) (k : Nat) :
    depthAt (xs ++ ys) k = depthAt xs k + depthAt ys k := List.countP_append

theorem depthAt_cons (i j : Nat) (ps : List (Nat × Nat)) (k : Nat) :
    depthAt ((i, j) :: ps) k = depthAt ps k + if i < k ∧ k < j then 1 else 0 := by
  simp [depthAt, List.countP_cons]

/-- A place that the pairs do not reach is inside none of them. -/
theorem PairedFrom.depthAt_eq_zero {index : Nat} {ts : List Token} {found : List (Nat × Nat)}
    (h : PairedFrom index ts found) {k : Nat} (hk : k ≤ index ∨ index + ts.length ≤ k) : depthAt found k = 0 := by
  refine List.countP_eq_zero.2 fun p hp => ?_
  have := h.ordered.1 p hp
  simp only [Bool.and_eq_true, decide_eq_true_eq]
  omega

theorem range'_group (index n m : Nat) : List.range' index (n + m + 2) =
    index :: (List.range' (index + 1) n ++ (index + n + 1) :: List.range' (index + n + 2) m) := by
  have hsum : n + m + 2 = n + (m + 1) + 1 := by omega
  have hmiddle : index + 1 + 1 * n = index + n + 1 := by omega
  rw [hsum, List.range'_succ, ← List.range'_append, hmiddle, List.range'_succ]

/-- **The pairs around a token are counted along the tokens.**  `f` counts more than the pairs of these tokens:
those around all of them, too. -/
theorem PairedFrom.depthsFrom_append {index : Nat} {xs : List Token} {found : List (Nat × Nat)}
    (h : PairedFrom index xs found) (depth : Nat) {f : Nat → Nat}
    (hf : ∀ k, index ≤ k → k < index + xs.length → f k = depth + depthAt found k) (ys : List Token) :
    depthsFrom depth (xs ++ ys) = (List.range' index xs.length).map f ++ depthsFrom depth ys := by
  induction h generalizing depth ys with
  | nil => rfl
  | cons hopener hcloser hts ih =>
    rename_i index t ts found
    have hfirst := hf index (Nat.le_refl _) (by simp)
    rw [hts.depthAt_eq_zero (.inl (Nat.le_succ index)), Nat.add_zero] at hfirst
    have hlater := ih depth (fun k hge hlt => hf k (by omega) (by rw [List.length_cons]; omega)) ys
    rw [List.cons_append, depthsFrom, List.length_cons, List.range'_succ, List.map_cons, hfirst]
    simp [hopener, hcloser, hlater]
  | group ho hc hinside hts ihinside ihts =>
    rename_i index o c inside ts inner later
    have hopener := isOpener_of_closer? ho
    have hcloser := isCloser_of_closer? ho hc
    have hlength : (o :: (inside ++ c :: ts)).length = inside.length + ts.length + 2 := by simp; omega
    -- the outer pair counts between its brackets, the inner pairs only there and the later ones only behind
    have hsplit : ∀ k, index ≤ k → k < index + (inside.length + ts.length + 2) → f k = depth + (depthAt inner k +
        (depthAt later k + if index < k ∧ k < index + inside.length + 1 then 1 else 0)) := by
      intro k hge hlt
      rw [hf k hge (by omega), depthAt_append, depthAt_cons]
    have hfirst : f index = depth := by
      rw [hsplit index (by omega) (by omega), hinside.depthAt_eq_zero (.inl (by omega)),
        hts.depthAt_eq_zero (.inl (by omega)), if_neg (by omega), Nat.add_zero]
    have hlast : f (index + inside.length + 1) = depth := by
      rw [hsplit _ (by omega) (by omega), hinside.depthAt_eq_zero (.inr (by omega)),
        hts.depthAt_eq_zero (.inl (by omega)), if_neg (by omega), Nat.add_zero]
    have hwithin := ihinside (depth + 1) (fun k hge hlt => by
      rw [hsplit k (by omega) (by omega), hts.depthAt_eq_zero (.inl (by omega)), if_pos (by omega)]
      omega) (c :: (ts ++ ys))
    have hbehind := ihts depth (fun k hge hlt => by
      rw [hsplit k (by omega) (by omega), hinside.depthAt_eq_zero (.inr (by omega)), if_neg (by omega)]
      omega) ys
    have hstep : depthsFrom (depth + 1) (c :: (ts ++ ys)) = depth :: depthsFrom depth (ts ++ ys) := by
      simp [depthsFrom, hcloser, isOpener_eq_false_of_isCloser hcloser]
    rw [hlength, range'_group, List.map_cons, List.map_append, List.map_cons, hfirst, hlast, List.cons_append,
      depthsFrom, hopener, isCloser_eq_false_of_isOpener hopener, List.append_assoc, List.cons_append]
    simp only [Bool.false_eq_true, if_false, if_true, hwithin, hstep, hbehind, List.cons_append, List.append_assoc]

/-- Counting from the nearest token backwards gives the depth that counting along the tokens gives. -/
theorem depthsFrom_nesting (before front rest : List Token) (t : Token) :
    (depthsFrom (nesting before) (front ++ t :: rest))[front.length]? =
      some (if t.isCloser then nesting (front.reverse ++ before) - 1 else nesting (front.reverse ++ before)) := by
  induction front generalizing before with
  | nil => simp [depthsFrom]
  | cons first front ih =>
    have hstep : (if first.isOpener then (if first.isCloser then nesting before - 1 else nesting before) + 1
        else if first.isCloser then nesting before - 1 else nesting before) = nesting (first :: before) := by
      rw [nesting]
      cases hopener : first.isOpener with
      | true => simp [isCloser_eq_false_of_isOpener hopener]
      | false => simp
    rw [List.cons_append, depthsFrom]
    simp only [hstep, List.length_cons, List.getElem?_cons_succ]
    rw [ih, List.reverse_cons, List.append_assoc, List.singleton_append]

/-! ## 6. Runs -/

/-- Behind the tokens the brackets of the stack are open, innermost first, and all others are matched. -/
inductive LeavesOpen : List Token → List Waiting → Prop
  | balanced {ts : List Token} (hts : Balanced ts) : LeavesOpen ts []
  | opener {front inside : List Token} {o : Token} {closer : String} {stack : List Waiting}
      (hfront : LeavesOpen front stack) (ho : o.closer? = some closer) (hinside : Balanced inside) :
      LeavesOpen (front ++ o :: inside) (⟨front.length, o, closer⟩ :: stack)

namespace LeavesOpen

variable {front : List Token} {stack : List Waiting}

theorem append (h : LeavesOpen front stack) {ts : List Token} (hts : Balanced ts) : LeavesOpen (front ++ ts) stack := by
  cases h with
  | balanced hfront => exact .balanced (hfront.append hts)
  | opener hfront ho hinside =>
    rw [List.append_assoc, List.cons_append]
    exact .opener hfront ho (hinside.append hts)

/-- A closer that fits closes the innermost bracket. -/
theorem close {w : Waiting} (h : LeavesOpen front (w :: stack)) {c : Token} (hc : c.kind = .punct)
    (hfits : w.closer = c.text) : LeavesOpen (front ++ [c]) stack := by
  cases h with
  | opener hfront ho hinside =>
    rw [List.append_assoc, List.cons_append]
    exact hfront.append (.group (hfits ▸ ho) hc hinside .nil)

/-- The innermost bracket that is open is on top. -/
theorem top {o : Token} {inside : List Token} {closer : String} (h : LeavesOpen (front ++ o :: inside) stack)
    (ho : o.closer? = some closer) (hinside : Balanced inside) :
    ∃ rest, stack = ⟨front.length, o, closer⟩ :: rest := by
  have hfound := hinside.enclosing?_opener (isOpener_of_closer? ho) front
  generalize hts : front ++ o :: inside = ts at h hfound
  cases h with
  | balanced hts =>
    rw [hts.enclosing?_eq_none] at hfound
    cases hfound
  | opener hfront' ho' hinside' =>
    rename_i front' inside' o' closer' stack'
    rw [hinside'.enclosing?_opener (isOpener_of_closer? ho') front', Option.some.injEq, Prod.mk.injEq,
      List.reverse_inj] at hfound
    obtain ⟨rfl, rfl⟩ := hfound
    rw [ho', Option.some.injEq] at ho
    exact ⟨stack', by rw [ho]⟩

/-- No closer among the tokens is left over. -/
theorem exists_partner (h : LeavesOpen front stack) {k : Nat} {c : Token} (hk : front[k]? = some c)
    (hc : c.isCloser = true) : ∃ i, Partner front i k := by
  induction h generalizing k with
  | balanced hts => exact (hts.exists_partner hk).1 hc
  | opener hfront ho hinside ih =>
    rename_i front inside o closer stack
    rcases Nat.lt_or_ge k front.length with hlt | hge
    · rw [List.getElem?_append_left hlt] at hk
      obtain ⟨i, hi⟩ := ih hk
      exact ⟨i, hi.append _⟩
    obtain ⟨m, rfl⟩ := Nat.exists_eq_add_of_le hge
    rw [List.getElem?_append_right hge, Nat.add_sub_cancel_left] at hk
    cases m with
    | zero =>
      obtain rfl : o = c := by simpa using hk
      simp [isCloser_eq_false_of_isOpener (isOpener_of_closer? ho)] at hc
    | succ m =>
      obtain ⟨i, hi⟩ := (hinside.exists_partner (by simpa using hk)).1 hc
      have hbehind := hi.behind (front ++ [o])
      rw [List.append_assoc, List.singleton_append, List.length_append, List.length_singleton, Nat.add_assoc,
        Nat.add_assoc, Nat.add_comm 1 m] at hbehind
      exact ⟨_, hbehind⟩

end LeavesOpen

/-! ## 7. Faults -/

/-- The closer at `k` closes nothing. -/
def Stray (ts : List Token) (k : Nat) : Prop :=
  (∃ c ∈ ts[k]?, c.isCloser = true) ∧ ∀ i, ¬ Partner ts i k

/-- The opening bracket at `i` is never closed. -/
def LeftOpen (ts : List Token) (i : Nat) : Prop :=
  (∃ o ∈ ts[i]?, o.isOpener = true) ∧ ∀ j, ¬ Partner ts i j

/-- What the fault names: the first closer that closes nothing, or, if there is none, the last opening bracket
that is never closed. -/
inductive Blames (ts : List Token) : Fault → Prop
  | closer {k : Nat} {c : Token} (hfirst : IsLeast {k | Stray ts k} k) (hc : ts[k]? = some c) :
      Blames ts ⟨.unexpectedCloser c.text, c.span⟩
  | opener {i : Nat} {o : Token} {closer : String} (hnone : ∀ k, ¬ Stray ts k)
      (hlast : IsGreatest {i | LeftOpen ts i} i) (ho : ts[i]? = some o) (hcloser : o.closer? = some closer) :
      Blames ts ⟨.missingCloser closer, o.span⟩

/-- A closer that does not fit the innermost open bracket is the first one to blame. -/
theorem LeavesOpen.blames_closer {front : List Token} {stack : List Waiting} (h : LeavesOpen front stack) {c : Token}
    (hc : c.isCloser = true) (htop : ∀ w ∈ stack.head?, w.closer ≠ c.text) (back : List Token) :
    Blames (front ++ c :: back) ⟨.unexpectedCloser c.text, c.span⟩ := by
  have hplace : (front ++ c :: back)[front.length]? = some c := by simp
  refine .closer (k := front.length) ⟨⟨⟨c, hplace, hc⟩, fun i hpartner => ?_⟩, fun k hstray => ?_⟩ hplace
  · obtain ⟨front', o, inside, c', back', heq, rfl, hlength, ho, hkind, hinside⟩ := hpartner
    have hsplit : front ++ c :: back = (front' ++ o :: inside) ++ c' :: back' := by simpa using heq
    have hlength : front.length = (front' ++ o :: inside).length := by simp [← hlength]; omega
    obtain ⟨rfl, hrest⟩ := List.append_inj hsplit hlength
    obtain ⟨rfl, -⟩ := List.cons.inj hrest
    obtain ⟨rest, rfl⟩ := h.top ho hinside
    exact htop _ rfl rfl
  · obtain ⟨⟨c', hc', hcloser⟩, hnone⟩ := hstray
    refine Nat.le_of_not_lt fun hk => ?_
    rw [List.getElem?_append_left hk] at hc'
    obtain ⟨i, hi⟩ := h.exists_partner hc' hcloser
    exact hnone i (hi.append _)

/-- The innermost bracket that is open at the end is the last one to blame. -/
theorem LeavesOpen.blames_opener {ts : List Token} {w : Waiting} {stack : List Waiting}
    (h : LeavesOpen ts (w :: stack)) : Blames ts ⟨.missingCloser w.closer, w.token.span⟩ := by
  have hnone : ∀ k, ¬ Stray ts k := by
    rintro k ⟨⟨c, hk, hc⟩, hstray⟩
    obtain ⟨i, hi⟩ := h.exists_partner hk hc
    exact hstray i hi
  cases h with
  | opener hfront ho hinside =>
    rename_i front inside o closer
    have hplace : (front ++ o :: inside)[front.length]? = some o := by simp
    refine .opener hnone ⟨⟨⟨o, hplace, isOpener_of_closer? ho⟩, fun j hpartner => ?_⟩, fun i hopen => ?_⟩ hplace ho
    · obtain ⟨inside', c, back, hgroup, -, -⟩ := hpartner.splitGroup?
      have hnever := splitGroup?_append_of_balanced hinside 0 []
      rw [List.drop_append, List.drop_eq_nil_of_le (Nat.le_succ _), Nat.add_sub_cancel_left] at hgroup
      rw [List.append_nil] at hnever
      simp [hnever, Script.splitGroup?] at hgroup
    · obtain ⟨⟨o', ho', hopener⟩, hnever⟩ := hopen
      refine Nat.le_of_not_lt fun hi => ?_
      obtain ⟨m, rfl⟩ := Nat.exists_eq_add_of_lt hi
      have hinner : inside[m]? = some o' := by
        rw [List.getElem?_append_right (by omega)] at ho'
        have hsub : front.length + m + 1 - front.length = m + 1 := by omega
        simpa [hsub] using ho'
      obtain ⟨j, hj⟩ := (hinside.exists_partner hinner).2 hopener
      have hbehind := hj.behind (front ++ [o])
      rw [List.append_assoc, List.singleton_append, List.length_append, List.length_singleton] at hbehind
      have hindex : front.length + 1 + m = front.length + m + 1 := by omega
      exact hnever _ (hindex ▸ hbehind)

/-- What the outcome of a run says of the tokens. -/
def Verdict (ts : List Token) : Except Fault (List (Nat × Nat)) → Prop
  | .ok _ => Balanced ts
  | .error fault => Blames ts fault

theorem Verdict.map {ts : List Token} {r : Except Fault (List (Nat × Nat))} (h : Verdict ts r)
    (f : List (Nat × Nat) → List (Nat × Nat)) : Verdict ts (r.map f) := by
  cases r with
  | ok found => exact h
  | error fault => exact h

/-- **A run from any stack is right.** -/
theorem LeavesOpen.verdict {front : List Token} {stack : List Waiting} (h : LeavesOpen front stack) (ts : List Token) :
    Verdict (front ++ ts) (pairsFrom front.length stack ts) := by
  induction ts generalizing front stack with
  | nil =>
    rw [List.append_nil]
    cases stack with
    | nil =>
      cases h with
      | balanced hts => exact hts
    | cons w stack => exact h.blames_opener
  | cons t ts ih =>
    have hsplit : front ++ t :: ts = (front ++ [t]) ++ ts := by simp
    have hlength : front.length + 1 = (front ++ [t]).length := by simp
    cases hopener : t.closer? with
    | some closer =>
      rw [pairsFrom_opener hopener, hsplit, hlength]
      exact ih (.opener h hopener .nil)
    | none =>
      have hnot : t.isOpener = false := by simp [Token.isOpener, hopener]
      cases hcloser : t.isCloser with
      | false =>
        rw [pairsFrom_plain hnot hcloser, hsplit, hlength]
        exact ih (h.append (.cons hnot hcloser .nil))
      | true =>
        by_cases hfits : ∀ w ∈ stack.head?, w.closer ≠ t.text
        · rw [pairsFrom_misfit hcloser hfits]
          exact h.blames_closer hcloser hfits ts
        · obtain ⟨⟨index, o, closer⟩, hw, heq⟩ : ∃ w ∈ stack.head?, w.closer = t.text := by simpa using hfits
          obtain ⟨rest, rfl⟩ := List.head?_eq_some_iff.1 hw
          obtain rfl : closer = t.text := heq
          rw [pairsFrom_closer hcloser, hsplit, hlength]
          exact (ih (h.close (kind_of_isCloser hcloser) rfl)).map _

/-! ## 8. Matching -/

/-- What the pairs and the depths of a block should be.  `partners` gives each opening bracket its partner, and
nothing to any other token.  The depth of a token is the number of pairs around it, and so is the nesting
that labels are read with. -/
structure Matched (ts : List Token) (partners : List (Nat × Nat)) : Prop where
  partner : ∀ i j, partners.lookup i = some j ↔ Partner ts i j
  alone : ∀ i, partners.lookup i = none ↔ ∀ t ∈ ts[i]?, t.isOpener = false
  nodup : partners.Nodup
  depth : depths ts = (List.range ts.length).map (depthAt partners)
  nesting : ∀ front t rest, ts = front ++ t :: rest → t.isCloser = false →
    nesting front.reverse = depthAt partners front.length

theorem PairedFrom.matched {ts : List Token} {partners : List (Nat × Nat)} (h : PairedFrom 0 ts partners) :
    Matched ts partners := by
  have hpartner : ∀ {i j}, partners.lookup i = some j → Partner ts i j := by
    intro i j hlookup
    obtain ⟨before, after, hsplit, -⟩ := List.lookup_eq_some_iff.1 hlookup
    obtain ⟨i', j', heq, hp⟩ := h.partner (i, j) (by simp [hsplit])
    simp only [Nat.zero_add, Prod.mk.injEq] at heq
    obtain ⟨rfl, rfl⟩ := heq
    exact hp
  have hfound : ∀ {i t}, ts[i]? = some t → t.isOpener = true → ∃ j, partners.lookup i = some j := by
    intro i t ht hopener
    obtain ⟨j, hj⟩ := (h.exists_mem ht).2 hopener
    rw [Nat.zero_add] at hj
    refine Option.ne_none_iff_exists'.1 fun hnone => ?_
    simpa using List.lookup_eq_none_iff.1 hnone _ hj
  have hopens : ∀ {i j}, Partner ts i j → ∃ o, ts[i]? = some o ∧ o.isOpener = true := by
    rintro i j ⟨front, o, inside, c, back, rfl, rfl, -, ho, -⟩
    exact ⟨o, by simp, isOpener_of_closer? ho⟩
  have hdepth : depths ts = (List.range ts.length).map (depthAt partners) := by
    have hall := h.depthsFrom_append 0 (f := depthAt partners) (fun k _ _ => (Nat.zero_add _).symm) []
    rw [List.append_nil] at hall
    simp [depths, hall, List.range_eq_range', depthsFrom]
  refine ⟨fun i j => ⟨hpartner, fun hp => ?_⟩, fun i => ⟨fun hnone t ht => ?_, fun hplain => ?_⟩,
    h.ordered.2.imp fun hlt heq => ?_, hdepth, fun front t rest hts hcloser => ?_⟩
  · obtain ⟨o, ho, hopener⟩ := hopens hp
    obtain ⟨j', hj'⟩ := hfound ho hopener
    rw [hj', (hpartner hj').unique hp]
  · refine Bool.eq_false_iff.2 fun hopener => ?_
    obtain ⟨j, hj⟩ := hfound ht hopener
    simp [hnone] at hj
  · refine Option.eq_none_iff_forall_ne_some.2 fun j hj => ?_
    obtain ⟨o, ho, hopener⟩ := hopens (hpartner hj)
    simp [hplain o ho] at hopener
  · exact absurd hlt (heq ▸ Nat.lt_irrefl _)
  · have hcount := depthsFrom_nesting [] front rest t
    rw [← hts, nesting, ← depths, hdepth, hcloser, List.append_nil] at hcount
    have hlt : front.length < ts.length := by simp [hts]
    simpa [hlt, eq_comm] using hcount

theorem balanced_of_pairs {ts : List Token} {partners : List (Nat × Nat)} (h : pairs ts = .ok partners) :
    Balanced ts := by
  have hverdict := (LeavesOpen.balanced .nil).verdict ts
  rw [List.nil_append, List.length_nil, ← pairs, h] at hverdict
  exact hverdict

theorem blames_of_pairs {ts : List Token} {fault : Fault} (h : pairs ts = .error fault) : Blames ts fault := by
  have hverdict := (LeavesOpen.balanced .nil).verdict ts
  rw [List.nil_append, List.length_nil, ← pairs, h] at hverdict
  exact hverdict

/-- **Matching is exact.**  It succeeds exactly on tokens whose brackets are a balanced word.  Then it finds
the partners, and their number around a token is its depth; otherwise it names the bracket to blame. -/
theorem pairs_exact (ts : List Token) :
    ((∃ partners, pairs ts = .ok partners) ↔ Dyck (bracketWord ts)) ∧
      match pairs ts with
      | .ok partners => Matched ts partners
      | .error fault => Blames ts fault := by
  refine ⟨⟨fun ⟨partners, hok⟩ => dyck_bracketWord_iff.2 (balanced_of_pairs hok),
    fun hword => pairs_ok (dyck_bracketWord_iff.1 hword)⟩, ?_⟩
  cases hpairs : pairs ts with
  | error fault => exact blames_of_pairs hpairs
  | ok partners =>
    obtain ⟨found, hfound⟩ := (balanced_of_pairs hpairs).exists_pairedFrom 0
    obtain rfl : found = partners := Except.ok.inj (hfound.pairs_eq.symm.trans hpairs)
    exact hfound.matched

end ComponentLens.Script
