/-
# Balanced tokens

The readers of logic blocks step over a bracketed group at once.  On tokens whose brackets match they
therefore see a sequence of units (`IsUnit`), each a group or a single token, and never an inner token.  This
file says so for each of them: matching brackets succeeds (`pairs_ok`), and the readers that look for a
separator or for the end of a statement go on behind a run of units as they would from there
(`breakAt_append_of_lacks`, `readParts_append`, `splitStatement_append_of_balanced`).
-/
import ComponentLens.Proofs.Script.Places

namespace ComponentLens.Script

/-! ## 1. Words and marks -/

theorem not_isPunct_of_kind {t : Token} (h : t.kind ≠ .punct) (text : String) : t.isPunct text = false := by
  rw [Token.isPunct, Bool.and_eq_false_iff, beq_eq_false_iff_ne]
  exact .inl h

theorem not_isIdent_of_kind {t : Token} (h : t.kind ≠ .ident) (text : String) : t.isIdent text = false := by
  rw [Token.isIdent, Bool.and_eq_false_iff, beq_eq_false_iff_ne]
  exact .inl h

theorem isIdent_iff {t : Token} {word : String} : t.isIdent word = true ↔ t.kind = .ident ∧ t.text = word := by
  simp [Token.isIdent]

theorem isPunct_iff {t : Token} {text : String} : t.isPunct text = true ↔ t.kind = .punct ∧ t.text = text := by
  simp [Token.isPunct]

theorem not_isPunct_of_ne {t : Token} {mark text : String} (h : t.isPunct mark = true) (hne : mark ≠ text) :
    t.isPunct text = false := by
  obtain ⟨-, rfl⟩ := isPunct_iff.1 h
  simp [Token.isPunct, hne]

/-! ## 2. Brackets -/

/-- The tokens are balanced: every opening bracket has its closer, and no closer stands alone. -/
inductive Balanced : List Token → Prop
  | nil : Balanced []
  | cons {t : Token} {ts : List Token} (hopener : t.isOpener = false) (hcloser : t.isCloser = false)
      (hts : Balanced ts) : Balanced (t :: ts)
  | group {o c : Token} {inside ts : List Token} (ho : o.closer? = some c.text) (hc : c.kind = .punct)
      (hinside : Balanced inside) (hts : Balanced ts) : Balanced (o :: (inside ++ c :: ts))

/-- One group, or one token that is no bracket. -/
inductive IsUnit : List Token → Prop
  | single {t : Token} (hopener : t.isOpener = false) (hcloser : t.isCloser = false) : IsUnit [t]
  | group {o c : Token} {inside : List Token} (ho : o.closer? = some c.text) (hc : c.kind = .punct)
      (hinside : Balanced inside) : IsUnit (o :: (inside ++ [c]))

theorem isCloser_of_closer? {o c : Token} (ho : o.closer? = some c.text) (hc : c.kind = .punct) :
    c.isCloser = true := by
  unfold Token.closer? at ho
  simp only [Token.isCloser, Token.isPunct, hc]
  split at ho
  · simp [← Option.some.inj ho]
  split at ho
  · simp [← Option.some.inj ho]
  split at ho
  · simp [← Option.some.inj ho]
  · simp at ho

theorem isOpener_eq_false_of_isCloser {t : Token} (h : t.isCloser = true) : t.isOpener = false := by
  simp only [Token.isCloser, Token.isPunct, Bool.or_eq_true, Bool.and_eq_true, beq_iff_eq] at h
  rcases h with (⟨-, h⟩ | ⟨-, h⟩) | ⟨-, h⟩
  · simp [Token.isOpener, Token.closer?, Token.isPunct, h]
  · simp [Token.isOpener, Token.closer?, Token.isPunct, h]
  · simp [Token.isOpener, Token.closer?, Token.isPunct, h]

theorem isCloser_eq_false_of_isOpener {t : Token} (h : t.isOpener = true) : t.isCloser = false := by
  cases hcloser : t.isCloser with
  | false => rfl
  | true =>
    rw [isOpener_eq_false_of_isCloser hcloser] at h
    exact absurd h Bool.false_ne_true

theorem kind_of_isCloser {t : Token} (h : t.isCloser = true) : t.kind = .punct := by
  simp only [Token.isCloser, Token.isPunct, Bool.or_eq_true, Bool.and_eq_true, beq_iff_eq] at h
  rcases h with (⟨h, -⟩ | ⟨h, -⟩) | ⟨h, -⟩
  all_goals exact h

theorem isOpener_of_closer? {o : Token} {closer : String} (ho : o.closer? = some closer) :
    o.isOpener = true := by simp [Token.isOpener, ho]

/-- The marks between the parts of a statement. -/
def separators : List String := [",", "=", ":", ";"]

/-- A separator is no bracket. -/
theorem not_bracket_of_isPunct {t : Token} {separator : String} (h : t.isPunct separator = true)
    (hsep : separator ∈ separators) : t.isOpener = false ∧ t.isCloser = false := by
  simp only [isPunct_iff] at h
  simp only [separators, List.mem_cons, List.not_mem_nil, or_false] at hsep
  rcases hsep with rfl | rfl | rfl | rfl
  all_goals simp [Token.isOpener, Token.closer?, Token.isCloser, Token.isPunct, h.2]

theorem IsUnit.balanced {u : List Token} (h : IsUnit u) : Balanced u := by
  cases h with
  | single hopener hcloser => exact .cons hopener hcloser .nil
  | group ho hc hinside => exact .group ho hc hinside .nil

theorem Balanced.append {as bs : List Token} (ha : Balanced as) (hb : Balanced bs) :
    Balanced (as ++ bs) := by
  induction ha with
  | nil => exact hb
  | cons hopener hcloser _ ih => exact .cons hopener hcloser ih
  | group ho hc hinside _ _ ih =>
    rw [List.cons_append, List.append_assoc, List.cons_append]
    exact .group ho hc hinside ih

theorem Balanced.flatMap {α : Type} {f : α → List Token} {xs : List α} (h : ∀ x ∈ xs, Balanced (f x)) :
    Balanced (xs.flatMap f) := by
  induction xs with
  | nil => exact .nil
  | cons x xs ih =>
    obtain ⟨hx, hxs⟩ := List.forall_mem_cons.1 h
    exact hx.append (ih hxs)

/-- Tokens without brackets are balanced. -/
theorem balanced_of_no_bracket {ts : List Token}
    (h : ∀ t ∈ ts, t.isOpener = false ∧ t.isCloser = false) : Balanced ts := by
  induction ts with
  | nil => exact .nil
  | cons t ts ih =>
    obtain ⟨ht, hts⟩ := List.forall_mem_cons.1 h
    exact .cons ht.1 ht.2 (ih hts)

/-- Balanced tokens are a sequence of units. -/
theorem Balanced.units {motive : (ts : List Token) → Balanced ts → Prop} (nil : motive [] .nil)
    (cons : ∀ u ts (hu : IsUnit u) (hts : Balanced ts), motive ts hts →
      motive (u ++ ts) (hu.balanced.append hts)) (ts : List Token) (h : Balanced ts) : motive ts h := by
  induction h with
  | nil => exact nil
  | cons hopener hcloser hts ih => exact cons [_] _ (.single hopener hcloser) hts ih
  | group ho hc hinside hts _ ih =>
    rename_i o c inside ts _
    have hstep := cons (o :: (inside ++ [c])) ts (.group ho hc hinside) hts ih
    simpa using hstep

theorem splitGroup?_opener {t : Token} (h : t.isOpener = true) (depth : Nat) (ts : List Token) :
    splitGroup? depth (t :: ts) = (splitGroup? (depth + 1) ts).map fun (inside, r) => (t :: inside, r) := by
  conv => lhs; unfold splitGroup?
  rw [if_pos h]

theorem splitGroup?_plain {t : Token} (hopener : t.isOpener = false) (hcloser : t.isCloser = false)
    (depth : Nat) (ts : List Token) :
    splitGroup? depth (t :: ts) = (splitGroup? depth ts).map fun (inside, r) => (t :: inside, r) := by
  conv => lhs; unfold splitGroup?
  rw [hopener, hcloser, if_neg Bool.false_ne_true, if_neg Bool.false_ne_true]

theorem splitGroup?_closer {t : Token} (h : t.isCloser = true) (depth : Nat) (ts : List Token) :
    splitGroup? (depth + 1) (t :: ts) = (splitGroup? depth ts).map fun (inside, r) => (t :: inside, r) := by
  conv => lhs; unfold splitGroup?
  rw [isOpener_eq_false_of_isCloser h, h, if_neg Bool.false_ne_true, if_pos rfl]

theorem splitGroup?_zero {t : Token} (h : t.isCloser = true) (ts : List Token) :
    splitGroup? 0 (t :: ts) = some ([], t, ts) := by
  unfold splitGroup?
  rw [isOpener_eq_false_of_isCloser h, h, if_neg Bool.false_ne_true, if_pos rfl]

/-- The end of a group is not found inside balanced tokens. -/
theorem splitGroup?_append_of_balanced {xs : List Token} (h : Balanced xs) (depth : Nat) (ys : List Token) :
    splitGroup? depth (xs ++ ys) = (splitGroup? depth ys).map fun (inside, r) => (xs ++ inside, r) := by
  induction h generalizing depth ys with
  | nil => simp
  | cons hopener hcloser _ ih =>
    rw [List.cons_append, splitGroup?_plain hopener hcloser, ih]
    cases splitGroup? depth ys <;> simp
  | group ho hc _ _ ihinside ihts =>
    rename_i o c inside ts _ _
    rw [List.cons_append, splitGroup?_opener (isOpener_of_closer? ho), List.append_assoc, ihinside,
      List.cons_append, splitGroup?_closer (isCloser_of_closer? ho hc), ihts]
    cases splitGroup? depth ys <;> simp

/-- The end of a group. -/
theorem splitGroup?_group {o c : Token} {inside : List Token} (ho : o.closer? = some c.text)
    (hc : c.kind = .punct) (hinside : Balanced inside) (rest : List Token) :
    splitGroup? 0 (inside ++ c :: rest) = some (inside, c, rest) := by
  rw [splitGroup?_append_of_balanced hinside, splitGroup?_zero (isCloser_of_closer? ho hc)]
  simp

/-- A unit in front is taken as one. -/
theorem IsUnit.unit_append {t : Token} {us : List Token} (h : IsUnit (t :: us)) (ts : List Token) :
    unit t (us ++ ts) = (t :: us, ts) := by
  cases h with
  | single hopener hcloser => simp [unit, hopener]
  | group ho hc hinside =>
    rename_i c inside
    have hend := splitGroup?_group ho hc hinside ts
    simp [unit, isOpener_of_closer? ho, hend]

theorem IsUnit.exists_cons {u : List Token} (h : IsUnit u) : ∃ t us, u = t :: us := by
  cases h with
  | single => exact ⟨_, _, rfl⟩
  | group => exact ⟨_, _, rfl⟩

theorem IsUnit.not_isCloser {t : Token} {us : List Token} (h : IsUnit (t :: us)) :
    t.isCloser = false := by
  cases h with
  | single hopener hcloser => exact hcloser
  | group ho hc hinside => exact isCloser_eq_false_of_isOpener (isOpener_of_closer? ho)

theorem pairsFrom_plain {t : Token} (hopener : t.isOpener = false) (hcloser : t.isCloser = false)
    (index : Nat) (stack : List Waiting) (ts : List Token) :
    pairsFrom index stack (t :: ts) = pairsFrom (index + 1) stack ts := by
  have hnone : t.closer? = none := by simpa [Token.isOpener] using hopener
  conv => lhs; unfold pairsFrom
  rw [hnone, hcloser]
  simp

theorem pairsFrom_opener {o : Token} {closer : String} (ho : o.closer? = some closer) (index : Nat)
    (stack : List Waiting) (ts : List Token) :
    pairsFrom index stack (o :: ts) = pairsFrom (index + 1) (⟨index, o, closer⟩ :: stack) ts := by
  conv => lhs; unfold pairsFrom
  rw [ho]

theorem pairsFrom_closer {c : Token} (hc : c.isCloser = true) (index at_ : Nat) (o : Token)
    (stack : List Waiting) (ts : List Token) :
    pairsFrom index (⟨at_, o, c.text⟩ :: stack) (c :: ts) =
      (pairsFrom (index + 1) stack ts).map ((at_, index) :: ·) := by
  have hnone : c.closer? = none := by simpa [Token.isOpener] using isOpener_eq_false_of_isCloser hc
  conv => lhs; unfold pairsFrom
  rw [hnone, hc]
  simp

/-- A closer that does not fit the innermost open bracket is a fault. -/
theorem pairsFrom_misfit {c : Token} (hc : c.isCloser = true) {stack : List Waiting}
    (htop : ∀ w ∈ stack.head?, w.closer ≠ c.text) (index : Nat) (ts : List Token) :
    pairsFrom index stack (c :: ts) = .error ⟨.unexpectedCloser c.text, c.span⟩ := by
  have hnone : c.closer? = none := by simpa [Token.isOpener] using isOpener_eq_false_of_isCloser hc
  unfold pairsFrom
  rw [hnone, hc]
  cases stack with
  | nil => simp
  | cons w stack => simp [htop w rfl]

/-- The positions of each opening bracket and its closer in balanced tokens, in the order of the closers.  The
tokens start at position `index`. -/
inductive PairedFrom : Nat → List Token → List (Nat × Nat) → Prop
  | nil {index : Nat} : PairedFrom index [] []
  | cons {index : Nat} {t : Token} {ts : List Token} {found : List (Nat × Nat)} (hopener : t.isOpener = false)
      (hcloser : t.isCloser = false) (hts : PairedFrom (index + 1) ts found) : PairedFrom index (t :: ts) found
  | group {index : Nat} {o c : Token} {inside ts : List Token} {inner later : List (Nat × Nat)}
      (ho : o.closer? = some c.text) (hc : c.kind = .punct) (hinside : PairedFrom (index + 1) inside inner)
      (hts : PairedFrom (index + inside.length + 2) ts later) :
      PairedFrom index (o :: (inside ++ c :: ts)) (inner ++ (index, index + inside.length + 1) :: later)

theorem Balanced.exists_pairedFrom {ts : List Token} (h : Balanced ts) (index : Nat) :
    ∃ found, PairedFrom index ts found := by
  induction h generalizing index with
  | nil => exact ⟨[], .nil⟩
  | cons hopener hcloser _ ih =>
    obtain ⟨found, hfound⟩ := ih (index + 1)
    exact ⟨found, .cons hopener hcloser hfound⟩
  | group ho hc _ _ ihinside ihts =>
    rename_i o c inside ts _ _
    obtain ⟨inner, hinner⟩ := ihinside (index + 1)
    obtain ⟨later, hlater⟩ := ihts (index + inside.length + 2)
    exact ⟨_, .group ho hc hinner hlater⟩

theorem PairedFrom.balanced {index : Nat} {ts : List Token} {found : List (Nat × Nat)}
    (h : PairedFrom index ts found) : Balanced ts := by
  induction h with
  | nil => exact .nil
  | cons hopener hcloser _ ih => exact .cons hopener hcloser ih
  | group ho hc _ _ ihinside ihts => exact .group ho hc ihinside ihts

/-- Matching the brackets of balanced tokens finds their pairs and leaves the stack as it was. -/
theorem PairedFrom.pairsFrom_append {index : Nat} {xs : List Token} {found : List (Nat × Nat)}
    (h : PairedFrom index xs found) (stack : List Waiting) (ys : List Token) :
    pairsFrom index stack (xs ++ ys) = (pairsFrom (index + xs.length) stack ys).map (found ++ ·) := by
  induction h generalizing stack ys with
  | nil =>
    rename_i index
    cases hys : pairsFrom index stack ys <;> simp [hys, Except.map]
  | cons hopener hcloser _ ih =>
    rw [List.cons_append, pairsFrom_plain hopener hcloser, ih, List.length_cons, Nat.add_assoc, Nat.add_comm 1]
  | group ho hc _ _ ihinside ihts =>
    rename_i index o c inside ts inner later _ _
    have hcloser : index + 1 + inside.length = index + inside.length + 1 := by omega
    have hlength : index + inside.length + 2 + ts.length = index + (o :: (inside ++ c :: ts)).length := by
      simp only [List.length_cons, List.length_append]
      omega
    rw [List.cons_append, pairsFrom_opener ho, List.append_assoc, List.cons_append, ihinside, hcloser,
      pairsFrom_closer (isCloser_of_closer? ho hc), ihts, hlength]
    cases pairsFrom (index + (o :: (inside ++ c :: ts)).length) stack ys <;> simp [Except.map]

/-- Balanced tokens pass, and their pairs are found. -/
theorem PairedFrom.pairs_eq {ts : List Token} {found : List (Nat × Nat)} (h : PairedFrom 0 ts found) :
    pairs ts = .ok found := by
  have hrun := h.pairsFrom_append [] []
  rw [List.append_nil] at hrun
  simp [pairs, hrun, pairsFrom, Except.map]

/-- **Balanced tokens pass.** -/
theorem pairs_ok {ts : List Token} (h : Balanced ts) : ∃ found, pairs ts = .ok found := by
  obtain ⟨found, hfound⟩ := h.exists_pairedFrom 0
  exact ⟨found, hfound.pairs_eq⟩

/-! ## 3. Separators -/

variable {separator : String}

/-- No separator stands outside the brackets of the tokens. -/
def Lacks (separator : String) (ts : List Token) : Prop := (breakAt separator ts).2 = none

instance (ts : List Token) : Decidable (Lacks separator ts) :=
  inferInstanceAs (Decidable ((breakAt separator ts).2 = none))

theorem breakAt_separator {t : Token} (h : t.isPunct separator = true) (ts : List Token) :
    breakAt separator (t :: ts) = ([], some ts) := by
  rw [breakAt, if_pos h]

/-- The search goes on behind a unit that does not start with the separator. -/
theorem IsUnit.breakAt_append {u : List Token} (h : IsUnit u) (hsep : headIsPunct u separator = false)
    (ts : List Token) :
    breakAt separator (u ++ ts) = (u ++ (breakAt separator ts).1, (breakAt separator ts).2) := by
  obtain ⟨t, us, rfl⟩ := h.exists_cons
  have hsep : t.isPunct separator = false := by simpa [headIsPunct] using hsep
  rw [List.cons_append]
  conv => lhs; unfold breakAt
  rw [hsep, if_neg Bool.false_ne_true]
  simp only [h.unit_append]

/-- A unit that starts with a separator is the separator. -/
theorem IsUnit.eq_singleton {u : List Token} (h : IsUnit u) (hsep : headIsPunct u separator = true)
    (hmem : separator ∈ separators) : ∃ t, u = [t] ∧ t.isPunct separator = true := by
  cases h with
  | single => exact ⟨_, rfl, by simpa [headIsPunct] using hsep⟩
  | group ho hc hinside =>
    rename_i o c inside
    have hpunct : o.isPunct separator = true := by simpa [headIsPunct] using hsep
    have hopener := (not_bracket_of_isPunct hpunct hmem).1
    rw [isOpener_of_closer? ho] at hopener
    simp at hopener

theorem breakAt_fst_of_lacks {ts : List Token} (h : Lacks separator ts) :
    (breakAt separator ts).1 = ts := by
  unfold Lacks at h
  fun_induction breakAt separator ts with
  | case1 => rfl
  | case2 t ts hsep => simp at h
  | case3 t ts hsep _ before after hbreak ih =>
    rw [hbreak] at ih
    have hbefore := ih h
    simp only at hbefore
    rw [hbefore, unit_append]

/-- What a search finds makes up the tokens. -/
theorem breakAt_eq_some {ts before after : List Token} (h : breakAt separator ts = (before, some after)) :
    ∃ t, t.isPunct separator = true ∧ ts = before ++ t :: after := by
  fun_induction breakAt separator ts generalizing before with
  | case1 => simp at h
  | case2 t ts hsep =>
    cases h
    exact ⟨t, hsep, rfl⟩
  | case3 t ts hsep _ before' after' hbreak ih =>
    cases h
    obtain ⟨t', ht', heq⟩ := ih hbreak
    exact ⟨t', ht', by rw [List.append_assoc, ← heq, unit_append]⟩

section

variable (hmem : separator ∈ separators)

include hmem

/-- What a search in balanced tokens finds is balanced, and its first part lacks the separator. -/
theorem Balanced.breakAt {ts : List Token} (h : Balanced ts) :
    Balanced (Script.breakAt separator ts).1 ∧ Lacks separator (Script.breakAt separator ts).1 ∧
      ∀ rest, (Script.breakAt separator ts).2 = some rest → Balanced rest := by
  induction ts, h using Balanced.units with
  | nil => exact ⟨by simpa [Script.breakAt] using Balanced.nil, by simp [Lacks, Script.breakAt],
      by simp [Script.breakAt]⟩
  | cons u ts hu hts ih =>
    cases hsep : headIsPunct u separator with
    | true =>
      obtain ⟨t, rfl, ht⟩ := hu.eq_singleton hsep hmem
      rw [List.singleton_append, breakAt_separator ht]
      refine ⟨.nil, by simp [Lacks, Script.breakAt], ?_⟩
      rintro rest ⟨⟩
      exact hts
    | false =>
      rw [hu.breakAt_append hsep]
      refine ⟨hu.balanced.append ih.1, ?_, ih.2.2⟩
      unfold Lacks
      rw [hu.breakAt_append hsep]
      exact ih.2.1

/-- Behind balanced tokens without the separator, the search is that in the rest. -/
theorem breakAt_append_of_lacks {xs : List Token} (h : Balanced xs) (hlacks : Lacks separator xs)
    (ys : List Token) :
    breakAt separator (xs ++ ys) = (xs ++ (breakAt separator ys).1, (breakAt separator ys).2) := by
  induction xs, h using Balanced.units with
  | nil => simp
  | cons u ts hu hts ih =>
    unfold Lacks at hlacks
    cases hsep : headIsPunct u separator with
    | true =>
      obtain ⟨t, rfl, ht⟩ := hu.eq_singleton hsep hmem
      rw [List.singleton_append, breakAt_separator ht] at hlacks
      simp at hlacks
    | false =>
      rw [hu.breakAt_append hsep] at hlacks
      rw [List.append_assoc, hu.breakAt_append hsep, ih hlacks, List.append_assoc]

/-- What the search finds in balanced tokens it finds there whatever follows. -/
theorem breakAt_append_of_some {xs before after : List Token} (h : Balanced xs)
    (hfound : breakAt separator xs = (before, some after)) (ys : List Token) :
    breakAt separator (xs ++ ys) = (before, some (after ++ ys)) := by
  obtain ⟨t, ht, rfl⟩ := breakAt_eq_some hfound
  obtain ⟨hbefore, hlacks, -⟩ := h.breakAt hmem
  rw [hfound] at hbefore hlacks
  rw [List.append_assoc, breakAt_append_of_lacks hmem hbefore hlacks, List.cons_append,
    breakAt_separator ht, List.append_nil]

theorem lacks_append {xs ys : List Token} (hxs : Balanced xs) :
    Lacks separator (xs ++ ys) ↔ Lacks separator xs ∧ Lacks separator ys := by
  cases hbreak : (breakAt separator xs).2 with
  | none =>
    unfold Lacks
    rw [breakAt_append_of_lacks hmem hxs hbreak]
    simp [hbreak]
  | some rest =>
    have hfound : breakAt separator xs = ((breakAt separator xs).1, some rest) := by rw [← hbreak]
    unfold Lacks
    rw [breakAt_append_of_some hmem hxs hfound]
    simp [hbreak]

end

/-! ## 4. Parts -/

section

variable {β : Type} (f : List Token → List β)

theorem splitAt_of_some {ts before after : List Token}
    (h : breakAt separator ts = (before, some after)) :
    splitAt separator ts = before :: splitAt separator after := by
  conv => lhs; unfold splitAt
  split
  next hnone => simp [h] at hnone
  next hsome =>
    rw [h] at hsome
    cases hsome
    rfl

theorem splitAt_of_lacks {ts : List Token} (h : Lacks separator ts) :
    splitAt separator ts = if ts.isEmpty then [] else [ts] := by
  have hfst := breakAt_fst_of_lacks h
  conv => lhs; unfold splitAt
  split
  next hnone =>
    rw [hnone] at hfst
    cases hfst
    rfl
  next hsome =>
    unfold Lacks at h
    simp [hsome] at h

/-- What is read off the parts of the tokens. -/
def readParts (separator : String) (ts : List Token) : List β := (splitAt separator ts).flatMap f

variable {f}

theorem readParts_of_some {ts before after : List Token}
    (h : breakAt separator ts = (before, some after)) :
    readParts f separator ts = f before ++ readParts f separator after := by
  simp [readParts, splitAt_of_some h]

/-- An empty part at the end does not count, but nothing is read off it anyway. -/
theorem readParts_of_lacks (hf : f [] = []) {ts : List Token} (h : Lacks separator ts) :
    readParts f separator ts = f ts := by
  cases ts with
  | nil => simp [readParts, splitAt_of_lacks h, hf]
  | cons t ts => simp [readParts, splitAt_of_lacks h]

/-- What is read off the parts behind the first separator. -/
def laterParts (f : List Token → List β) (separator : String) (ts : List Token) : List β :=
  ((breakAt separator ts).2.map (readParts f separator)).getD []

theorem readParts_eq (hf : f [] = []) (ts : List Token) :
    readParts f separator ts = f (breakAt separator ts).1 ++ laterParts f separator ts := by
  cases hbreak : (breakAt separator ts).2 with
  | none => rw [readParts_of_lacks hf hbreak, laterParts, hbreak, breakAt_fst_of_lacks hbreak]; simp
  | some after =>
    have hfound : breakAt separator ts = ((breakAt separator ts).1, some after) := by rw [← hbreak]
    rw [readParts_of_some hfound, laterParts, hbreak]
    rfl

/-- The first part of the tokens begins with what lacks the separator, and the others are not changed. -/
theorem readParts_append_of_lacks (hf : f [] = []) (hmem : separator ∈ separators) {xs : List Token}
    (hxs : Balanced xs) (hlacks : Lacks separator xs) (ys : List Token) :
    readParts f separator (xs ++ ys) =
      f (xs ++ (breakAt separator ys).1) ++ laterParts f separator ys := by
  rw [readParts_eq hf, laterParts, breakAt_append_of_lacks hmem hxs hlacks]
  rfl

/-- **Parts are read one by one.**  A separator behind balanced tokens cuts the reading in two. -/
theorem readParts_append (hf : f [] = []) (hmem : separator ∈ separators) {xs : List Token}
    (hxs : Balanced xs) {t : Token} (ht : t.isPunct separator = true) (ys : List Token) :
    readParts f separator (xs ++ t :: ys) = readParts f separator xs ++ readParts f separator ys := by
  obtain ⟨n, hn⟩ : ∃ n, xs.length ≤ n := ⟨_, Nat.le_refl _⟩
  induction n generalizing xs with
  | zero =>
    obtain rfl : xs = [] := List.length_eq_zero_iff.1 (Nat.le_zero.1 hn)
    have hbreak : breakAt separator ([] ++ t :: ys) = ([], some ys) := breakAt_separator ht ys
    have hnil : readParts f separator [] = [] := by
      rw [readParts_of_lacks hf (by simp [Lacks, breakAt]), hf]
    rw [readParts_of_some hbreak, hf, hnil]
  | succ n ih =>
    cases hbreak : (breakAt separator xs).2 with
    | none =>
      have hfound : breakAt separator (xs ++ t :: ys) = (xs, some ys) := by
        rw [breakAt_append_of_lacks hmem hxs hbreak, breakAt_separator ht, List.append_nil]
      rw [readParts_of_some hfound, readParts_of_lacks hf hbreak]
    | some rest =>
      have hfound : breakAt separator xs = ((breakAt separator xs).1, some rest) := by rw [← hbreak]
      have hrest := (hxs.breakAt hmem).2.2 rest hbreak
      have hlength := breakAt_length separator xs
      rw [hbreak, Option.elim] at hlength
      rw [readParts_of_some (breakAt_append_of_some hmem hxs hfound _), readParts_of_some hfound,
        ih hrest (by omega), List.append_assoc]

end

/-! ## 5. Statements -/

/-- Whether a statement ends in front of the tokens because they start a line that does not go on. -/
def breaksBefore (previous : Option Token) (ts : List Token) : Bool :=
  ts.head?.any fun t => previous.any fun p => t.newlineBefore && !continues p t

theorem splitStatement_of_breaksBefore {previous : Option Token} {ts : List Token}
    (h : breaksBefore previous ts = true) : splitStatement previous ts = ([], ts) := by
  cases ts with
  | nil => simp [breaksBefore] at h
  | cons t ts =>
    rw [splitStatement, if_pos (by simpa [breaksBefore] using h)]

theorem splitStatement_semicolon {previous : Option Token} {t : Token} {ts : List Token}
    (hbreak : breaksBefore previous (t :: ts) = false) (ht : t.isPunct ";" = true) :
    splitStatement previous (t :: ts) = ([t], ts) := by
  have hbreak : (previous.any fun p => t.newlineBefore && !continues p t) = false := by
    simpa [breaksBefore] using hbreak
  rw [splitStatement, hbreak, if_neg Bool.false_ne_true, if_pos ht]

/-- A statement goes on behind a unit. -/
theorem IsUnit.splitStatement_append {u : List Token} (h : IsUnit u) {previous : Option Token}
    {ts : List Token} (hbreak : breaksBefore previous (u ++ ts) = false)
    (hsemicolon : headIsPunct u ";" = false) :
    splitStatement previous (u ++ ts) =
      (u ++ (splitStatement u.getLast? ts).1, (splitStatement u.getLast? ts).2) := by
  obtain ⟨t, us, rfl⟩ := h.exists_cons
  have hbreak : (previous.any fun p => t.newlineBefore && !continues p t) = false := by
    simpa [breaksBefore] using hbreak
  have hsemicolon : t.isPunct ";" = false := by simpa [headIsPunct] using hsemicolon
  rw [List.cons_append]
  conv => lhs; unfold splitStatement
  rw [hbreak, if_neg Bool.false_ne_true, hsemicolon, if_neg Bool.false_ne_true, h.not_isCloser,
    if_neg Bool.false_ne_true]
  simp only [h.unit_append]

theorem breaksBefore_append {previous : Option Token} {xs : List Token} (hxs : xs ≠ []) (ys : List Token) :
    breaksBefore previous (xs ++ ys) = breaksBefore previous xs := by
  cases xs with
  | nil => exact absurd rfl hxs
  | cons x xs => rfl

/-- The last token of the tokens, or the one in front of them. -/
def lastOf (previous : Option Token) (ts : List Token) : Option Token := ts.getLast?.or previous

@[simp] theorem lastOf_nil (previous : Option Token) : lastOf previous [] = previous := rfl

theorem lastOf_append (previous : Option Token) (xs ys : List Token) :
    lastOf previous (xs ++ ys) = lastOf (lastOf previous xs) ys := by
  simp [lastOf, List.getLast?_append, Option.or_assoc]

theorem lastOf_of_ne_nil {previous : Option Token} {ts : List Token} (h : ts ≠ []) :
    lastOf previous ts = ts.getLast? := by
  cases hlast : ts.getLast? with
  | none => exact absurd (List.getLast?_eq_none_iff.1 hlast) h
  | some t => simp [lastOf, hlast]

theorem IsUnit.ne_nil {u : List Token} (h : IsUnit u) : u ≠ [] := by
  obtain ⟨t, us, rfl⟩ := h.exists_cons
  exact List.cons_ne_nil t us

theorem IsUnit.headIsPunct_semicolon {u ts : List Token} (h : IsUnit u) (hlacks : Lacks ";" (u ++ ts)) :
    headIsPunct u ";" = false := by
  cases hsep : headIsPunct u ";" with
  | false => rfl
  | true =>
    obtain ⟨t, rfl, ht⟩ := h.eq_singleton hsep (by decide)
    rw [List.singleton_append, Lacks, breakAt_separator ht] at hlacks
    simp at hlacks

/-- A statement ends in front of a unit, or the unit is the semicolon that ends it, or it goes on behind the unit. -/
theorem IsUnit.splitStatement_cases {u : List Token} (h : IsUnit u) (previous : Option Token) (ts : List Token) :
    (breaksBefore previous (u ++ ts) = true ∧ splitStatement previous (u ++ ts) = ([], u ++ ts)) ∨
      breaksBefore previous (u ++ ts) = false ∧
        ((∃ t, u = [t] ∧ t.isPunct ";" = true ∧ splitStatement previous (u ++ ts) = (u, ts)) ∨
          headIsPunct u ";" = false ∧ splitStatement previous (u ++ ts) =
            (u ++ (splitStatement u.getLast? ts).1, (splitStatement u.getLast? ts).2)) := by
  cases hbreak : breaksBefore previous (u ++ ts) with
  | true => exact .inl ⟨rfl, splitStatement_of_breaksBefore hbreak⟩
  | false =>
    refine .inr ⟨rfl, ?_⟩
    cases hsemicolon : headIsPunct u ";" with
    | true =>
      obtain ⟨t, rfl, ht⟩ := h.eq_singleton hsemicolon (by decide)
      exact .inl ⟨t, rfl, ht, splitStatement_semicolon hbreak ht⟩
    | false => exact .inr ⟨rfl, h.splitStatement_append hbreak hsemicolon⟩

/-- Nothing but a semicolon or a line break ends a statement in balanced tokens. -/
theorem splitStatement_append_of_balanced {xs : List Token} (h : Balanced xs) (hlacks : Lacks ";" xs)
    (previous : Option Token) (ys : List Token) :
    splitStatement previous (xs ++ ys) =
      if (splitStatement previous xs).2.isEmpty then
        (xs ++ (splitStatement (lastOf previous xs) ys).1, (splitStatement (lastOf previous xs) ys).2)
      else ((splitStatement previous xs).1, (splitStatement previous xs).2 ++ ys) := by
  induction xs, h using Balanced.units generalizing previous with
  | nil => simp [splitStatement]
  | cons u ts hu hts ih =>
    have hsemicolon := hu.headIsPunct_semicolon hlacks
    have hts : Lacks ";" ts := ((lacks_append (by decide) hu.balanced).1 hlacks).2
    have hfirst : ∀ zs, breaksBefore previous (u ++ zs) = breaksBefore previous u :=
      fun zs => breaksBefore_append hu.ne_nil zs
    rw [List.append_assoc]
    cases hbreak : breaksBefore previous u with
    | true =>
      rw [splitStatement_of_breaksBefore ((hfirst ts).trans hbreak),
        splitStatement_of_breaksBefore ((hfirst (ts ++ ys)).trans hbreak)]
      simp [hu.ne_nil]
    | false =>
      rw [hu.splitStatement_append ((hfirst ts).trans hbreak) hsemicolon,
        hu.splitStatement_append ((hfirst (ts ++ ys)).trans hbreak) hsemicolon,
        ih hts, lastOf_append, lastOf_of_ne_nil hu.ne_nil]
      split <;> simp

/-- A statement of balanced tokens, and what follows it, are balanced. -/
theorem Balanced.splitStatement {xs : List Token} (h : Balanced xs) (previous : Option Token) :
    Balanced (Script.splitStatement previous xs).1 ∧ Balanced (Script.splitStatement previous xs).2 := by
  induction xs, h using Balanced.units generalizing previous with
  | nil => simp [Script.splitStatement, Balanced.nil]
  | cons u ts hu hts ih =>
    rcases hu.splitStatement_cases previous ts with ⟨-, heq⟩ | ⟨-, ⟨t, -, -, heq⟩ | ⟨-, heq⟩⟩
    · rw [heq]
      exact ⟨.nil, hu.balanced.append hts⟩
    · rw [heq]
      exact ⟨hu.balanced, hts⟩
    · rw [heq]
      exact ⟨hu.balanced.append (ih _).1, (ih _).2⟩

/-- A statement of balanced tokens that leaves something over has its semicolon, or the next line does not go on. -/
theorem splitStatement_ends {xs : List Token} (h : Balanced xs) {previous : Option Token}
    (hrest : (splitStatement previous xs).2 ≠ []) :
    (∃ front t, (splitStatement previous xs).1 = front ++ [t] ∧ Balanced front ∧ t.isPunct ";" = true) ∨
      breaksBefore (lastOf previous (splitStatement previous xs).1) (splitStatement previous xs).2 = true := by
  induction xs, h using Balanced.units generalizing previous with
  | nil => simp [splitStatement] at hrest
  | cons u ts hu hts ih =>
    rcases hu.splitStatement_cases previous ts with ⟨hbreak, heq⟩ | ⟨-, ⟨t, hsingle, ht, heq⟩ | ⟨-, heq⟩⟩
    · rw [heq]
      exact .inr hbreak
    · rw [heq]
      exact .inl ⟨[], t, hsingle, .nil, ht⟩
    · rw [heq] at hrest ⊢
      rw [lastOf_append, lastOf_of_ne_nil hu.ne_nil]
      refine (ih hrest).imp_left ?_
      rintro ⟨front, t, hfirst, hfront, ht⟩
      exact ⟨u ++ front, t, by simp [hfirst], hu.balanced.append hfront, ht⟩

/-- What a statement of balanced tokens leaves over starts a line. -/
theorem breaksBefore_of_splitStatement {xs : List Token} (h : Balanced xs) (hlacks : Lacks ";" xs)
    {previous : Option Token} (hrest : (splitStatement previous xs).2 ≠ []) :
    breaksBefore (lastOf previous (splitStatement previous xs).1) (splitStatement previous xs).2 = true := by
  rcases splitStatement_ends h hrest with ⟨front, t, heq, hfront, ht⟩ | hbreak
  · rw [← splitStatement_append previous xs, heq, List.append_assoc, List.singleton_append] at hlacks
    have hlater := ((lacks_append (by decide) hfront).1 hlacks).2
    rw [Lacks, breakAt_separator ht] at hlater
    simp at hlater
  · exact hbreak

/-- A statement takes at least a unit. -/
theorem splitStatement_fst_ne_nil {xs : List Token} (h : Balanced xs) (hne : xs ≠ []) :
    (splitStatement none xs).1 ≠ [] := by
  cases xs, h using Balanced.units with
  | nil => exact absurd rfl hne
  | cons u ts hu hts _ =>
    rcases hu.splitStatement_cases none ts with ⟨hbreak, -⟩ | ⟨-, ⟨t, -, -, heq⟩ | ⟨-, heq⟩⟩
    · cases hhead : (u ++ ts).head? <;> simp [breaksBefore, hhead] at hbreak
    · rw [heq]
      exact hu.ne_nil
    · rw [heq]
      exact List.append_ne_nil_of_left_ne_nil hu.ne_nil _

theorem statements_nil : statements [] = [] := by rw [statements]

theorem statements_semicolon {t : Token} (ht : t.isPunct ";" = true) (ts : List Token) :
    statements (t :: ts) = statements ts := by
  conv => lhs; unfold statements
  rw [if_pos ht]

/-- The first statement, and then the others. -/
theorem statements_of_splitStatement {ts statement rest : List Token} (hsemicolon : headIsPunct ts ";" = false)
    (hsplit : splitStatement none ts = (statement, rest)) (hne : statement ≠ []) :
    statements ts = ⟨statement, rest⟩ :: statements rest := by
  cases ts with
  | nil =>
    rw [splitStatement] at hsplit
    cases hsplit
    exact absurd rfl hne
  | cons t ts =>
    have hsemicolon : t.isPunct ";" = false := by simpa [headIsPunct] using hsemicolon
    conv => lhs; unfold statements
    rw [hsemicolon, if_neg Bool.false_ne_true]
    split
    next h =>
      rw [hsplit] at h
      cases h
      exact absurd rfl hne
    next h =>
      rw [hsplit] at h
      cases h
      rfl

end ComponentLens.Script
