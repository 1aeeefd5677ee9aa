/-
# Text that is written token by token

`tokenize_lossless` takes a block apart.  This file goes the other way, for names, strings and the marks of lists: a
text that is put together from lexemes, each behind a gap, is read as the tokens that it is put together from
(`tokensFrom_of_written`).

A lexeme is told from what follows it, so what may follow is part of being one (`IsLexeme`): a name ends where
no character of names follows, and a star is no part of a longer mark.
-/
import ComponentLens.Proofs.Script.Lossless

namespace ComponentLens.Script

/-! ## 1. Written texts -/

/-- The marks that stand alone whatever follows. -/
def loneMarks : List Char := ['{', '}', ',', ';']

/-- The characters are a lexeme of the kind when `behind` follows. -/
inductive IsLexeme (behind : List Char) : TokenKind → List Char → Prop where
  | name {c : Char} {cs : List Char} (hc : isNameStart c = true) (hcs : ∀ d ∈ cs, isNamePart d = true)
      (hend : ∀ d ∈ behind.head?, isNamePart d = false) : IsLexeme behind .ident (c :: cs)
  | string {quote : Char} {body : List Char} (hquote : quote = '"' ∨ quote = '\'')
      (hbody : StringText quote body) : IsLexeme behind .string (quote :: (body ++ [quote]))
  | mark {c : Char} (hc : c ∈ loneMarks) : IsLexeme behind .punct [c]
  | star (hend : ∀ d ∈ behind.head?, d ≠ '*' ∧ d ≠ '=') : IsLexeme behind .punct ['*']

/-- The text is written as the tokens, each behind a gap, and with a gap behind the last.  Its first byte stands at
offset `pos`, and `broken` tells whether a line break stands in front of it. -/
inductive Written : Bool → Nat → List Char → List Token → Prop where
  | last {broken : Bool} {pos : Nat} {gap : List Char} (hgap : IsGap [] gap) : Written broken pos gap []
  | token {broken : Bool} {pos : Nat} {gap rest : List Char} {t : Token} {ts : List Token}
      (hgap : IsGap (t.text.toList ++ rest) gap) (hlexeme : IsLexeme rest t.kind t.text.toList)
      (hspan : t.span = ⟨pos + byteLength gap, pos + byteLength gap + byteLength t.text.toList⟩)
      (hbreak : t.newlineBefore = (broken || gap.contains '\n')) (hrest : Written false t.span.stop rest ts) :
      Written broken pos (gap ++ (t.text.toList ++ rest)) (t :: ts)

/-- The source is written as the tokens. -/
def IsWritten (source : String) (ts : List Token) : Prop := Written false 0 source.toList ts

/-! ## 2. Pieces -/

theorem tokensFrom_gap {pos : Nat} {previous : Option Token} {broken : Bool} {c : Char} {cs : List Char}
    {piece : Piece} (h : readPiece pos previous c cs = .ok piece) (hkind : piece.kind = none) :
    tokensFrom pos previous broken (c :: cs) =
      tokensFrom (pos + byteLength piece.taken) previous (broken || piece.sawBreak) piece.rest := by
  conv => lhs; unfold tokensFrom
  split
  next heq => exact absurd (heq.symm.trans h) (by simp)
  next other heq =>
    obtain rfl : other = piece := by simpa using heq.symm.trans h
    simp [hkind]

theorem tokensFrom_token {pos : Nat} {previous : Option Token} {broken : Bool} {c : Char} {cs : List Char}
    {piece : Piece} {t : Token} (h : readPiece pos previous c cs = .ok piece) (hkind : piece.kind = some t.kind)
    (htext : piece.taken = t.text.toList) (hspan : t.span = ⟨pos, pos + byteLength t.text.toList⟩)
    (hbreak : t.newlineBefore = (broken || piece.sawBreak)) :
    tokensFrom pos previous broken (c :: cs) = (tokensFrom t.span.stop (some t) false piece.rest).map (t :: ·) := by
  have htoken : (⟨t.kind, String.ofList t.text.toList, ⟨pos, pos + byteLength t.text.toList⟩,
      broken || piece.sawBreak⟩ : Token) = t := by
    rw [← hspan, String.ofList_toList, ← hbreak]
  have hstop : pos + byteLength t.text.toList = t.span.stop := by rw [hspan]
  conv => lhs; unfold tokensFrom
  split
  next heq => exact absurd (heq.symm.trans h) (by simp)
  next other heq =>
    obtain rfl : other = piece := by simpa using heq.symm.trans h
    simp only [hkind, htext, htoken]
    rw [hstop]

/-- **A gap is passed over**, and its line breaks are noted. -/
theorem IsGap.tokensFrom {behind gap : List Char} (h : IsGap behind gap) (pos : Nat) (previous : Option Token)
    (broken : Bool) : tokensFrom pos previous broken (gap ++ behind) =
      tokensFrom (pos + byteLength gap) previous (broken || gap.contains '\n') behind := by
  induction h generalizing pos broken with
  | nil => simp
  | @space c cs hc _ ih =>
    have hpiece : readPiece pos previous c (cs ++ behind) = .ok ⟨none, [c], cs ++ behind, c == '\n'⟩ := by
      simp only [List.mem_cons, List.not_mem_nil, or_false] at hc
      rcases hc with rfl | rfl | rfl | rfl | rfl | rfl <;> rfl
    have hbreak : (c == '\n' || cs.contains '\n') = (c :: cs).contains '\n' := by
      rw [List.contains_cons, Bool.beq_comm]
    rw [List.cons_append, tokensFrom_gap hpiece rfl, ih, Bool.or_assoc, hbreak]
    simp [Nat.add_assoc]
  | @lineComment body cs hbody hend _ ih =>
    have hline : ∀ c ∈ body, (c != '\n') = true := fun c hc => bne_iff_ne.2 fun h => hbody (h ▸ hc)
    have hstop : ∀ c ∈ (cs ++ behind).head?, (c != '\n') = false := fun c hc => by simp [hend c hc]
    obtain ⟨htake, hdrop⟩ := takeWhile_append_of_head? hline hstop
    have hpiece : readPiece pos previous '/' ('/' :: (body ++ (cs ++ behind))) =
        .ok ⟨none, '/' :: '/' :: body, cs ++ behind, false⟩ := by
      simp [readPiece, isGap, htake, hdrop]
    simp only [List.cons_append, List.append_assoc]
    rw [tokensFrom_gap hpiece rfl, ih]
    simp [hbody, Nat.add_assoc]
  | @blockComment body cs hbody _ ih =>
    have hclosed := readBlockComment_append_closer hbody (cs ++ behind)
    have hpiece : readPiece pos previous '/' ('*' :: (body ++ '*' :: '/' :: (cs ++ behind))) =
        .ok ⟨none, '/' :: '*' :: (body ++ ['*', '/']), cs ++ behind, body.contains '\n'⟩ := by
      simp [readPiece, isGap, hclosed, Piece.ofReading, Except.map]
    simp only [List.cons_append, List.append_assoc]
    rw [tokensFrom_gap hpiece rfl, ih]
    simp [Nat.add_assoc, Bool.or_assoc]

/-- A name starts with no digit. -/
theorem not_isDigit_of_isNameStart {c : Char} (h : isNameStart c = true) : c.isDigit = false := by
  simp only [isNameStart, isAlpha_iff, Bool.or_eq_true, beq_iff_eq, decide_eq_true_eq, ge_iff_le,
    UInt32.le_iff_toNat_le] at h
  simp only [Char.isDigit, Bool.and_eq_false_iff, decide_eq_false_iff_not, ge_iff_le, UInt32.le_iff_toNat_le]
  have hmarks : '0'.val.toNat = 48 ∧ '9'.val.toNat = 57 ∧ 'A'.val.toNat = 65 ∧ 'a'.val.toNat = 97 ∧
      UInt32.toNat 128 = 128 := by decide
  rcases h with ((h | rfl) | rfl) | h
  · omega
  · decide
  · decide
  · omega

/-- A mark in front of a text is spelled out in front of it. -/
theorem getElem?_of_isPrefixOf {p : String} {cs : List Char} (h : p.toList.isPrefixOf cs = true) {i : Nat}
    (hi : i < p.toList.length) : p.toList[i]? = cs[i]? := by
  obtain ⟨rest, rfl⟩ := List.isPrefixOf_iff_prefix.1 h
  exact (List.getElem?_append_left hi).symm

/-- **A lexeme is read as one piece.** -/
theorem IsLexeme.readPiece {behind text : List Char} {kind : TokenKind} (h : IsLexeme behind kind text) (pos : Nat)
    (previous : Option Token) : ∃ c cs, text = c :: cs ∧
      readPiece pos previous c (cs ++ behind) = .ok ⟨some kind, text, behind, false⟩ := by
  cases h with
  | @name c cs hc hcs hend =>
    refine ⟨c, cs, rfl, ?_⟩
    obtain ⟨htake, hdrop⟩ := takeWhile_append_of_head? hcs hend
    have hne : ∀ d, isNameStart d = false → (c == d) = false := by
      intro d hd
      rw [beq_eq_false_iff_ne]
      rintro rfl
      rw [hc] at hd
      cases hd
    have hgap : isGap c = false := by
      simp [isGap, hne ' ' (by decide), hne '\t' (by decide), hne '\r' (by decide), hne '\x0b' (by decide),
        hne '\x0c' (by decide)]
    simp only [Script.readPiece, hne '\n' (by decide), hgap, hne '/' (by decide), hne '"' (by decide),
      hne '\'' (by decide), hne '`' (by decide), hne '.' (by decide), not_isDigit_of_isNameStart hc, hc, htake, hdrop,
      Bool.false_and, Bool.or_self, Bool.false_eq_true, if_false, if_true]
  | @string quote body hquote hbody =>
    refine ⟨quote, body ++ [quote], rfl, ?_⟩
    have hslash : quote ≠ '\\' := by rcases hquote with rfl | rfl <;> decide
    have hbreak : quote ≠ '\n' := by rcases hquote with rfl | rfl <;> decide
    have hread := hbody.readString_append hslash hbreak behind
    have hpiece : Script.readPiece pos previous quote (body ++ quote :: behind) =
        Piece.ofReading (some .string) [quote] .unterminatedString pos (readString quote (body ++ quote :: behind)) := by
      rcases hquote with rfl | rfl <;> rfl
    rw [List.append_assoc, List.singleton_append, hpiece, hread]
    rfl
  | @mark c hc =>
    refine ⟨c, [], rfl, ?_⟩
    have hpunct : Script.readPiece pos previous c behind =
        .ok ⟨some .punct, (readPunctuator c behind).1, (readPunctuator c behind).2, false⟩ := by
      simp only [loneMarks, List.mem_cons, List.not_mem_nil, or_false] at hc
      rcases hc with rfl | rfl | rfl | rfl <;> rfl
    have halone : longPunctuators.find? (·.toList.isPrefixOf (c :: behind)) = none := by
      have hfirst : ∀ p ∈ longPunctuators, 0 < p.toList.length ∧ p.toList[0]? ∉ loneMarks.map some := by decide
      refine List.find?_eq_none.2 fun p hp hprefix => ?_
      obtain ⟨hlength, hne⟩ := hfirst p hp
      exact hne (getElem?_of_isPrefixOf hprefix hlength ▸ List.mem_map_of_mem hc)
    rw [List.nil_append, hpunct, readPunctuator, halone]
  | star hend =>
    refine ⟨'*', [], rfl, ?_⟩
    have hpunct : Script.readPiece pos previous '*' behind =
        .ok ⟨some .punct, (readPunctuator '*' behind).1, (readPunctuator '*' behind).2, false⟩ := rfl
    have halone : longPunctuators.find? (·.toList.isPrefixOf ('*' :: behind)) = none := by
      have hsecond : ∀ p ∈ longPunctuators, p.toList[0]? = some '*' →
          1 < p.toList.length ∧ (p.toList[1]? = some '*' ∨ p.toList[1]? = some '=') := by decide
      have hlong : ∀ p ∈ longPunctuators, 0 < p.toList.length := by decide
      refine List.find?_eq_none.2 fun p hp hprefix => ?_
      obtain ⟨hlength, hmark⟩ := hsecond p hp (getElem?_of_isPrefixOf hprefix (hlong p hp))
      rw [getElem?_of_isPrefixOf hprefix hlength, List.getElem?_cons_succ, ← List.head?_eq_getElem?] at hmark
      rcases hmark with hmark | hmark
      · exact (hend _ hmark).1 rfl
      · exact (hend _ hmark).2 rfl
    rw [List.nil_append, hpunct, readPunctuator, halone]

/-! ## 3. What is written is read -/

theorem tokensFrom_of_written {broken : Bool} {pos : Nat} {cs : List Char} {ts : List Token}
    (h : Written broken pos cs ts) (previous : Option Token) : tokensFrom pos previous broken cs = .ok ts := by
  induction h generalizing previous with
  | @last broken pos gap hgap =>
    have hread := hgap.tokensFrom pos previous broken
    rw [List.append_nil] at hread
    rw [hread]
    unfold Script.tokensFrom
    rfl
  | @token broken pos gap rest t ts hgap hlexeme hspan hbreak _ ih =>
    obtain ⟨c, cs, htext, hpiece⟩ := hlexeme.readPiece (pos + byteLength gap) previous
    rw [hgap.tokensFrom, htext, List.cons_append, tokensFrom_token hpiece rfl rfl hspan (by simp [hbreak]), ih]
    rfl

/-! ## 4. What is read is written -/

/-- The tokens that lexemes are: names, strings, and the marks of lists. -/
def IsPlain (kind : TokenKind) (text : List Char) : Prop :=
  kind = .ident ∨ kind = .string ∨ kind = .punct ∧ (text = ['*'] ∨ text ∈ loneMarks.map fun c => [c])

instance (kind : TokenKind) (text : List Char) : Decidable (IsPlain kind text) :=
  inferInstanceAs (Decidable (_ ∨ _ ∨ _ ∧ (_ ∨ _)))

/-- A star that is read alone is no part of a longer mark. -/
theorem star_alone {cs : List Char} (h : (readPunctuator '*' cs).1 = ['*']) :
    (readPunctuator '*' cs).2 = cs ∧ ∀ d ∈ cs.head?, d ≠ '*' ∧ d ≠ '=' := by
  unfold readPunctuator at h ⊢
  split at h
  next p hfind =>
    have hprefix := List.find?_some hfind
    have hlong : ∀ p ∈ longPunctuators, 2 ≤ p.length := by decide
    have hlength := hlong p (List.mem_of_find?_eq_some hfind)
    have hle := (List.isPrefixOf_iff_prefix.1 hprefix).length_le
    have htake := congrArg List.length h
    simp only [List.length_cons, List.length_take, List.length_nil, String.length_toList] at hle htake
    omega
  next hnone =>
    refine ⟨rfl, ?_⟩
    rintro d hd
    obtain ⟨more, rfl⟩ : ∃ more, cs = d :: more := by
      cases cs with
      | nil => cases hd
      | cons e more =>
        cases hd
        exact ⟨more, rfl⟩
    rw [List.find?_eq_none] at hnone
    constructor
    · rintro rfl
      exact hnone "**" (by decide) rfl
    · rintro rfl
      exact hnone "*=" (by decide) rfl

theorem isLexeme_of_readPiece {pos : Nat} {previous : Option Token} {c : Char} {cs : List Char} {piece : Piece}
    (h : readPiece pos previous c cs = .ok piece) {kind : TokenKind} (hkind : piece.kind = some kind)
    (hplain : IsPlain kind piece.taken) : IsLexeme piece.rest kind piece.taken ∧ piece.sawBreak = false := by
  have hother : kind = .template ∨ kind = .number ∨ kind = .regExp → False := by
    rintro (rfl | rfl | rfl) <;> simp [IsPlain] at hplain
  unfold readPiece at h
  split at h
  · cases h
    cases hkind
  split at h
  · cases h
    cases hkind
  split at h
  · cases h
    cases hkind
  split at h
  · obtain ⟨q, hq, rfl⟩ := map_eq_ok.1 h
    obtain ⟨-, rfl⟩ := Piece.eq_of_ofReading hq
    cases hkind
  split at h
  · obtain ⟨-, rfl⟩ := Piece.eq_of_ofReading h
    cases hkind
    exact absurd (.inr (.inr rfl)) hother
  split at h
  next hquote =>
    obtain ⟨hclosed, rfl⟩ := Piece.eq_of_ofReading h
    cases hkind
    obtain ⟨body, hbody, htaken⟩ := StringText.of_readString hclosed
    rw [htaken]
    exact ⟨.string (by simpa using hquote) hbody, rfl⟩
  split at h
  · obtain ⟨r, -, rfl⟩ := map_eq_ok.1 h
    cases hkind
    exact absurd (.inl rfl) hother
  split at h
  · cases h
    cases hkind
    exact absurd (.inr (.inl rfl)) hother
  split at h
  next hname =>
    cases h
    cases hkind
    refine ⟨.name hname (fun d hd => ?_) fun d hd => ?_, rfl⟩
    · have hall : (cs.takeWhile isNamePart).all isNamePart = true := List.all_takeWhile
      exact List.all_eq_true.1 hall d hd
    · have hstop := List.head?_dropWhile_not isNamePart cs
      rw [Option.mem_def.1 hd] at hstop
      simpa using hstop
  · cases h
    cases hkind
    obtain hmark | hmark | ⟨-, hmark⟩ := hplain
    · cases hmark
    · cases hmark
    obtain ⟨tail, htail, -⟩ := readPunctuator_append c cs
    show IsLexeme (readPunctuator c cs).2 .punct (readPunctuator c cs).1 ∧ false = false
    have hmark : (readPunctuator c cs).1 = ['*'] ∨ (readPunctuator c cs).1 ∈ loneMarks.map fun c => [c] := hmark
    rw [List.mem_map] at hmark
    rcases hmark with hstar | ⟨d, hd, hone⟩
    · obtain ⟨rfl, -⟩ := List.cons.inj (htail.symm.trans hstar)
      obtain ⟨hrest, hend⟩ := star_alone hstar
      rw [hstar, hrest]
      exact ⟨.star hend, rfl⟩
    · rw [← hone]
      exact ⟨.mark hd, rfl⟩

/-- A gap that is longer in front. -/
theorem Written.prepend {broken : Bool} {pos : Nat} {piece : Piece} {ts : List Token} (hpiece : piece.PassesGap)
    (h : Written (broken || piece.sawBreak) (pos + byteLength piece.taken) piece.rest ts) :
    Written broken pos (piece.taken ++ piece.rest) ts := by
  obtain ⟨kind, taken, rest, sawBreak⟩ := piece
  have hbreak : sawBreak = taken.contains '\n' := by
    rw [Bool.eq_iff_iff, hpiece.sawBreak]
    simp
  cases h with
  | last hgap => exact .last (hpiece.isGap rest [] (by simp) hgap)
  | @token _ _ gap rest t ts hgap hlexeme hspan hmark hrest =>
    show Written broken pos (taken ++ (gap ++ (t.text.toList ++ rest))) _
    rw [← List.append_assoc]
    refine .token (hpiece.isGap gap _ rfl hgap) hlexeme ?_ ?_ hrest
    · rw [hspan, byteLength_append, Nat.add_assoc]
    · rw [hmark, hbreak, Bool.or_assoc]
      simp

theorem written_of_tokensFrom {pos : Nat} {previous : Option Token} {broken : Bool} {cs : List Char}
    {ts : List Token} (h : tokensFrom pos previous broken cs = .ok ts)
    (hplain : ∀ t ∈ ts, IsPlain t.kind t.text.toList) : Written broken pos cs ts := by
  fun_induction tokensFrom pos previous broken cs generalizing ts with
  | case1 =>
    cases h
    exact .last .nil
  | case2 => cases h
  | case3 pos previous broken c cs piece hread _ stop _ hkind =>
    rename_i ih
    have hsound := readPiece_sound hread
    rw [Piece.Sound, hkind] at hsound
    rw [← readPiece_split hread]
    exact Written.prepend hsound (ih h hplain)
  | case4 pos previous broken c cs piece hread _ stop marked kind hkind token =>
    rename_i ih
    obtain ⟨more, hmore, rfl⟩ := map_eq_ok.1 h
    obtain ⟨hfirst, hrest⟩ := List.forall_mem_cons.1 hplain
    obtain ⟨hlexeme, hbreak⟩ := isLexeme_of_readPiece hread hkind (by simpa [token] using hfirst)
    have hwritten : Written broken pos ([] ++ (token.text.toList ++ piece.rest)) (token :: more) :=
      .token .nil (by simpa [token] using hlexeme) (by simp [token, stop]) (by simp [token, marked, hbreak])
        (ih hmore hrest)
    simpa [token, readPiece_split hread] using hwritten

/-- **Reading and writing.**  Names, strings and the marks of lists are read exactly where they are written. -/
theorem tokenize_iff_written {source : String} {ts : List Token} (hplain : ∀ t ∈ ts, IsPlain t.kind t.text.toList) :
    tokenize source = .ok ts ↔ IsWritten source ts :=
  ⟨fun h => written_of_tokensFrom h hplain, fun h => tokensFrom_of_written h none⟩

end ComponentLens.Script
