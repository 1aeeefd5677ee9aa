/-
# Texts that differ in logic blocks

The split of a file must not be misled by what stands in a logic block: it reads no comment, tag or quote there.
Two texts that agree except in the contents of logic blocks of both have the same blocks at the same places
(`writtenBlocks_alike`), and are the same component but for these contents (`Component.split_alike`).

The texts are scanned side by side.  What one step passes in the first text is the same in the second
(`AgreeButLogic.lockstep`): the scan looks no further than it passes, and nothing that it passes outside of logic
contents differs.  Only the body of a logic block is read over text that may differ.  There the closing tag carries
the argument: the one of the first body stands in the second text, too, so the second body is not longer
(`byteLength_content_le_of_agree`), and by symmetry both are of one length (`readBody_agree`).
-/
import Mathlib.Data.List.Forall2
import ComponentLens.Proofs.Component.Passed
import ComponentLens.Proofs.Component.Regions
import ComponentLens.Proofs.Virtual.Blanking

namespace ComponentLens

/-! ## 1. Common parts of texts -/

/-- A place where a character starts is a place between characters. -/
theorem isBoundary_of_firstByte {cs : List Char} {n : Nat} {b : UInt8} (h : (utf8 cs)[n]? = some b)
    (hb : b.IsUTF8FirstByte) : IsBoundary cs n := by
  induction cs generalizing n with
  | nil => simp [utf8] at h
  | cons c cs ih =>
    have hcons : utf8 (c :: cs) = String.utf8EncodeChar c ++ utf8 cs := rfl
    rw [hcons] at h
    by_cases hlt : n < c.utf8Size
    · have hlt' : n < (String.utf8EncodeChar c).length := by rwa [String.length_utf8EncodeChar]
      rw [List.getElem?_append_left hlt', List.getElem?_eq_getElem hlt'] at h
      obtain rfl := Option.some.inj h
      obtain rfl := UInt8.isUTF8FirstByte_getElem_utf8EncodeChar.1 hb
      exact isBoundary_zero _
    · have hle := Nat.le_of_not_lt hlt
      rw [List.getElem?_append_right (by rwa [String.length_utf8EncodeChar]), String.length_utf8EncodeChar] at h
      have hrest := (ih h).append_right [c]
      simpa [Nat.add_sub_cancel' hle] using hrest

theorem prefix_of_utf8_prefix {xs ys : List Char} {bytes : List UInt8} (h : utf8 ys = utf8 xs ++ bytes) :
    xs <+: ys := by
  refine List.isPrefix_of_utf8Encode_append_eq_utf8Encode bytes.toByteArray ?_
  have hbytes := congrArg List.toByteArray h
  rw [List.toByteArray_append] at hbytes
  exact hbytes.symm

namespace AgreeOutside

variable {erased : Nat → Prop} {start : Nat} {xs ys before after : List Char}

theorem symm (h : AgreeOutside erased start xs ys) : AgreeOutside erased start ys xs :=
  ⟨h.1.symm, fun i hi => (h.2 i hi).symm⟩

/-- What is given up in front of the texts does not matter. -/
theorem mono_from {more : Nat → Prop} (h : AgreeOutside erased start xs ys)
    (hmore : ∀ n, start ≤ n → erased n → more n) : AgreeOutside more start xs ys :=
  ⟨h.1, fun i hi => h.2 i fun herased => hi (hmore _ (Nat.le_add_right _ _) herased)⟩

/-- What follows parts of one length agrees as the texts do. -/
theorem behind {xs' ys' : List Char} (h : AgreeOutside erased start (xs ++ xs') (ys ++ ys'))
    (hlength : byteLength xs = byteLength ys) : AgreeOutside erased (start + byteLength xs) xs' ys' := by
  have hrest : byteLength xs' = byteLength ys' := by
    have := h.1
    simp only [byteLength_append] at this
    omega
  exact @AgreeOutside.inside erased start xs' ys' xs ys [] [] (by simpa using h) hlength hrest

/-- A start of the one text at which nothing is given up is a start of the other. -/
theorem exists_append (h : AgreeOutside erased start (xs ++ after) ys)
    (hkept : ∀ n, start ≤ n → erased n → start + byteLength xs ≤ n) :
    ∃ after', ys = xs ++ after' ∧ AgreeOutside erased (start + byteLength xs) after after' := by
  have hbytes : utf8 ys = utf8 xs ++ (utf8 ys).drop (byteLength xs) := by
    have htake : (utf8 ys).take (byteLength xs) = utf8 xs := by
      refine List.ext_getElem? fun i => ?_
      rw [List.getElem?_take]
      split
      next hlt =>
        have hat := h.2 i fun herased => by
          have := hkept _ (Nat.le_add_right _ _) herased
          omega
        rw [← hat, utf8_append, List.getElem?_append_left (by rwa [length_utf8])]
      next hge => rw [List.getElem?_eq_none (by rw [length_utf8]; omega)]
    rw [← htake, List.take_append_drop]
  obtain ⟨after', rfl⟩ := prefix_of_utf8_prefix hbytes
  exact ⟨after', rfl, h.behind rfl⟩

/-- A part of the one text at which nothing is given up stands at the same place of the other. -/
theorem exists_part (h : AgreeOutside erased start (before ++ (xs ++ after)) ys) (hxs : xs ≠ [])
    (hkept : ∀ n, start + byteLength before ≤ n → erased n → start + byteLength before + byteLength xs ≤ n) :
    ∃ before' after', ys = before' ++ (xs ++ after') ∧ byteLength before' = byteLength before ∧
      byteLength after' = byteLength after := by
  obtain ⟨c, more, rfl⟩ := List.exists_cons_of_ne_nil hxs
  have hpos : 0 < (String.utf8EncodeChar c).length := by
    rw [String.length_utf8EncodeChar]
    exact c.utf8Size_pos
  -- the first byte of a character marks the place in the other text, too
  have hfirst : (utf8 ys)[byteLength before]? = some (String.utf8EncodeChar c)[0] := by
    have hroom : 0 < byteLength (c :: more) := Nat.lt_of_lt_of_le c.utf8Size_pos (Nat.le_add_right _ _)
    have hat := h.2 (byteLength before) fun herased => by
      have := hkept _ (Nat.le_refl _) herased
      omega
    have hcons : utf8 (c :: more) = String.utf8EncodeChar c ++ utf8 more := rfl
    have hinside := getElem?_utf8_inside before (c :: more) after hroom
    rw [Nat.add_zero] at hinside
    rw [← hat, hinside, hcons, List.getElem?_append_left hpos, List.getElem?_eq_getElem hpos]
  obtain ⟨before', rest, rfl, hbefore⟩ :=
    isBoundary_of_firstByte hfirst UInt8.isUTF8FirstByte_getElem_zero_utf8EncodeChar
  have hrest := h.behind hbefore.symm
  obtain ⟨after', rfl, hafter⟩ := hrest.exists_append hkept
  exact ⟨before', after', rfl, hbefore, hafter.1.symm⟩

end AgreeOutside

/-! ## 2. Bodies that hold no blocks of their own name -/

/-- A closing tag of the name stands in front. -/
def Closes (tag cs : List Char) : Prop :=
  ∃ text, cs = '<' :: text ∧ text.head? = some '/' ∧ isTagAt tag text.tail = true

/-- Whether a closing tag stands in front shows in a text that is longer than the tag. -/
theorem Closes.congr {tag xs ys : List Char} (h : Closes tag (xs ++ ys)) (hlength : tag.length + 3 ≤ xs.length)
    (zs : List Char) : Closes tag (xs ++ zs) := by
  obtain ⟨text, htext, hhead, htag⟩ := h
  cases xs with
  | nil => simp at hlength
  | cons x xs =>
    obtain ⟨rfl, rfl⟩ := List.cons.inj htext
    have htests := @tests_congr tag _ (Nat.le_of_succ_le_succ hlength : tag.length + 2 ≤ xs.length) ys zs
    exact ⟨xs ++ zs, rfl, htests.1 ▸ hhead, htests.2.1 ▸ htag⟩

theorem readBody_of_closes {tag cs : List Char} (h : Closes tag cs) :
    (readBody false tag 0 cs).content = [] ∧ (readBody false tag 0 cs).isClosed = true ∧
      (readBody false tag 0 cs).closing ≠ [] := by
  obtain ⟨text, rfl, hhead, htag⟩ := h
  rw [readBody_at_closing false hhead htag]
  exact ⟨rfl, rfl, List.cons_ne_nil _ _⟩

theorem readBody_of_not_closes {tag cs : List Char} {c : Char} (h : ¬Closes tag (c :: cs)) :
    readBody false tag 0 (c :: cs) = (readBody false tag 0 cs).prepend [c] := by
  have hcloses : ¬(c == '<' && cs.head? == some '/' && isTagAt tag cs.tail) = true := by
    simp only [Bool.and_eq_true, beq_iff_eq]
    rintro ⟨⟨rfl, hhead⟩, htag⟩
    exact h ⟨cs, rfl, hhead, htag⟩
  rw [readBody, if_neg hcloses, if_neg (by simp)]

/-- The content ends at a closing tag, or in front of it. -/
theorem byteLength_content_le {tag rest : List Char} (h : Closes tag rest) (before : List Char) :
    byteLength (readBody false tag 0 (before ++ rest)).content ≤ byteLength before := by
  induction before with
  | nil =>
    rw [List.nil_append, (readBody_of_closes h).1]
  | cons c before ih =>
    by_cases hcloses : Closes tag (c :: (before ++ rest))
    · rw [List.cons_append, (readBody_of_closes hcloses).1]
      exact Nat.zero_le _
    · rw [List.cons_append, readBody_of_not_closes hcloses]
      exact Nat.add_le_add_left ih _

/-- Behind the content stands the closing tag, and what follows it, or nothing. -/
theorem readBody_behind_content (tag cs : List Char) :
    readBody false tag 0 ((readBody false tag 0 cs).closing ++ (readBody false tag 0 cs).rest) =
        { readBody false tag 0 cs with content := [] } ∧
      if (readBody false tag 0 cs).isClosed then
        Closes tag ((readBody false tag 0 cs).closing ++ (readBody false tag 0 cs).rest)
      else (readBody false tag 0 cs).closing = [] ∧ (readBody false tag 0 cs).rest = [] := by
  induction cs with
  | nil => simp [readBody]
  | cons c cs ih =>
    by_cases hcloses : Closes tag (c :: cs)
    · obtain ⟨hcontent, hclosed, -⟩ := readBody_of_closes hcloses
      have happ := readBody_append false tag 0 (c :: cs)
      rw [hcontent, List.nil_append] at happ
      rw [happ, if_pos hclosed]
      refine ⟨?_, hcloses⟩
      generalize readBody false tag 0 (c :: cs) = body at hcontent
      obtain ⟨content, closing, rest, isClosed⟩ := body
      obtain rfl : content = [] := hcontent
      rfl
    · rw [readBody_of_not_closes hcloses]
      exact ih

/-- Offsets that are given up lie in the content of a body that starts at `start`, or behind its closing tag. -/
def BodyReading.Keeps (body : BodyReading) (start : Nat) (erased : Nat → Prop) : Prop :=
  ∀ n, start ≤ n → erased n → n < start + byteLength body.content ∨
    start + byteLength body.content + byteLength body.closing ≤ n

section

variable {tag xs ys : List Char} {erased : Nat → Prop} {start : Nat}

/-- The closing tag of the one body stands in the other text, too. -/
theorem exists_closing (h : AgreeOutside erased start xs ys)
    (hclosed : (readBody false tag 0 xs).isClosed = true) (hkeeps : (readBody false tag 0 xs).Keeps start erased) :
    ∃ before after, ys = before ++ ((readBody false tag 0 xs).closing ++ after) ∧
      byteLength before = byteLength (readBody false tag 0 xs).content ∧
      byteLength after = byteLength (readBody false tag 0 xs).rest ∧
      Closes tag ((readBody false tag 0 xs).closing ++ after) := by
  have happ := readBody_append false tag 0 xs
  obtain ⟨hbehind, hcloses⟩ := readBody_behind_content tag xs
  have hlength := @readBody_closing_length false tag xs 0
  rw [if_pos hclosed] at hcloses
  have hne := (readBody_of_closes hcloses).2.2
  rw [hbehind] at hne
  generalize readBody false tag 0 xs = body at *
  subst happ
  obtain ⟨before, after, hys, hbefore, hafter⟩ := h.exists_part hne fun n hn herased => by
    have := hkeeps n (by omega) herased
    omega
  refine ⟨before, after, hys, hbefore, hafter, ?_⟩
  by_cases hrest : body.rest = []
  · obtain rfl : after = [] := eq_nil_of_byteLength_eq_zero (by rw [hafter, hrest]; rfl)
    rwa [hrest] at hcloses
  · exact hcloses.congr (hlength hrest) after

/-- No content is longer than the other. -/
theorem byteLength_content_le_of_agree (h : AgreeOutside erased start xs ys)
    (hkeeps : (readBody false tag 0 xs).Keeps start erased) :
    byteLength (readBody false tag 0 ys).content ≤ byteLength (readBody false tag 0 xs).content := by
  cases hclosed : (readBody false tag 0 xs).isClosed with
  | true =>
    obtain ⟨before, after, rfl, hbefore, -, hcloses⟩ := exists_closing h hclosed hkeeps
    rw [← hbefore]
    exact byteLength_content_le hcloses before
  | false =>
    have hopen := (readBody_behind_content tag xs).2
    have hxs := congrArg byteLength (readBody_append false tag 0 xs)
    have hys := congrArg byteLength (readBody_append false tag 0 ys)
    rw [if_neg (by simp [hclosed])] at hopen
    simp only [byteLength_append, hopen.1, hopen.2, byteLength_nil, Nat.add_zero] at hxs hys
    have := h.1
    omega

/-- A closing tag is read again in front of other text, if nothing is left behind it in either. -/
theorem readBody_closing_again {cs after : List Char}
    (hafter : byteLength after = byteLength (readBody false tag 0 cs).rest) :
    readBody false tag 0 ((readBody false tag 0 cs).closing ++ after) =
      { readBody false tag 0 cs with content := [], rest := after } := by
  have hbehind := (readBody_behind_content tag cs).1
  generalize readBody false tag 0 cs = body at *
  by_cases hrest : body.rest = []
  · obtain rfl : after = [] := eq_nil_of_byteLength_eq_zero (by rw [hafter, hrest]; rfl)
    simpa [hrest] using hbehind
  · have hagain := @readBody_passed false tag (body.closing ++ body.rest) 0 (by rwa [hbehind]) after
    rw [hbehind] at hagain
    exact hagain

/-- **Bodies of texts that agree around them** end at the same place with the same closing tag. -/
theorem readBody_agree (h : AgreeOutside erased start xs ys)
    (hxs : (readBody false tag 0 xs).Keeps start erased) (hys : (readBody false tag 0 ys).Keeps start erased) :
    byteLength (readBody false tag 0 xs).content = byteLength (readBody false tag 0 ys).content ∧
      (readBody false tag 0 xs).closing = (readBody false tag 0 ys).closing ∧
      (readBody false tag 0 xs).isClosed = (readBody false tag 0 ys).isClosed := by
  have hcontent := Nat.le_antisymm (byteLength_content_le_of_agree h.symm hys)
    (byteLength_content_le_of_agree h hxs)
  have happ := readBody_append false tag 0 ys
  obtain ⟨hbehind, hend⟩ := readBody_behind_content tag ys
  refine ⟨hcontent, ?_⟩
  cases hclosed : (readBody false tag 0 xs).isClosed with
  | true =>
    obtain ⟨before, after, htext, hbefore, hafter, -⟩ := exists_closing h hclosed hxs
    obtain ⟨inside, hinside, hrest⟩ := exists_append_of_byteLength_le (happ.trans htext)
      (by rw [hbefore, hcontent])
    have hnil : inside = [] := by
      refine eq_nil_of_byteLength_eq_zero ?_
      have hlength := congrArg byteLength hinside
      rw [byteLength_append] at hlength
      omega
    rw [hnil, List.nil_append] at hrest
    rw [hrest, readBody_closing_again hafter] at hbehind
    have hclosing := congrArg BodyReading.closing hbehind
    have hisClosed := congrArg BodyReading.isClosed hbehind
    exact ⟨hclosing, hclosed.symm.trans hisClosed⟩
  | false =>
    have hopen := (readBody_behind_content tag xs).2
    rw [if_neg (by simp [hclosed])] at hopen
    have hlength := congrArg byteLength (readBody_append false tag 0 xs)
    have hlength' := congrArg byteLength happ
    simp only [byteLength_append, hopen.1, hopen.2, byteLength_nil, Nat.add_zero] at hlength hlength'
    have hnil : (readBody false tag 0 ys).closing = [] := by
      refine eq_nil_of_byteLength_eq_zero ?_
      have := h.1
      omega
    refine ⟨hopen.1.trans hnil.symm, ?_⟩
    cases hclosed' : (readBody false tag 0 ys).isClosed with
    | false => rfl
    | true =>
      rw [if_pos hclosed'] at hend
      have hne := (readBody_of_closes hend).2.2
      rw [hbehind] at hne
      exact absurd hnil hne

end

/-! ## 3. Texts that differ in logic blocks -/

/-- The offset lies in the content of a logic block. -/
def InLogic (ws : List WrittenBlock) (n : Nat) : Prop :=
  ∃ w ∈ ws, w.block.tag = "script" ∧ Virtual.InSpan w.block.span n

/-- From offset `pos` on, the texts agree except in the contents of logic blocks of both. -/
def AgreeButLogic (pos : Nat) (as bs : List Char) : Prop :=
  AgreeOutside (fun n => InLogic (writtenBlocks pos as) n ∧ InLogic (writtenBlocks pos bs) n) pos as bs

/-- The blocks are written in the same way, except for the contents of logic blocks. -/
structure WrittenBlock.Alike (v w : WrittenBlock) : Prop where
  tagSpan : v.tagSpan = w.tagSpan
  isClosed : v.isClosed = w.isClosed
  tag : v.block.tag = w.block.tag
  span : v.block.span = w.block.span
  attrs : v.block.attrs = w.block.attrs
  content : v.block.tag ≠ "script" → v.block.content = w.block.content

theorem WrittenBlock.Alike.refl (w : WrittenBlock) : w.Alike w := ⟨rfl, rfl, rfl, rfl, rfl, fun _ => rfl⟩

theorem InLogic.lt {pos n : Nat} {cs : List Char} (h : InLogic (writtenBlocks pos cs) n) : pos < n := by
  obtain ⟨w, hw, -, hn⟩ := h
  exact Nat.lt_of_lt_of_le ((writtenBlocks_pairwise pos cs).1 w hw).start hn.1

/-- Behind the content of the first block only the others count. -/
theorem InLogic.of_cons {w : WrittenBlock} {ws : List WrittenBlock} {n : Nat} (h : InLogic (w :: ws) n)
    (hle : w.block.span.stop ≤ n) : InLogic ws n := by
  obtain ⟨v, hv, htag, hn⟩ := h
  rcases List.mem_cons.1 hv with rfl | hv
  · exact absurd hn.2 (Nat.not_lt.2 hle)
  · exact ⟨v, hv, htag, hn⟩

/-- Whether the block is a logic block whose content stands at the span. -/
def WrittenBlock.isLogicAt (span : Span) (w : WrittenBlock) : Bool :=
  w.block.tag == "script" && w.block.span == span

theorem InLogic.of_isLogicAt {ws : List WrittenBlock} {span : Span} {n : Nat}
    (h : ws.any (·.isLogicAt span) = true) (hn : Virtual.InSpan span n) : InLogic ws n := by
  obtain ⟨w, hw, hwritten⟩ := List.any_eq_true.1 h
  simp only [WrittenBlock.isLogicAt, Bool.and_eq_true, beq_iff_eq] at hwritten
  exact ⟨w, hw, hwritten.1, hwritten.2 ▸ hn⟩

theorem AgreeButLogic.symm {pos : Nat} {as bs : List Char} (h : AgreeButLogic pos as bs) : AgreeButLogic pos bs as :=
  (AgreeOutside.symm h).mono fun _ => And.symm

/-! ### The scan, step by step -/

theorem writtenBlocks_text {c : Char} (hc : c ≠ '<') (pos : Nat) (cs : List Char) :
    writtenBlocks pos (c :: cs) = writtenBlocks (pos + c.utf8Size) cs := by
  rw [writtenBlocks, if_neg (by simpa using hc)]

theorem writtenBlocks_comment (pos : Nat) (body : List Char) :
    writtenBlocks pos ("<!--".toList ++ body) =
      writtenBlocks (pos + 7 + byteLength (breakOn "-->".toList body).1)
        ((breakOn "-->".toList body).2.drop 3) := by
  have htext : "<!--".toList ++ body = '<' :: ("!--".toList ++ body) := rfl
  have hopens : ("!--".toList.isPrefixOf ("!--".toList ++ body)) = true :=
    List.isPrefixOf_iff_prefix.2 (List.prefix_append _ _)
  rw [htext, writtenBlocks, if_pos (beq_self_eq_true '<'), if_pos hopens]
  rfl

theorem writtenBlocks_some {pos stop : Nat} {cs rest : List Char} {w : WrittenBlock}
    (hcomment : ¬ "!--".toList <+: cs) (h : WrittenBlock.read? (pos + 1) cs = some (w, stop, rest)) :
    writtenBlocks pos ('<' :: cs) = w :: writtenBlocks stop rest := by
  rw [writtenBlocks, if_pos (beq_self_eq_true '<'), if_neg (by rwa [List.isPrefixOf_iff_prefix])]
  split
  next hread =>
    rw [h] at hread
    cases hread
    rfl
  next hread =>
    rw [h] at hread
    cases hread

theorem writtenBlocks_none {pos : Nat} {cs : List Char} (hcomment : ¬ "!--".toList <+: cs)
    (h : WrittenBlock.read? (pos + 1) cs = none) : writtenBlocks pos ('<' :: cs) = writtenBlocks (pos + 1) cs := by
  rw [writtenBlocks, if_pos (beq_self_eq_true '<'), if_neg (by rwa [List.isPrefixOf_iff_prefix])]
  split
  next hread =>
    rw [h] at hread
    cases hread
  next => rfl

theorem BodyReading.Keeps.mono {body : BodyReading} {start : Nat} {erased fewer : Nat → Prop}
    (h : body.Keeps start erased) (hfewer : ∀ n, fewer n → erased n) : body.Keeps start fewer :=
  fun n hn herased => h n hn (hfewer n herased)

/-- Logic contents lie in the content of the first block or behind its closing tag. -/
theorem BodyReading.keeps_inLogic {body : BodyReading} {start : Nat} {v : WrittenBlock}
    (hstop : v.block.span.stop = start + byteLength body.content) :
    body.Keeps start (InLogic (v :: writtenBlocks
      (start + byteLength body.content + byteLength body.closing) body.rest)) := by
  rintro n _ ⟨u, hu, htag, hn⟩
  rcases List.mem_cons.1 hu with rfl | hu
  · exact .inl (hstop ▸ hn.2)
  · exact .inr (Nat.le_of_lt (InLogic.lt ⟨u, hu, htag, hn⟩))

theorem WrittenBlock.ofHead_selfClosing {head : HeadReading} (h : head.passed.getLast? == some '/') (pos : Nat)
    (name : List Char) (start : Nat) (cs : List Char) :
    WrittenBlock.ofHead pos name head start cs =
      let tag := String.ofList (name.map Char.toLower)
      (⟨⟨tag, "", .empty start, head.attrs⟩, ⟨pos, pos + name.length⟩, true⟩, start, cs) := by
  rw [WrittenBlock.ofHead]
  simp only [h, if_true]

theorem WrittenBlock.ofHead_body {head : HeadReading} (h : ¬(head.passed.getLast? == some '/') = true) (pos : Nat)
    (name : List Char) (start : Nat) (cs : List Char) :
    WrittenBlock.ofHead pos name head start cs =
      let tag := String.ofList (name.map Char.toLower)
      let body := readBody (tag == "template") name 0 cs
      let stop := start + byteLength body.content
      (⟨⟨tag, String.ofList body.content, ⟨start, stop⟩, head.attrs⟩, ⟨pos, pos + name.length⟩, body.isClosed⟩,
        stop + byteLength body.closing, body.rest) := by
  rw [WrittenBlock.ofHead]
  simp only [h]
  rfl

section

variable {pos start stop stop' : Nat} {name xs ys rest rest' : List Char} {head : HeadReading} {v w : WrittenBlock}

/-- Logic blocks behind one opening tag have contents of one length, and the same closing tag. -/
theorem ofHead_alike_logic (hself : ¬(head.passed.getLast? == some '/') = true)
    (htag : String.ofList (name.map Char.toLower) = "script")
    (hv : WrittenBlock.ofHead pos name head start xs = (v, stop, rest))
    (hw : WrittenBlock.ofHead pos name head start ys = (w, stop', rest'))
    (h : AgreeOutside (fun n => InLogic (v :: writtenBlocks stop rest) n ∧ InLogic (w :: writtenBlocks stop' rest') n)
      start xs ys) :
    v.Alike w ∧ stop = stop' ∧ AgreeButLogic stop rest rest' := by
  have hnests : (String.ofList (name.map Char.toLower) == "template") = false := by
    rw [htag]
    decide
  rw [WrittenBlock.ofHead_body hself] at hv hw
  simp only [hnests] at hv hw
  cases hv
  cases hw
  obtain ⟨hcontent, hclosing, hclosed⟩ := readBody_agree h
    ((BodyReading.keeps_inLogic rfl).mono fun _ => And.left)
    ((BodyReading.keeps_inLogic rfl).mono fun _ => And.right)
  have hxs := readBody_append false name 0 xs
  have hys := readBody_append false name 0 ys
  generalize readBody false name 0 xs = body at *
  generalize readBody false name 0 ys = body' at *
  subst hxs hys
  have hstop : start + byteLength body'.content + byteLength body'.closing =
      start + byteLength body.content + byteLength body.closing := by rw [hcontent, hclosing]
  rw [← List.append_assoc, ← List.append_assoc, hstop] at h
  have hrest := h.behind (by rw [byteLength_append, byteLength_append, hcontent, hclosing])
  rw [byteLength_append, ← Nat.add_assoc] at hrest
  refine ⟨⟨rfl, hclosed, rfl, ?_, rfl, fun hne => absurd htag hne⟩, hstop.symm, ?_⟩
  · simp only [hcontent]
  · refine hrest.mono_from fun n hn hlogic => ⟨hlogic.1.of_cons ?_, hlogic.2.of_cons ?_⟩
    · show start + byteLength body.content ≤ n
      omega
    · show start + byteLength body'.content ≤ n
      omega

/-- Where nothing is left behind the first of two other blocks, the texts are the same. -/
theorem ofHead_alike_last (hv : WrittenBlock.ofHead pos name head start xs = (v, stop, []))
    (hw : WrittenBlock.ofHead pos name head start ys = (w, stop', rest'))
    (h : AgreeOutside (InLogic []) start xs ys) :
    v.Alike w ∧ stop = stop' ∧ AgreeButLogic stop [] rest' := by
  rw [← List.append_nil xs] at h
  obtain ⟨after, rfl, hafter⟩ := h.exists_append fun n _ hlogic => by
    obtain ⟨u, hu, -⟩ := hlogic
    cases hu
  obtain rfl : after = [] := eq_nil_of_byteLength_eq_zero hafter.1.symm
  rw [List.append_nil, hv] at hw
  cases hw
  exact ⟨.refl _, rfl, .refl _⟩

/-- Other blocks behind one opening tag are the same. -/
theorem ofHead_alike_other (hself : ¬(head.passed.getLast? == some '/') = true)
    (htag : String.ofList (name.map Char.toLower) ≠ "script")
    (hv : WrittenBlock.ofHead pos name head start xs = (v, stop, rest))
    (hw : WrittenBlock.ofHead pos name head start ys = (w, stop', rest'))
    (h : AgreeOutside (fun n => InLogic (v :: writtenBlocks stop rest) n ∧ InLogic (w :: writtenBlocks stop' rest') n)
      start xs ys) :
    v.Alike w ∧ stop = stop' ∧ AgreeButLogic stop rest rest' := by
  have hlater : ∀ n, InLogic (v :: writtenBlocks stop rest) n → InLogic (writtenBlocks stop rest) n := by
    rintro n ⟨u, hu, hlogic, hn⟩
    rcases List.mem_cons.1 hu with rfl | hu
    · rw [WrittenBlock.ofHead_body hself] at hv
      cases hv
      exact absurd hlogic htag
    · exact ⟨u, hu, hlogic, hn⟩
  by_cases hrest : rest = []
  · subst hrest
    refine ofHead_alike_last hv hw (h.mono fun n hlogic => ?_)
    have hnone := hlater n hlogic.1
    rwa [writtenBlocks] at hnone
  rw [WrittenBlock.ofHead_body hself] at hv hw
  have hxs := readBody_append (String.ofList (name.map Char.toLower) == "template") name 0 xs
  have hagain := @readBody_passed (String.ofList (name.map Char.toLower) == "template") name xs 0
  dsimp only at hv hw
  generalize readBody (String.ofList (name.map Char.toLower) == "template") name 0 xs = body at hv hxs hagain
  cases hv
  subst hxs
  rw [← List.append_assoc] at h
  obtain ⟨after, rfl, hafter⟩ := h.exists_append fun n _ hlogic => by
    have hlt := (hlater n hlogic.1).lt
    rw [byteLength_append]
    omega
  simp only [List.append_assoc, hagain hrest after] at hw
  cases hw
  rw [byteLength_append, ← Nat.add_assoc] at hafter
  refine ⟨.refl _, rfl, hafter.mono_from fun n hn hlogic => ⟨hlater n hlogic.1, hlogic.2.of_cons ?_⟩⟩
  show start + byteLength body.content ≤ n
  omega

/-- **Blocks behind one opening tag.**  Where the texts behind the tag agree except in logic contents, the blocks
are written in the same way, end at the same place, and what follows them agrees again. -/
theorem ofHead_alike (hv : WrittenBlock.ofHead pos name head start xs = (v, stop, rest))
    (hw : WrittenBlock.ofHead pos name head start ys = (w, stop', rest'))
    (h : AgreeOutside (fun n => InLogic (v :: writtenBlocks stop rest) n ∧ InLogic (w :: writtenBlocks stop' rest') n)
      start xs ys) :
    v.Alike w ∧ stop = stop' ∧ AgreeButLogic stop rest rest' := by
  by_cases hself : (head.passed.getLast? == some '/') = true
  · rw [WrittenBlock.ofHead_selfClosing hself] at hv hw
    cases hv
    cases hw
    exact ⟨.refl _, rfl, h.mono_from fun n hn hlogic => ⟨hlogic.1.of_cons hn, hlogic.2.of_cons hn⟩⟩
  by_cases htag : String.ofList (name.map Char.toLower) = "script"
  · exact ofHead_alike_logic hself htag hv hw h
  · exact ofHead_alike_other hself htag hv hw h

end

/-- A comment that starts in the one text starts in the other. -/
theorem AgreeButLogic.comment {pos : Nat} {as bs : List Char} (h : AgreeButLogic pos ('<' :: as) ('<' :: bs))
    (hcomment : "!--".toList <+: as) : "!--".toList <+: bs := by
  obtain ⟨body, rfl⟩ := hcomment
  have hlater : ∀ n, InLogic (writtenBlocks pos ('<' :: ("!--".toList ++ body))) n → pos + 4 ≤ n := by
    intro n hn
    have hwritten := writtenBlocks_comment pos body
    have hn : InLogic (writtenBlocks pos ("<!--".toList ++ body)) n := hn
    rw [hwritten] at hn
    have := hn.lt
    omega
  obtain ⟨body', hbs, -⟩ := @AgreeOutside.exists_append _ pos "<!--".toList _ body h fun n _ hlogic =>
    hlater n hlogic.1
  exact ⟨body', (List.cons.inj hbs).2.symm⟩

/-- A block that is opened in the one text is opened in the other, by the same tag. -/
theorem AgreeButLogic.opening {pos : Nat} {as bs : List Char} (h : AgreeButLogic pos ('<' :: as) ('<' :: bs))
    (hcomment : ¬ "!--".toList <+: as) {r : WrittenBlock × Nat × List Char}
    (hread : WrittenBlock.read? (pos + 1) as = some r) :
    ∃ opening name head xs ys, as = opening ++ xs ∧ bs = opening ++ ys ∧
      (∀ other, WrittenBlock.read? (pos + 1) (opening ++ other) =
        some (WrittenBlock.ofHead (pos + 1) name head (pos + 1 + byteLength opening) other)) ∧
      AgreeOutside (fun n => InLogic (writtenBlocks pos ('<' :: as)) n ∧ InLogic (writtenBlocks pos ('<' :: bs)) n)
        (pos + 1 + byteLength opening) xs ys := by
  obtain ⟨opening, name, head, xs, rfl, hagain⟩ := WrittenBlock.read?_passed hread
  obtain ⟨w, stop, rest, hhead⟩ :
      ∃ w stop rest, WrittenBlock.ofHead (pos + 1) name head (pos + 1 + byteLength opening) xs = (w, stop, rest) :=
    ⟨_, _, _, rfl⟩
  have hplace := WrittenBlock.ofHead_place (pos + 1) name head (pos + 1 + byteLength opening) xs
  have hwritten := writtenBlocks_some hcomment ((hagain xs).trans (congrArg some hhead))
  rw [hhead] at hplace
  dsimp only at hplace
  obtain ⟨-, hstart, hle, hstop⟩ := hplace
  have hlater : ∀ n, InLogic (writtenBlocks pos ('<' :: (opening ++ xs))) n →
      pos + byteLength ('<' :: opening) ≤ n := by
    intro n hn
    have hlt : '<'.utf8Size = 1 := rfl
    rw [hwritten] at hn
    obtain ⟨u, hu, htag, hn⟩ := hn
    simp only [byteLength_cons, hlt]
    rcases List.mem_cons.1 hu with rfl | hu
    · have := hn.1
      omega
    · have := InLogic.lt ⟨u, hu, htag, hn⟩
      omega
  obtain ⟨ys, hbs, hagree⟩ := @AgreeOutside.exists_append _ pos ('<' :: opening) _ xs h fun n _ hlogic =>
    hlater n hlogic.1
  refine ⟨opening, name, head, xs, ys, rfl, (List.cons.inj hbs).2, hagain, ?_⟩
  have hlt : '<'.utf8Size = 1 := rfl
  simpa only [byteLength_cons, hlt, Nat.add_assoc] using hagree

/-- What one step of the scan does to two texts: it reaches the end of what they have in common, passes the same
text in both, or finds a block in both. -/
inductive Lockstep (pos : Nat) (as bs : List Char) : Prop where
  | same (eq : as = bs)
  | passed {pos' : Nat} {as' bs' : List Char} (shorter : as'.length < as.length)
    (first : writtenBlocks pos as = writtenBlocks pos' as')
    (second : writtenBlocks pos bs = writtenBlocks pos' bs') (agree : AgreeButLogic pos' as' bs')
  | block {v w : WrittenBlock} {stop : Nat} {as' bs' : List Char} (shorter : as'.length < as.length)
    (first : writtenBlocks pos as = v :: writtenBlocks stop as')
    (second : writtenBlocks pos bs = w :: writtenBlocks stop bs') (alike : v.Alike w)
    (agree : AgreeButLogic stop as' bs')

/-- Texts without logic contents that agree are the same. -/
theorem AgreeButLogic.eq_of_nil {pos : Nat} {as bs : List Char} (h : AgreeButLogic pos as bs)
    (hnil : writtenBlocks pos as = []) : as = bs := by
  obtain ⟨after, rfl, hafter⟩ := @AgreeOutside.exists_append _ pos as bs [] (by rwa [List.append_nil])
    fun n _ hlogic => by
      obtain ⟨u, hu, -⟩ := hlogic.1
      rw [hnil] at hu
      cases hu
  rw [eq_nil_of_byteLength_eq_zero hafter.1.symm, List.append_nil]

/-- What the scan passes in both texts without finding a block. -/
theorem AgreeButLogic.lockstep_passed {pos : Nat} {xs as bs : List Char} (hxs : xs ≠ [])
    (h : AgreeButLogic pos (xs ++ as) bs)
    (first : writtenBlocks pos (xs ++ as) = writtenBlocks (pos + byteLength xs) as)
    (second : ∀ bs', bs = xs ++ bs' → writtenBlocks pos (xs ++ bs') = writtenBlocks (pos + byteLength xs) bs') :
    Lockstep pos (xs ++ as) bs := by
  obtain ⟨bs', rfl, hagree⟩ := AgreeOutside.exists_append h fun n _ herased => by
    have hlogic := herased.1
    rw [first] at hlogic
    exact Nat.le_of_lt hlogic.lt
  rw [first, second bs' rfl] at hagree
  refine .passed ?_ first (second bs' rfl) hagree
  have := List.length_pos_iff.2 hxs
  rw [List.length_append]
  omega

/-- A comment is passed in both texts. -/
theorem AgreeButLogic.lockstep_comment {pos : Nat} {body bs : List Char}
    (h : AgreeButLogic pos ("<!--".toList ++ body) bs) : Lockstep pos ("<!--".toList ++ body) bs := by
  have hwritten := writtenBlocks_comment pos body
  by_cases hopen : (breakOn "-->".toList body).2 = []
  · refine .same (h.eq_of_nil ?_)
    rw [hwritten, hopen, List.drop_nil, writtenBlocks]
  · obtain ⟨rest, hrest⟩ := (breakOn_snd "-->".toList body).resolve_left hopen
    have hbody := breakOn_append "-->".toList body
    rw [← hrest] at hbody
    have hagain := breakOn_passed (by decide) hopen
    generalize (breakOn "-->".toList body).1 = comment at hbody hagain
    subst hbody
    have hsize : byteLength ("<!--".toList ++ (comment ++ "-->".toList)) = 7 + byteLength comment := by
      have hopening : byteLength "<!--".toList = 4 := rfl
      have hclosing : byteLength "-->".toList = 3 := rfl
      simp only [byteLength_append, hopening, hclosing]
      omega
    have hpassed (other : List Char) :
        writtenBlocks pos ("<!--".toList ++ (comment ++ "-->".toList) ++ other) =
          writtenBlocks (pos + byteLength ("<!--".toList ++ (comment ++ "-->".toList))) other := by
      rw [List.append_assoc, List.append_assoc, writtenBlocks_comment, hagain other, hsize, ← Nat.add_assoc]
      rfl
    have hcomment : "<!--".toList ++ (comment ++ ("-->".toList ++ rest)) =
        "<!--".toList ++ (comment ++ "-->".toList) ++ rest := by
      rw [List.append_assoc, List.append_assoc]
    rw [hcomment] at h ⊢
    exact h.lockstep_passed (by simp) (hpassed rest) fun bs' _ => hpassed bs'

/-- A block is found in both texts, if it is found in one. -/
theorem AgreeButLogic.lockstep_block {pos : Nat} {as bs : List Char} (h : AgreeButLogic pos ('<' :: as) ('<' :: bs))
    (has : ¬ "!--".toList <+: as) (hbs : ¬ "!--".toList <+: bs) {r : WrittenBlock × Nat × List Char}
    (hread : WrittenBlock.read? (pos + 1) as = some r) : Lockstep pos ('<' :: as) ('<' :: bs) := by
  obtain ⟨opening, name, head, xs, ys, rfl, rfl, hagain, hagree⟩ := h.opening has hread
  obtain ⟨v, stop, rest, hv⟩ :
      ∃ v stop rest, WrittenBlock.ofHead (pos + 1) name head (pos + 1 + byteLength opening) xs = (v, stop, rest) :=
    ⟨_, _, _, rfl⟩
  obtain ⟨w, stop', rest', hw⟩ :
      ∃ w stop rest, WrittenBlock.ofHead (pos + 1) name head (pos + 1 + byteLength opening) ys = (w, stop, rest) :=
    ⟨_, _, _, rfl⟩
  have hfirst := writtenBlocks_some has ((hagain xs).trans (congrArg some hv))
  have hsecond := writtenBlocks_some hbs ((hagain ys).trans (congrArg some hw))
  rw [hfirst, hsecond] at hagree
  obtain ⟨halike, rfl, hrest⟩ := ofHead_alike hv hw hagree
  have hshorter := WrittenBlock.read?_length_lt ((hagain xs).trans (congrArg some hv))
  exact .block (Nat.lt_succ_of_lt hshorter) hfirst hsecond halike hrest

/-- **One step** of the scan does the same to texts that agree except in logic contents. -/
theorem AgreeButLogic.lockstep {pos : Nat} {as bs : List Char} (h : AgreeButLogic pos as bs) :
    Lockstep pos as bs := by
  cases as with
  | nil => exact .same (eq_nil_of_byteLength_eq_zero h.1.symm).symm
  | cons c as =>
    by_cases hc : c = '<'
    · subst hc
      have hlt : '<'.utf8Size = 1 := rfl
      obtain ⟨bs', rfl, -⟩ := @AgreeOutside.exists_append _ pos ['<'] bs as h fun n _ hlogic => by
        have := hlogic.1.lt
        simp only [byteLength_cons, hlt, byteLength_nil]
        omega
      by_cases hcomment : "!--".toList <+: as
      · obtain ⟨body, rfl⟩ := hcomment
        exact lockstep_comment h
      · have hcomment' : ¬ "!--".toList <+: bs' := fun hbs => hcomment (h.symm.comment hbs)
        cases hread : WrittenBlock.read? (pos + 1) as with
        | some r => exact h.lockstep_block hcomment hcomment' hread
        | none =>
          have hread' : WrittenBlock.read? (pos + 1) bs' = none := by
            cases hread' : WrittenBlock.read? (pos + 1) bs' with
            | none => rfl
            | some r =>
              obtain ⟨opening, name, head, xs, ys, -, rfl, hagain, -⟩ := h.symm.opening hcomment' hread'
              rw [hagain] at hread
              cases hread
          have hfirst := writtenBlocks_none hcomment hread
          have hsecond := writtenBlocks_none hcomment' hread'
          refine @AgreeButLogic.lockstep_passed pos ['<'] as _ (by simp) h hfirst fun bs hbs => ?_
          obtain rfl : bs' = bs := (List.cons.inj hbs).2
          exact hsecond
    · exact @AgreeButLogic.lockstep_passed pos [c] as bs (by simp) h (writtenBlocks_text hc pos as)
        fun bs' _ => writtenBlocks_text hc pos bs'

/-- **The blocks of texts that agree except in logic contents** are written in the same way. -/
theorem writtenBlocks_alike {pos : Nat} {as bs : List Char} (h : AgreeButLogic pos as bs) :
    List.Forall₂ WrittenBlock.Alike (writtenBlocks pos as) (writtenBlocks pos bs) := by
  induction hn : as.length using Nat.strongRecOn generalizing pos as bs with
  | ind n ih =>
    subst hn
    cases h.lockstep with
    | same heq =>
      subst heq
      exact List.forall₂_same.2 fun w _ => .refl w
    | passed hshorter hfirst hsecond hagree =>
      rw [hfirst, hsecond]
      exact ih _ hshorter hagree rfl
    | block hshorter hfirst hsecond halike hagree =>
      rw [hfirst, hsecond]
      exact .cons halike (ih _ hshorter hagree rfl)

/-! ## 4. Components -/

theorem WrittenBlock.Alike.isSetup {v w : WrittenBlock} (h : v.Alike w) : v.block.isSetup = w.block.isSetup := by
  rw [Block.isSetup, Block.attr?, h.attrs]
  rfl

theorem WrittenBlock.Alike.block {v w : WrittenBlock} (h : v.Alike w) (htag : v.block.tag ≠ "script") :
    v.block = w.block := by
  obtain ⟨⟨tag, content, span, attrs⟩, tagSpan, isClosed⟩ := v
  obtain ⟨⟨tag', content', span', attrs'⟩, tagSpan', isClosed'⟩ := w
  obtain ⟨rfl, rfl, rfl, rfl, rfl, hcontent⟩ := h
  obtain rfl := hcontent htag
  rfl

/-- The components are the same, except for what their logic blocks are. -/
structure Component.Alike (c d : Component) : Prop where
  template : c.template = d.template
  script : c.script.isSome = d.script.isSome
  scriptSetup : c.scriptSetup.isSome = d.scriptSetup.isSome
  styles : c.styles = d.styles
  customBlocks : c.customBlocks = d.customBlocks
  faults : c.faults = d.faults

namespace Component.Alike

variable {c d : Component} {v w : WrittenBlock}

theorem noteEnd (h : c.Alike d) (hvw : v.Alike w) : (c.noteEnd v).Alike (d.noteEnd w) := by
  rw [Component.noteEnd, Component.noteEnd, ← hvw.isClosed, ← hvw.tag, ← hvw.tagSpan]
  split
  · exact h
  · exact { h with faults := congrArg (· ++ _) h.faults }

theorem insert (h : c.Alike d) (hvw : v.Alike w) : (c.insert v).Alike (d.insert w) := by
  obtain ⟨template, script, setup, styles, customBlocks, faults⟩ := c
  obtain ⟨_, script', setup', _, _, _⟩ := d
  obtain ⟨rfl, hscript, hsetup, rfl, rfl, rfl⟩ := h
  simp only at hscript hsetup
  unfold Component.insert
  by_cases htag : v.block.tag = "script"
  · simp only [← hvw.tag, ← hvw.isSetup, ← hvw.tagSpan, ← hscript, ← hsetup, htag]
    split
    · split
      · exact ⟨rfl, hscript, hsetup, rfl, rfl, rfl⟩
      · exact ⟨rfl, hscript, rfl, rfl, rfl, rfl⟩
    · split
      · exact ⟨rfl, hscript, hsetup, rfl, rfl, rfl⟩
      · exact ⟨rfl, rfl, hsetup, rfl, rfl, rfl⟩
  · rw [← hvw.block htag, ← hvw.tagSpan]
    split
    · split
      all_goals exact ⟨rfl, hscript, hsetup, rfl, rfl, rfl⟩
    next hne => exact absurd hne htag
    all_goals exact ⟨rfl, hscript, hsetup, rfl, rfl, rfl⟩

theorem foldl {vs ws : List WrittenBlock} (h : c.Alike d) (hvws : List.Forall₂ WrittenBlock.Alike vs ws) :
    (vs.foldl (fun c w => (c.noteEnd w).insert w) c).Alike (ws.foldl (fun c w => (c.noteEnd w).insert w) d) := by
  induction hvws generalizing c d with
  | nil => exact h
  | cons hvw _ ih => exact ih ((h.noteEnd hvw).insert hvw)

end Component.Alike

/-- **Components of texts that agree except in logic contents** differ in nothing but these contents. -/
theorem Component.split_alike {a b : String} (h : AgreeButLogic 0 a.toList b.toList) :
    (Component.split a).Alike (Component.split b) :=
  Component.Alike.foldl ⟨rfl, rfl, rfl, rfl, rfl, rfl⟩ (writtenBlocks_alike h)

end ComponentLens
