/-
# Readers look no further than they pass

The readers of a component file return what they passed and what is left.  As long as something is left, what they
passed decides what they read: behind the same passed text they read the same, whatever follows
(`breakOn_passed`, `readHead_passed`, `WrittenBlock.read?_passed`, `readBody_passed`).

For the body of a block this takes a look at its closing tag.  The tag is at least as long as what is looked at to
find it, so no reader looks behind it (`readBody_closing_length`).
-/
import ComponentLens.Proofs.Component.Writing

namespace ComponentLens

/-! ## 1. Searches -/

/-- A search that finds its needle finds it again, whatever stands behind. -/
theorem breakOn_passed {needle cs : List Char} (hneedle : needle ≠ []) (h : (breakOn needle cs).2 ≠ [])
    (other : List Char) :
    breakOn needle ((breakOn needle cs).1 ++ (needle ++ other)) = ((breakOn needle cs).1, needle ++ other) := by
  induction cs with
  | nil => simp [breakOn] at h
  | cons c cs ih =>
    rw [breakOn] at h ⊢
    split
    next hfound =>
      obtain ⟨d, needle, rfl⟩ := List.exists_cons_of_ne_nil hneedle
      simp [breakOn]
    next hfound =>
      rw [if_neg hfound] at h
      have hrest : (breakOn needle cs).2 ≠ [] := h
      -- a needle in front of the one found would end in what was passed
      have hearlier : ¬ needle <+: c :: ((breakOn needle cs).1 ++ (needle ++ other)) := by
        intro hprefix
        have hpassed : c :: ((breakOn needle cs).1 ++ needle) <+: c :: ((breakOn needle cs).1 ++ (needle ++ other)) :=
          ⟨other, by simp⟩
        have hshort : needle <+: c :: ((breakOn needle cs).1 ++ needle) :=
          List.prefix_of_prefix_length_le hprefix hpassed (by simp; omega)
        obtain ⟨after, hafter⟩ := (breakOn_snd needle cs).resolve_left hrest
        have hwhole : c :: ((breakOn needle cs).1 ++ needle) <+: c :: cs :=
          ⟨after, by simp [hafter, breakOn_append]⟩
        exact hfound (List.isPrefixOf_iff_prefix.2 (hshort.trans hwhole))
      rw [List.cons_append, breakOn, if_neg (by rwa [List.isPrefixOf_iff_prefix]), ih hrest]

theorem cutAfter_passed {stop : Char} {cs : List Char} (h : (cutAfter stop cs).2 ≠ []) (other : List Char) :
    cutAfter stop ((cutAfter stop cs).1 ++ other) = ((cutAfter stop cs).1, other) := by
  induction cs with
  | nil => simp [cutAfter] at h
  | cons c cs ih =>
    rw [cutAfter] at h ⊢
    split at h
    next hc => simp [cutAfter, hc]
    next hc =>
      rw [if_neg hc]
      simp [cutAfter, hc, ih h]

/-- A search that goes on ends with the character that it looked for. -/
theorem cutAfter_ne_nil {stop : Char} {cs : List Char} (h : (cutAfter stop cs).2 ≠ []) :
    (cutAfter stop cs).1 ≠ [] := by
  cases cs with
  | nil => simp [cutAfter] at h
  | cons c cs =>
    rw [cutAfter]
    split
    · simp
    · simp

/-! ## 2. Attributes -/

/-- The characters up to one that stops are followed by anything that starts alike. -/
theorem takeWhile_passed {p : Char → Bool} {cs other : List Char} (hother : other.head? = (cs.dropWhile p).head?) :
    (cs.takeWhile p ++ other).takeWhile p = cs.takeWhile p ∧ (cs.takeWhile p ++ other).dropWhile p = other := by
  refine takeWhile_append_of_head? (fun c hc => List.mem_takeWhile_imp hc) fun c hc => ?_
  rw [hother] at hc
  have hstop := List.head?_dropWhile_not p cs
  rw [Option.mem_def.1 hc] at hstop
  exact hstop

theorem head?_append_congr (xs : List Char) {ys zs : List Char} (h : ys.head? = zs.head?) :
    (xs ++ ys).head? = (xs ++ zs).head? := by
  cases xs with
  | nil => exact h
  | cons x xs => rfl

theorem head?_append_cons (xs : List Char) (c : Char) (ys zs : List Char) :
    (xs ++ c :: ys).head? = (xs ++ c :: zs).head? := by
  cases xs with
  | nil => rfl
  | cons x xs => rfl

/-- A value in front of more text is read again, if what stands behind starts alike. -/
theorem readBareOrQuoted_passed {lead cs other : List Char} (hrest : (readBareOrQuoted lead cs).rest ≠ [])
    (hother : other.head? = (readBareOrQuoted lead cs).rest.head?) :
    readBareOrQuoted lead ((readBareOrQuoted lead cs).quote ++ ((readBareOrQuoted lead cs).value ++
      ((readBareOrQuoted lead cs).closing ++ other))) = { readBareOrQuoted lead cs with rest := other } := by
  cases cs with
  | nil => exact absurd rfl hrest
  | cons c cs =>
    by_cases hquote : (c == '"' || c == '\'') = true
    · simp only [readBareOrQuoted, if_pos hquote] at hrest ⊢
      cases hbehind : cs.dropWhile (· != c) with
      | nil => simp [hbehind] at hrest
      | cons d more =>
        have hstop := List.head?_dropWhile_not (· != c) cs
        rw [hbehind] at hstop
        obtain rfl : d = c := by simpa using hstop
        have hread := @takeWhile_passed (· != d) cs (d :: other) (by simp [hbehind])
        simp [hquote, hread.1, hread.2]
    · simp only [readBareOrQuoted, if_neg hquote] at hrest hother ⊢
      have hread := takeWhile_passed hother
      -- the value may be empty, and what follows starts alike then
      have hhead : ((c :: cs).takeWhile isBareValuePart ++ other).head? = some c := by
        rw [head?_append_congr _ hother, List.takeWhile_append_dropWhile]
        rfl
      obtain ⟨more, hmore⟩ := List.head?_eq_some_iff.1 hhead
      rw [hmore] at hread
      simp only [List.nil_append, hmore, if_neg hquote, hread.1, hread.2]

/-- The value with its quotes, and what is left. -/
theorem readBareOrQuoted_value (lead cs : List Char) :
    (readBareOrQuoted lead cs).quote ++ ((readBareOrQuoted lead cs).value ++
      ((readBareOrQuoted lead cs).closing ++ (readBareOrQuoted lead cs).rest)) = cs := by
  have happ := readBareOrQuoted_append lead cs
  rw [ValueReading.passed, readBareOrQuoted_lead] at happ
  simpa using happ

/-- A value in front of more text is read again, if what stands behind starts alike. -/
theorem readValue?_passed {cs other : List Char} {v : ValueReading} (h : readValue? cs = some v)
    (hrest : v.rest ≠ []) (hother : other.head? = v.rest.head?) :
    readValue? (v.passed ++ other) = some { v with rest := other } := by
  unfold readValue? at h
  split at h
  next after _ =>
    have hspace : ∀ c ∈ cs.takeWhile isTagSpace, isTagSpace c = true := fun c hc => List.mem_takeWhile_imp hc
    generalize cs.takeWhile isTagSpace = front at h hspace
    cases h
    have hlead := readBareOrQuoted_lead (front ++ '=' :: after.takeWhile isTagSpace) (after.dropWhile isTagSpace)
    have hvalue := readBareOrQuoted_value (front ++ '=' :: after.takeWhile isTagSpace) (after.dropWhile isTagSpace)
    have hagain := readBareOrQuoted_passed hrest hother
    generalize readBareOrQuoted _ (after.dropWhile isTagSpace) = v at hrest hother hlead hvalue hagain
    have hhead : (v.quote ++ (v.value ++ (v.closing ++ other))).head? = (after.dropWhile isTagSpace).head? := by
      rw [← hvalue]
      exact head?_append_congr _ (head?_append_congr _ (head?_append_congr _ hother))
    have hequals := Markup.takeWhile_append_of_stop hspace (by decide : isTagSpace '=' = false)
      (after.takeWhile isTagSpace ++ (v.quote ++ (v.value ++ (v.closing ++ other))))
    have hbehind := takeWhile_passed hhead
    have hpassed : v.passed ++ other = front ++ '=' :: (after.takeWhile isTagSpace ++
        (v.quote ++ (v.value ++ (v.closing ++ other)))) := by
      rw [ValueReading.passed, hlead]
      simp
    rw [hpassed, readValue?, hequals.2]
    simp only [hequals.1, hbehind.1, hbehind.2, hagain]
  · cases h

/-- Where no value follows, none follows if what stands behind the bracket changes. -/
theorem readValue?_eq_none_passed {xs rest : List Char} (h : readValue? (xs ++ '>' :: rest) = none)
    (other : List Char) : readValue? (xs ++ '>' :: other) = none := by
  have hdrop : ∀ ys, (xs ++ '>' :: ys).dropWhile isTagSpace = xs.dropWhile isTagSpace ++ '>' :: ys := by
    intro ys
    have hbracket : isTagSpace '>' = false := by decide
    rw [List.dropWhile_append]
    split
    next hempty => simp [List.isEmpty_iff.1 hempty, hbracket]
    next => rfl
  have hhead := head?_append_cons (xs.dropWhile isTagSpace) '>' other rest
  rw [← hdrop other, ← hdrop rest] at hhead
  unfold readValue? at h ⊢
  split
  next after hafter =>
    rw [hafter] at hhead
    obtain ⟨after', hafter'⟩ := List.head?_eq_some_iff.1 hhead.symm
    rw [hafter'] at h
    cases h
  · rfl

/-- **The attributes of a tag.**  A tag that is closed is read again, whatever stands behind its bracket. -/
theorem readHead_passed {pos : Nat} {cs rest : List Char} (h : (readHead pos cs).rest = '>' :: rest)
    (other : List Char) :
    readHead pos ((readHead pos cs).passed ++ '>' :: other) = { readHead pos cs with rest := '>' :: other } := by
  fun_induction readHead pos cs with
  | case1 => simp at h
  | case2 pos c cs hc => simp [readHead]
  | case3 pos c cs hclose hname name after _ v hv _ more ih =>
    have hparts : ∀ d ∈ name, isAttrNamePart d = true :=
      List.forall_mem_cons.2 ⟨hname, fun d hd => List.mem_takeWhile_imp hd⟩
    have hrest : v.rest = more.passed ++ '>' :: rest := by
      rw [← h]
      exact (readHead_append _ _).symm
    have halike : (more.passed ++ '>' :: other).head? = v.rest.head? := by
      rw [hrest]
      exact head?_append_cons _ _ _ _
    have hvalue := readValue?_passed hv (by simp [hrest]) halike
    have hafter : ∀ d ∈ (v.passed ++ (more.passed ++ '>' :: other)).head?, isAttrNamePart d = false := by
      intro d hd
      rw [head?_append_congr _ halike, readValue?_append hv] at hd
      have hstop := List.head?_dropWhile_not isAttrNamePart cs
      rw [Option.mem_def.1 hd] at hstop
      exact hstop
    have hmore : readHead (pos + byteLength name + byteLength v.passed) (more.passed ++ '>' :: other) =
      ⟨more.attrs, more.passed, '>' :: other⟩ := ih h
    have hwritten : name ++ (v.passed ++ more.passed) ++ '>' :: other =
        name ++ (v.passed ++ (more.passed ++ '>' :: other)) := by simp
    have hpassed : ValueReading.passed { v with rest := more.passed ++ '>' :: other } = v.passed := rfl
    rw [hwritten, readHead_name hparts (by simp [name]) hafter, hvalue]
    simp only [hpassed, hmore]
    rfl
  | case4 pos c cs hclose hname name after _ hv more ih =>
    have hparts : ∀ d ∈ name, isAttrNamePart d = true :=
      List.forall_mem_cons.2 ⟨hname, fun d hd => List.mem_takeWhile_imp hd⟩
    have hrest : after = more.passed ++ '>' :: rest := by
      rw [← h]
      exact (readHead_append _ _).symm
    rw [hrest] at hv
    have hvalue := readValue?_eq_none_passed hv other
    have hafter : ∀ d ∈ (more.passed ++ '>' :: other).head?, isAttrNamePart d = false := by
      intro d hd
      rw [head?_append_cons _ _ other rest, ← hrest] at hd
      have hstop := List.head?_dropWhile_not isAttrNamePart cs
      rw [Option.mem_def.1 hd] at hstop
      exact hstop
    have hmore : readHead (pos + byteLength name) (more.passed ++ '>' :: other) =
      ⟨more.attrs, more.passed, '>' :: other⟩ := ih h
    have hwritten : name ++ more.passed ++ '>' :: other = name ++ (more.passed ++ '>' :: other) := by simp
    rw [hwritten, readHead_name hparts (by simp [name]) hafter, hvalue]
    simp only [hmore]
  | case5 pos c cs hclose hname more ih =>
    have hmore : readHead (pos + c.utf8Size) (more.passed ++ '>' :: other) =
      ⟨more.attrs, more.passed, '>' :: other⟩ := ih h
    rw [List.cons_append, readHead, if_neg hclose, if_neg hname]
    simp only [hmore]

/-- **The opening tag of a block.**  A block that is opened is opened again, whatever stands behind the tag. -/
theorem WrittenBlock.read?_passed {pos : Nat} {cs : List Char} {r : WrittenBlock × Nat × List Char}
    (h : WrittenBlock.read? pos cs = some r) :
    ∃ opening name head after, cs = opening ++ after ∧ ∀ other, WrittenBlock.read? pos (opening ++ other) =
      some (WrittenBlock.ofHead pos name head (pos + byteLength opening) other) := by
  have hname := List.takeWhile_append_dropWhile (p := isTagNamePart) (l := cs)
  have hlen := byteLength_tagName cs
  unfold WrittenBlock.read? at h
  dsimp only at h
  split at h
  · cases h
  next c after hrest =>
    obtain rfl := readHead_rest hrest
    split at h
    next halpha =>
      have hhead := readHead_append (pos + (cs.takeWhile isTagNamePart).length) (cs.dropWhile isTagNamePart)
      have hagain := readHead_passed hrest
      have hpart := @takeWhile_passed isTagNamePart cs
      generalize hread : readHead (pos + (cs.takeWhile isTagNamePart).length) (cs.dropWhile isTagNamePart) = head
        at hhead hagain hrest
      rw [hrest] at hhead
      generalize cs.takeWhile isTagNamePart = name at *
      refine ⟨name ++ (head.passed ++ ['>']), name, head, after, ?_, fun other => ?_⟩
      · rw [← hname, ← hhead]
        simp
      · have hwritten : name ++ (head.passed ++ ['>']) ++ other = name ++ (head.passed ++ '>' :: other) := by simp
        have hgt : '>'.utf8Size = 1 := rfl
        have hstart : pos + byteLength (name ++ (head.passed ++ ['>'])) =
            pos + name.length + byteLength head.passed + 1 := by
          simp [hlen, hgt, Nat.add_assoc]
        have halike : (head.passed ++ '>' :: other).head? = (cs.dropWhile isTagNamePart).head? := by
          rw [← hhead]
          exact head?_append_cons _ _ _ _
        obtain ⟨htake, hdrop⟩ := hpart halike
        rw [hwritten, hstart, WrittenBlock.read?, htake, hdrop, hagain]
        simp only [halpha, if_true]
        rfl
    next => cases h

/-! ## 3. Bodies -/

theorem length_le_of_isTagAt {tag cs : List Char} (h : isTagAt tag cs = true) : tag.length ≤ cs.length := by
  simp only [isTagAt, startsWithWord, Bool.and_eq_true, beq_iff_eq] at h
  have hlength := congrArg List.length h.1
  simp only [List.length_map, List.length_take] at hlength
  omega

/-- Whether a tag stands in front shows in a text that is longer than its name. -/
theorem isTagAt_append {tag xs : List Char} (h : tag.length < xs.length) (ys : List Char) :
    isTagAt tag (xs ++ ys) = isTagAt tag xs := by
  have hdrop : xs.drop tag.length ≠ [] := by
    intro hnil
    have := congrArg List.length hnil
    simp at this
    omega
  obtain ⟨c, more, hmore⟩ := List.exists_cons_of_ne_nil hdrop
  simp only [isTagAt, startsWithWord, List.take_append_of_le_length (Nat.le_of_lt h),
    List.drop_append_of_le_length (Nat.le_of_lt h), hmore, List.cons_append, List.head?_cons]

/-- Whether the block ends, or another one starts, in front of a text shows in what is passed of it. -/
theorem tests_append {tag xs : List Char} (h : tag.length + 2 ≤ xs.length) (ys : List Char) :
    (xs ++ ys).head? = xs.head? ∧ isTagAt tag (xs ++ ys).tail = isTagAt tag xs.tail ∧
      isTagAt tag (xs ++ ys) = isTagAt tag xs := by
  cases xs with
  | nil => simp at h
  | cons x xs =>
    simp only [List.length_cons] at h
    exact ⟨rfl, isTagAt_append (by omega) ys, isTagAt_append (by simp; omega) ys⟩

/-- The text of a closing tag behind its `<`, and how long it is at least. -/
theorem closingTag_length {tag cs : List Char} (hcloses : cs.head? = some '/') (htag : isTagAt tag cs.tail = true)
    (hrest : (cutAfter '>' (cs.drop (tag.length + 1))).2 ≠ []) :
    (cs.take (tag.length + 1)).length = tag.length + 1 ∧
      tag.length + 2 ≤ (cs.take (tag.length + 1) ++ (cutAfter '>' (cs.drop (tag.length + 1))).1).length := by
  obtain ⟨more, rfl⟩ := List.head?_eq_some_iff.1 hcloses
  have hlength := length_le_of_isTagAt htag
  have hclose := List.length_pos_iff.2 (cutAfter_ne_nil hrest)
  simp only [List.tail_cons] at hlength
  simp only [List.length_append, List.length_take, List.length_cons]
  omega

/-- A closing tag with something behind it is cut off again, whatever stands there. -/
theorem closingTag_passed {tag cs : List Char} (hcloses : cs.head? = some '/') (htag : isTagAt tag cs.tail = true)
    (hrest : (cutAfter '>' (cs.drop (tag.length + 1))).2 ≠ []) (other : List Char) :
    let text := cs.take (tag.length + 1) ++ (cutAfter '>' (cs.drop (tag.length + 1))).1 ++ other
    text.head? = some '/' ∧ isTagAt tag text.tail = true ∧ text.take (tag.length + 1) = cs.take (tag.length + 1) ∧
      cutAfter '>' (text.drop (tag.length + 1)) = ((cutAfter '>' (cs.drop (tag.length + 1))).1, other) := by
  obtain ⟨hname, hlength⟩ := closingTag_length hcloses htag hrest
  have hcs : cs = cs.take (tag.length + 1) ++ (cutAfter '>' (cs.drop (tag.length + 1))).1 ++
      (cutAfter '>' (cs.drop (tag.length + 1))).2 := by
    rw [List.append_assoc, cutAfter_append, List.take_append_drop]
  have hcut := cutAfter_passed hrest other
  have htests := tests_append hlength (cutAfter '>' (cs.drop (tag.length + 1))).2
  have htests' := tests_append hlength other
  rw [← hcs] at htests
  refine ⟨?_, ?_, ?_, ?_⟩
  · rw [htests'.1, ← htests.1, hcloses]
  · rw [htests'.2.1, ← htests.2.1, htag]
  · rw [List.append_assoc, List.take_left' hname]
  · rw [List.append_assoc, List.drop_left' hname, hcut]

/-- A closing tag with something behind it is longer than what is looked at to find it. -/
theorem readBody_closing_length {nests : Bool} {tag cs : List Char} {depth : Nat}
    (h : (readBody nests tag depth cs).rest ≠ []) :
    tag.length + 3 ≤ (readBody nests tag depth cs).closing.length := by
  fun_induction readBody nests tag depth cs with
  | case1 => exact absurd rfl h
  | case2 c cs hcloses name close =>
    simp only [Bool.and_eq_true, beq_iff_eq] at hcloses
    have hlength := (closingTag_length hcloses.1.2 hcloses.2 h).2
    simp only [List.length_cons]
    exact Nat.succ_le_succ hlength
  | case3 c cs _ name close _ depth _ ih => exact ih h
  | case4 depth c cs _ _ name after head _ inner ih => exact ih h
  | case5 depth c cs _ _ ih => exact ih h

/-- The body of a block at a closing tag. -/
theorem readBody_at_closing (nests : Bool) {tag text : List Char} (hhead : text.head? = some '/')
    (htag : isTagAt tag text.tail = true) (depth : Nat) :
    readBody nests tag depth ('<' :: text) =
      match depth with
      | 0 => ⟨[], '<' :: (text.take (tag.length + 1) ++ (cutAfter '>' (text.drop (tag.length + 1))).1),
          (cutAfter '>' (text.drop (tag.length + 1))).2, true⟩
      | depth + 1 => (readBody nests tag depth (cutAfter '>' (text.drop (tag.length + 1))).2).prepend
          ('<' :: (text.take (tag.length + 1) ++ (cutAfter '>' (text.drop (tag.length + 1))).1)) := by
  have hcloses : ('<' == '<' && text.head? == some '/' && isTagAt tag text.tail) = true := by
    rw [hhead, htag]
    rfl
  rw [readBody.eq_def]
  simp only [if_pos hcloses]
  cases depth with
  | zero => rfl
  | succ depth => rfl

/-- What two texts with one long start have in common: both end the block, or none does, and both open another
one, or none does. -/
theorem tests_congr {tag xs : List Char} (h : tag.length + 2 ≤ xs.length) (ys zs : List Char) :
    (xs ++ ys).head? = (xs ++ zs).head? ∧ isTagAt tag (xs ++ ys).tail = isTagAt tag (xs ++ zs).tail ∧
      isTagAt tag (xs ++ ys) = isTagAt tag (xs ++ zs) := by
  have hys := tests_append h ys
  have hzs := tests_append h zs
  exact ⟨hys.1.trans hzs.1.symm, hys.2.1.trans hzs.2.1.symm, hys.2.2.trans hzs.2.2.symm⟩

/-- The opening tag of an inner block is read again in front of what was passed behind it. -/
theorem openingTag_passed {tag cs passed rest : List Char} (htag : isTagAt tag cs = true)
    (hread : (cs.drop tag.length).dropWhile (· != '>') = passed ++ rest) (hlength : tag.length + 2 ≤ passed.length)
    (other : List Char) :
    let text := cs.take tag.length ++ (cs.drop tag.length).takeWhile (· != '>') ++ passed ++ other
    text.head? = cs.head? ∧ isTagAt tag text.tail = isTagAt tag cs.tail ∧ isTagAt tag text = true ∧
      text.take tag.length = cs.take tag.length ∧
      (text.drop tag.length).takeWhile (· != '>') = (cs.drop tag.length).takeWhile (· != '>') ∧
      (text.drop tag.length).dropWhile (· != '>') = passed ++ other := by
  have hname : (cs.take tag.length).length = tag.length := by
    rw [List.length_take, Nat.min_eq_left (length_le_of_isTagAt htag)]
  have hcs : cs = cs.take tag.length ++ (cs.drop tag.length).takeWhile (· != '>') ++ passed ++ rest := by
    simp only [List.append_assoc, ← hread, List.takeWhile_append_dropWhile, List.take_append_drop]
  have hlong : tag.length + 2 ≤
      (cs.take tag.length ++ (cs.drop tag.length).takeWhile (· != '>') ++ passed).length := by
    rw [List.length_append]
    omega
  have htests := tests_congr hlong other rest
  rw [← hcs] at htests
  -- what is left of the tag starts with its bracket, or with what closes the block
  have halike : (passed ++ other).head? = ((cs.drop tag.length).dropWhile (· != '>')).head? := by
    obtain ⟨d, ds, rfl⟩ := List.exists_cons_of_ne_nil (l := passed) (by rintro rfl; simp at hlength)
    rw [hread]
    rfl
  obtain ⟨hhead, hdrop⟩ := takeWhile_passed halike
  refine ⟨htests.1, htests.2.1, htests.2.2.trans htag, ?_, ?_, ?_⟩
  · rw [List.append_assoc, List.append_assoc, List.take_left' hname]
  · rw [List.append_assoc, List.append_assoc, List.drop_left' hname, hhead]
  · rw [List.append_assoc, List.append_assoc, List.drop_left' hname, hdrop]

/-- **The body of a block.**  A body with something behind its closing tag is read again, whatever stands there. -/
theorem readBody_passed {nests : Bool} {tag cs : List Char} {depth : Nat}
    (h : (readBody nests tag depth cs).rest ≠ []) (other : List Char) :
    readBody nests tag depth ((readBody nests tag depth cs).content ++
      ((readBody nests tag depth cs).closing ++ other)) = { readBody nests tag depth cs with rest := other } := by
  fun_induction readBody nests tag depth cs with
  | case1 => exact absurd rfl h
  | case2 c cs hcloses name close =>
    simp only [Bool.and_eq_true, beq_iff_eq] at hcloses
    obtain ⟨⟨rfl, hslash⟩, hname⟩ := hcloses
    obtain ⟨hhead, htag, htake, hcut⟩ := closingTag_passed hslash hname h other
    simp only [List.nil_append, List.cons_append, name, close]
    rw [readBody_at_closing nests hhead htag, htake, hcut]
  | case3 c cs hcloses name close _ depth _ ih =>
    simp only [Bool.and_eq_true, beq_iff_eq] at hcloses
    obtain ⟨⟨rfl, hslash⟩, hname⟩ := hcloses
    have hinner : (readBody nests tag depth close.2).rest ≠ [] := h
    have hrest : close.2 ≠ [] := by
      intro hnil
      simp [hnil, readBody] at hinner
    have hagain := ih hinner
    generalize readBody nests tag depth close.2 = inner at hagain ⊢
    obtain ⟨hhead, htag, htake, hcut⟩ := closingTag_passed hslash hname hrest
      (inner.content ++ (inner.closing ++ other))
    have hwritten : '<' :: (name ++ close.1) ++ inner.content ++ (inner.closing ++ other) =
        '<' :: (name ++ close.1 ++ (inner.content ++ (inner.closing ++ other))) := by simp
    simp only [BodyReading.prepend, hwritten]
    rw [readBody_at_closing nests hhead htag, htake, hcut]
    simp only [hagain]
    rfl
  | case4 depth c cs hcloses hopens name after head _ inner ih =>
    simp only [Bool.and_eq_true, beq_iff_eq] at hopens
    obtain ⟨⟨hnests, rfl⟩, htag⟩ := hopens
    have hlength := readBody_closing_length h
    simp only [BodyReading.prepend] at h hlength ⊢
    have hagain := ih h
    have hread := readBody_append nests tag inner (after.dropWhile (· != '>'))
    generalize readBody nests tag inner (after.dropWhile (· != '>')) = more at h hlength hagain hread ⊢
    rw [← List.append_assoc] at hread
    obtain ⟨hfirst, hclosing, hopening, htake, hhead, hdrop⟩ := openingTag_passed htag hread.symm
      (by rw [List.length_append]; omega) other
    have hwritten : '<' :: (name ++ head) ++ more.content ++ (more.closing ++ other) =
        '<' :: (name ++ head ++ (more.content ++ more.closing) ++ other) := by simp
    simp only [hwritten, name, head, after]
    rw [readBody, if_neg (by rwa [hfirst, hclosing]), if_pos (by rw [hnests, hopening]; rfl)]
    simp only [htake, hhead, hdrop]
    rw [List.append_assoc]
    exact congrArg (BodyReading.prepend _) hagain
  | case5 depth c cs hcloses hopens ih =>
    have hlength := readBody_closing_length h
    simp only [BodyReading.prepend] at h hlength ⊢
    have hagain := ih h
    have hcs := readBody_append nests tag depth cs
    generalize readBody nests tag depth cs = inner at *
    have hxs : tag.length + 2 ≤ (inner.content ++ inner.closing).length := by
      rw [List.length_append]
      omega
    have htests := tests_congr hxs inner.rest other
    simp only [List.append_assoc] at htests
    rw [hcs] at htests
    rw [htests.1, htests.2.1] at hcloses
    rw [htests.2.2] at hopens
    have hwritten : [c] ++ inner.content ++ (inner.closing ++ other) =
        c :: (inner.content ++ (inner.closing ++ other)) := by simp
    rw [hwritten, readBody, if_neg hcloses, if_neg hopens, hagain]
    rfl

end ComponentLens
