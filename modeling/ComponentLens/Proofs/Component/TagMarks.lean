/-
# How the search for the end of a template sees tags

A template may hold templates, so the search for its end counts tags (`readBody`).  For the search a tag is one
mark, or none if it closes itself, and all that it keeps of the text behind is the depth (`depthAfter`).

The search does not know quotes.  It takes an inner tag to end at the first `>`, wherever that stands, and goes
on behind it (`seenMarks`).  So one tag may be seen as several, and one with a slash in front of a `>` as one
that closes itself.

Texts are read one after the other if each of them ends where the search starts anew (`ReadAs.append`).  Text
without `<` does, and so does everything that ends with a `>` (`Sealed`): the name of a tag holds no `>`, so
every test of the search is settled in front of the next one.
-/
import ComponentLens.Proofs.Component.Passed

namespace ComponentLens

/-! ## 1. Marks -/

/-- What a tag does to the depth. -/
inductive TagMark
  | opens
  | closes
  deriving DecidableEq, Repr

/-- The depth behind the marks, if none of them closes what is not open. -/
def depthAfter (depth : Nat) : List TagMark → Option Nat
  | [] => some depth
  | .opens :: ms => depthAfter (depth + 1) ms
  | .closes :: ms => if depth = 0 then none else depthAfter (depth - 1) ms

theorem depthAfter_append (depth : Nat) (ms ns : List TagMark) :
    depthAfter depth (ms ++ ns) = (depthAfter depth ms).bind (depthAfter · ns) := by
  induction ms generalizing depth with
  | nil => rfl
  | cons m ms ih =>
    cases m with
    | opens => exact ih (depth + 1)
    | closes =>
      rw [List.cons_append, depthAfter, depthAfter]
      split
      · rfl
      · exact ih (depth - 1)

/-- The marks that are seen in a text, each tag up to the first `>` behind its name. -/
def seenMarks (tag : List Char) : List Char → List TagMark
  | [] => []
  | c :: cs =>
    if c == '<' && cs.head? == some '/' && isTagAt tag cs.tail then
      have := length_cutAfter_snd_le '>' (cs.drop (tag.length + 1))
      .closes :: seenMarks tag (cutAfter '>' (cs.drop (tag.length + 1))).2
    else if c == '<' && isTagAt tag cs then
      let name := cs.take tag.length
      let after := cs.drop tag.length
      have := (List.dropWhile_sublist (l := after) (· != '>')).length_le
      (if (name ++ after.takeWhile (· != '>')).getLast? == some '/' then [] else [.opens]) ++
        seenMarks tag (after.dropWhile (· != '>'))
    else seenMarks tag cs
termination_by cs => cs.length
decreasing_by all_goals simp_all +zetaDelta <;> omega

/-! ## 2. Pieces of a body -/

/-- The search passes the text, and the marks are what it does to the depth.  If it finds the end of the body,
it finds it inside of the text. -/
structure ReadAs (tag cs : List Char) (ms : List TagMark) : Prop where
  passes : ∀ depth stop rest, depthAfter depth ms = some stop →
    readBody true tag depth (cs ++ rest) = (readBody true tag stop rest).prepend cs
  ends : ∀ depth rest, depthAfter depth ms = none →
    (readBody true tag depth (cs ++ rest)).content.length < cs.length

variable {tag : List Char}

theorem BodyReading.prepend_append (r : BodyReading) (xs ys : List Char) :
    r.prepend (xs ++ ys) = (r.prepend ys).prepend xs := by
  rw [BodyReading.prepend, List.append_assoc]
  rfl

theorem BodyReading.prepend_length (r : BodyReading) (xs : List Char) :
    (r.prepend xs).content.length = xs.length + r.content.length := List.length_append

/-- A text in front of one that is read, if it is passed there. -/
theorem ReadAs.of_front {xs ys : List Char} {ms ns : List TagMark} (hys : ReadAs tag ys ns)
    (hpasses : ∀ depth stop rest, depthAfter depth ms = some stop →
      readBody true tag depth (xs ++ ys ++ rest) = (readBody true tag stop (ys ++ rest)).prepend xs)
    (hends : ∀ depth rest, depthAfter depth ms = none →
      (readBody true tag depth (xs ++ ys ++ rest)).content.length < (xs ++ ys).length) :
    ReadAs tag (xs ++ ys) (ms ++ ns) where
  passes depth stop rest h := by
    rw [depthAfter_append] at h
    obtain ⟨middle, hmiddle, hstop⟩ := Option.bind_eq_some_iff.1 h
    rw [hpasses depth middle rest hmiddle, hys.passes middle stop rest hstop, BodyReading.prepend_append]
  ends depth rest h := by
    rw [depthAfter_append] at h
    cases hmiddle : depthAfter depth ms with
    | none => exact hends depth rest hmiddle
    | some middle =>
      rw [hmiddle, Option.bind_some] at h
      rw [hpasses depth middle rest hmiddle, BodyReading.prepend_length, List.length_append]
      exact Nat.add_lt_add_left (hys.ends middle rest h) _

/-- **Pieces are read one by one.** -/
theorem ReadAs.append {xs ys : List Char} {ms ns : List TagMark} (hxs : ReadAs tag xs ms)
    (hys : ReadAs tag ys ns) : ReadAs tag (xs ++ ys) (ms ++ ns) := by
  refine hys.of_front (fun depth stop rest h => ?_) (fun depth rest h => ?_)
  · rw [List.append_assoc, hxs.passes depth stop _ h]
  · rw [List.append_assoc, List.length_append]
    exact Nat.lt_add_right _ (hxs.ends depth _ h)

theorem ReadAs.nil : ReadAs tag [] [] where
  passes depth stop rest h := by
    cases h
    rfl
  ends depth rest h := by cases h

/-- A text without tags does nothing. -/
theorem ReadAs.of_text {cs : List Char} (h : '<' ∉ cs) : ReadAs tag cs [] := by
  have hpass : ∀ depth rest, readBody true tag depth (cs ++ rest) = (readBody true tag depth rest).prepend cs := by
    intro depth rest
    induction cs with
    | nil => rfl
    | cons c cs ih =>
      rw [List.mem_cons, not_or] at h
      have hne : (c == '<') = false := beq_eq_false_iff_ne.2 fun heq => h.1 heq.symm
      rw [List.cons_append, readBody, if_neg (by simp [hne]), if_neg (by simp [hne]), ih h.2,
        ← BodyReading.prepend_append]
      rfl
  exact ⟨fun depth stop rest hstop => by cases hstop; exact hpass depth rest, fun depth rest hnone => by cases hnone⟩

/-! ## 3. Texts that end with a tag -/

/-- Nothing of the text is left open at its end. -/
def Sealed (cs : List Char) : Prop := cs = [] ∨ cs.getLast? = some '>'

theorem Sealed.of_suffix {xs ys : List Char} (h : Sealed ys) (hsuffix : xs <:+ ys) : Sealed xs := by
  obtain ⟨zs, rfl⟩ := hsuffix
  rcases List.eq_nil_or_concat xs with rfl | ⟨front, last, rfl⟩
  · exact .inl rfl
  · rcases h with hnil | hlast
    · simp at hnil
    · refine .inr ?_
      rw [List.concat_eq_append, ← List.append_assoc, List.getLast?_concat] at hlast
      rw [List.concat_eq_append, List.getLast?_concat, hlast]

theorem Sealed.mem {c : Char} {cs : List Char} (h : Sealed (c :: cs)) (hc : c ≠ '>') : '>' ∈ cs := by
  rcases h with hnil | hlast
  · cases hnil
  · rcases List.mem_cons.1 (List.mem_of_getLast? hlast) with rfl | hmem
    · exact absurd rfl hc
    · exact hmem

theorem cutAfter_append_of_mem {stop : Char} {cs : List Char} (h : stop ∈ cs) (rest : List Char) :
    cutAfter stop (cs ++ rest) = ((cutAfter stop cs).1, (cutAfter stop cs).2 ++ rest) := by
  induction cs with
  | nil => simp at h
  | cons c cs ih =>
    rw [List.cons_append, cutAfter, cutAfter]
    by_cases hc : (c == stop) = true
    · rw [if_pos hc, if_pos hc]
    · rw [if_neg hc, if_neg hc]
      have hmem : stop ∈ cs := by
        rcases List.mem_cons.1 h with rfl | hmem
        · simp at hc
        · exact hmem
      rw [ih hmem]

/-- Whether a tag stands in front shows before the next closing bracket. -/
theorem isTagAt_append_of_mem (htag : '>' ∉ tag) {cs : List Char} (h : '>' ∈ cs) (rest : List Char) :
    isTagAt tag (cs ++ rest) = isTagAt tag cs := by
  obtain ⟨front, behind, rfl⟩ := List.append_of_mem h
  by_cases hlength : tag.length < (front ++ '>' :: behind).length
  · exact isTagAt_append hlength rest
  · have hnot : ∀ ys, isTagAt tag (front ++ '>' :: ys) = false := by
      intro ys
      rw [Bool.eq_false_iff]
      intro hstands
      rw [isTagAt, Bool.and_eq_true] at hstands
      have hprefix := (startsWithWord_append (by decide) htag hstands.1).length_le
      simp only [List.length_map, List.length_append, List.length_cons] at hprefix hlength
      omega
    rw [List.append_assoc, List.cons_append, hnot, hnot]

/-- Behind the name of a tag, the bracket is still to come. -/
theorem mem_drop_of_isTagAt (htag : '>' ∉ tag) {cs : List Char} (hcs : '>' ∈ cs) (h : isTagAt tag cs = true) :
    '>' ∈ cs.drop tag.length := by
  obtain ⟨front, behind, rfl⟩ := List.append_of_mem hcs
  rw [isTagAt, Bool.and_eq_true] at h
  have hprefix := (startsWithWord_append (by decide) htag h.1).length_le
  rw [List.length_map, List.length_map] at hprefix
  rw [List.drop_append_of_le_length hprefix]
  simp

/-- What stands in front of a sealed text shows in it. -/
theorem tests_append_of_sealed (htag : '>' ∉ tag) {cs : List Char} (h : Sealed ('<' :: cs)) (rest : List Char) :
    ((cs ++ rest).head? == some '/' && isTagAt tag (cs ++ rest).tail) =
        (cs.head? == some '/' && isTagAt tag cs.tail) ∧
      isTagAt tag (cs ++ rest) = isTagAt tag cs := by
  have hmem := h.mem (by decide)
  refine ⟨?_, isTagAt_append_of_mem htag hmem rest⟩
  cases cs with
  | nil => simp at hmem
  | cons c cs =>
    by_cases hc : c = '/'
    · have hbehind : '>' ∈ cs := (h.of_suffix (List.suffix_cons _ _)).mem (by rw [hc]; decide)
      rw [List.cons_append, List.tail_cons, List.tail_cons, isTagAt_append_of_mem htag hbehind]
      rfl
    · have hne : (some c == some '/') = false := by simpa using hc
      simp only [List.cons_append, List.head?_cons, hne, Bool.false_and]

/-- A text is cut at the first character that stops the cut. -/
theorem takeWhile_append_of_mem {p : Char → Bool} {c : Char} {cs : List Char} (h : c ∈ cs) (hc : p c = false)
    (rest : List Char) :
    (cs ++ rest).takeWhile p = cs.takeWhile p ∧ (cs ++ rest).dropWhile p = cs.dropWhile p ++ rest := by
  obtain ⟨d, behind, hdrop⟩ : ∃ d behind, cs.dropWhile p = d :: behind := by
    refine List.exists_cons_of_ne_nil fun hnil => ?_
    have hall := List.dropWhile_eq_nil_iff.1 hnil c h
    rw [hc] at hall
    exact Bool.false_ne_true hall
  have hcut : (cs.takeWhile p ++ (cs.dropWhile p ++ rest)).takeWhile p = cs.takeWhile p ∧
      (cs.takeWhile p ++ (cs.dropWhile p ++ rest)).dropWhile p = cs.dropWhile p ++ rest :=
    takeWhile_passed (by rw [hdrop]; rfl)
  rwa [← List.append_assoc, List.takeWhile_append_dropWhile] at hcut

section

variable (htag : '>' ∉ tag) {cs : List Char}

include htag

/-- At a closing tag. -/
theorem readBody_at_closing_of_sealed (h : Sealed ('<' :: '/' :: cs)) (hname : isTagAt tag cs = true)
    (depth : Nat) (rest : List Char) :
    let close := cutAfter '>' (cs.drop tag.length)
    readBody true tag depth ('<' :: '/' :: (cs ++ rest)) =
      if depth = 0 then ⟨[], '<' :: '/' :: (cs.take tag.length ++ close.1), close.2 ++ rest, true⟩
      else (readBody true tag (depth - 1) (close.2 ++ rest)).prepend
        ('<' :: '/' :: (cs.take tag.length ++ close.1)) := by
  have hmem : '>' ∈ cs := (h.of_suffix (List.suffix_cons _ _)).mem (by decide)
  have hlength := length_le_of_isTagAt hname
  have hstands : isTagAt tag (cs ++ rest) = true := by rw [isTagAt_append_of_mem htag hmem, hname]
  have hhead : ('/' :: (cs ++ rest)).head? = some '/' := rfl
  have hread := readBody_at_closing true hhead hstands depth
  rw [List.take_succ_cons, List.drop_succ_cons, List.take_append_of_le_length hlength,
    List.drop_append_of_le_length hlength, cutAfter_append_of_mem (mem_drop_of_isTagAt htag hmem hname)] at hread
  cases depth with
  | zero => exact hread
  | succ depth => exact hread

/-- At the tag of an inner template. -/
theorem readBody_at_opening_of_sealed (h : Sealed ('<' :: cs))
    (hcloses : ¬('<' == '<' && cs.head? == some '/' && isTagAt tag cs.tail) = true)
    (hname : isTagAt tag cs = true) (depth : Nat) (rest : List Char) :
    let front := cs.take tag.length ++ (cs.drop tag.length).takeWhile (· != '>')
    readBody true tag depth ('<' :: (cs ++ rest)) =
      (readBody true tag (if front.getLast? == some '/' then depth else depth + 1)
        ((cs.drop tag.length).dropWhile (· != '>') ++ rest)).prepend ('<' :: front) := by
  have hlength := length_le_of_isTagAt hname
  obtain ⟨hclosing, hopening⟩ := tests_append_of_sealed htag h rest
  obtain ⟨htake, hdrop⟩ := takeWhile_append_of_mem (mem_drop_of_isTagAt htag (h.mem (by decide)) hname)
    (p := (· != '>')) (by decide) rest
  rw [readBody, if_neg (by rwa [Bool.and_assoc, hclosing, ← Bool.and_assoc]), if_pos (by rw [hopening, hname]; rfl)]
  simp only [List.take_append_of_le_length hlength, List.drop_append_of_le_length hlength, htake, hdrop]

/-- Where no tag stands. -/
theorem readBody_text_of_sealed {c : Char} (h : Sealed (c :: cs))
    (hcloses : ¬(c == '<' && cs.head? == some '/' && isTagAt tag cs.tail) = true)
    (hopens : ¬(c == '<' && isTagAt tag cs) = true) (depth : Nat) (rest : List Char) :
    readBody true tag depth (c :: (cs ++ rest)) = (readBody true tag depth (cs ++ rest)).prepend [c] := by
  by_cases hc : c = '<'
  · subst hc
    obtain ⟨hclosing, hopening⟩ := tests_append_of_sealed htag h rest
    rw [readBody, if_neg (by rwa [Bool.and_assoc, hclosing, ← Bool.and_assoc]),
      if_neg (by rwa [hopening, Bool.true_and])]
  · have hne : (c == '<') = false := beq_eq_false_iff_ne.2 hc
    rw [readBody, if_neg (by simp [hne]), if_neg (by simp [hne])]

/-- **A sealed text** is read as the marks that are seen in it. -/
theorem ReadAs.of_sealed (h : Sealed cs) : ReadAs tag cs (seenMarks tag cs) := by
  fun_induction seenMarks tag cs with
  | case1 => exact .nil
  | case2 c cs hcloses _ ih =>
    simp only [Bool.and_eq_true, beq_iff_eq] at hcloses
    obtain ⟨⟨rfl, hslash⟩, hname⟩ := hcloses
    obtain ⟨cs, rfl⟩ := List.head?_eq_some_iff.1 hslash
    rw [List.tail_cons] at hname
    rw [List.drop_succ_cons] at ih ⊢
    have hread := readBody_at_closing_of_sealed htag h hname
    have hcut := cutAfter_append '>' (cs.drop tag.length)
    generalize cutAfter '>' (cs.drop tag.length) = close at ih hcut hread ⊢
    have hwhole : '<' :: '/' :: cs = ('<' :: '/' :: (cs.take tag.length ++ close.1)) ++ close.2 := by
      rw [List.cons_append, List.cons_append, List.append_assoc, hcut, List.take_append_drop]
    have hbehind := ih (h.of_suffix (hwhole ▸ List.suffix_append _ _))
    rw [hwhole]
    show ReadAs tag _ ([.closes] ++ seenMarks tag close.2)
    refine hbehind.of_front (fun depth stop rest hstop => ?_) (fun depth rest hnone => ?_)
    · rw [← hwhole, List.cons_append, List.cons_append, hread]
      by_cases hdepth : depth = 0
      · simp [depthAfter, hdepth] at hstop
      · simp only [depthAfter, if_neg hdepth, Option.some.injEq] at hstop
        rw [if_neg hdepth, hstop]
    · rw [← hwhole, List.cons_append, List.cons_append, hread]
      by_cases hdepth : depth = 0
      · rw [if_pos hdepth]
        exact Nat.zero_lt_succ _
      · simp [depthAfter, hdepth] at hnone
  | case3 c cs hcloses hopens name after _ ih =>
    simp only [Bool.and_eq_true, beq_iff_eq] at hopens
    obtain ⟨rfl, hname⟩ := hopens
    have hwhole : '<' :: cs = ('<' :: (name ++ after.takeWhile (· != '>'))) ++ after.dropWhile (· != '>') := by
      rw [List.cons_append, List.append_assoc, List.takeWhile_append_dropWhile, List.take_append_drop]
    have hbehind := ih (h.of_suffix (hwhole ▸ List.suffix_append _ _))
    have hmarks (depth : Nat) : depthAfter depth
        (if (name ++ after.takeWhile (· != '>')).getLast? == some '/' then [] else [.opens]) =
        some (if (name ++ after.takeWhile (· != '>')).getLast? == some '/' then depth else depth + 1) := by
      split
      · rfl
      · rfl
    rw [hwhole]
    refine hbehind.of_front (fun depth stop rest hstop => ?_) (fun depth rest hnone => ?_)
    · rw [hmarks, Option.some.injEq] at hstop
      rw [← hwhole, List.cons_append, readBody_at_opening_of_sealed htag h hcloses hname, hstop]
    · rw [hmarks] at hnone
      cases hnone
  | case4 c cs hcloses hopens ih =>
    have hbehind := ih (h.of_suffix (List.suffix_cons _ _))
    show ReadAs tag ([c] ++ cs) ([] ++ seenMarks tag cs)
    refine hbehind.of_front (fun depth stop rest hstop => ?_) (fun depth rest hnone => ?_)
    · cases hstop
      exact readBody_text_of_sealed htag h hcloses hopens depth rest
    · cases hnone

end

end ComponentLens
