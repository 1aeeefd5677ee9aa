/-
# Blanked texts

The script document holds copies of its blocks in which statements are blanked.  Places of a block are used
for such a copy as they are, so blanking has to keep every byte offset, and every byte that is not blanked.

`AgreeOutside` says of two texts that they take up the same room and that their bytes agree except at
offsets that are given up.  `BlankedTo` adds that every place where the first text can be cut is one where
the second can be cut.  Both relations compose, so a text that is blanked at several spans is related to the
text it came from (`blankedTo_foldl`), and then any part of the one to the same part of the other
(`BlankedTo.reads`).
-/
import ComponentLens.Proofs.Text.Reads
import ComponentLens.Virtual.ScriptDocument

namespace ComponentLens

/-! ## 1. Bytes -/

/-- A byte of a part of a text. -/
theorem getElem?_utf8_inside (before xs after : List Char) {i : Nat} (h : i < byteLength xs) :
    (utf8 (before ++ (xs ++ after)))[byteLength before + i]? = (utf8 xs)[i]? := by
  rw [utf8_append, utf8_append, List.getElem?_append_right (by simp [length_utf8]), length_utf8,
    Nat.add_sub_cancel_left, List.getElem?_append_left (by rwa [length_utf8])]

/-- The texts take up the same room, and at every offset that is not given up they hold the same byte.  The
first byte stands at offset `start`. -/
def AgreeOutside (erased : Nat → Prop) (start : Nat) (xs ys : List Char) : Prop :=
  byteLength xs = byteLength ys ∧ ∀ i, ¬erased (start + i) → (utf8 xs)[i]? = (utf8 ys)[i]?

namespace AgreeOutside

variable {erased : Nat → Prop} {start : Nat} {xs ys zs : List Char}

theorem refl (xs : List Char) : AgreeOutside erased start xs xs := ⟨rfl, fun _ _ => rfl⟩

theorem trans (h : AgreeOutside erased start xs ys) (h' : AgreeOutside erased start ys zs) :
    AgreeOutside erased start xs zs :=
  ⟨h.1.trans h'.1, fun i hi => (h.2 i hi).trans (h'.2 i hi)⟩

theorem mono {more : Nat → Prop} (h : AgreeOutside erased start xs ys)
    (hmore : ∀ n, erased n → more n) : AgreeOutside more start xs ys :=
  ⟨h.1, fun i hi => h.2 i fun herased => hi (hmore _ herased)⟩

/-- The texts can be looked at from a block or from the file. -/
theorem shift {more : Nat → Prop} (h : AgreeOutside erased start xs ys) (base : Nat)
    (hmore : ∀ n, erased n → more (n + base)) : AgreeOutside more (start + base) xs ys := by
  refine ⟨h.1, fun i hi => h.2 i fun herased => hi ?_⟩
  have := hmore _ herased
  rwa [Nat.add_right_comm] at this

/-- Texts of one length agree where everything is given up. -/
theorem of_erased (hlen : byteLength xs = byteLength ys)
    (h : ∀ i, i < byteLength xs → erased (start + i)) : AgreeOutside erased start xs ys := by
  refine ⟨hlen, fun i hi => ?_⟩
  have hle : byteLength xs ≤ i := Nat.le_of_not_lt fun hlt => hi (h i hlt)
  rw [List.getElem?_eq_none (by rw [length_utf8]; exact hle),
    List.getElem?_eq_none (by rw [length_utf8, ← hlen]; exact hle)]

theorem append {xs' ys' : List Char} (h : AgreeOutside erased start xs ys)
    (h' : AgreeOutside erased (start + byteLength xs) xs' ys') :
    AgreeOutside erased start (xs ++ xs') (ys ++ ys') := by
  refine ⟨by simp [h.1, h'.1], fun i hi => ?_⟩
  rw [utf8_append, utf8_append]
  by_cases hlt : i < byteLength xs
  · rw [List.getElem?_append_left (by rwa [length_utf8]),
      List.getElem?_append_left (by rwa [length_utf8, ← h.1])]
    exact h.2 i hi
  · have hle := Nat.le_of_not_lt hlt
    rw [List.getElem?_append_right (by rwa [length_utf8]),
      List.getElem?_append_right (by rwa [length_utf8, ← h.1]), length_utf8, length_utf8, ← h.1]
    refine h'.2 _ ?_
    rwa [Nat.add_assoc, Nat.add_sub_cancel' hle]

/-- Parts of the texts at one place agree as the texts do. -/
theorem inside {xs' ys' before before' after after' : List Char}
    (h : AgreeOutside erased start (before ++ (xs' ++ after)) (before' ++ (ys' ++ after')))
    (hbefore : byteLength before = byteLength before') (hlen : byteLength xs' = byteLength ys') :
    AgreeOutside erased (start + byteLength before) xs' ys' := by
  refine ⟨hlen, fun i hi => ?_⟩
  by_cases hlt : i < byteLength xs'
  · have hat := h.2 (byteLength before + i) (by rwa [← Nat.add_assoc])
    rw [getElem?_utf8_inside _ _ _ hlt, hbefore, getElem?_utf8_inside _ _ _ (hlen ▸ hlt)] at hat
    exact hat
  · have hle := Nat.le_of_not_lt hlt
    rw [List.getElem?_eq_none (by rwa [length_utf8]),
      List.getElem?_eq_none (by rwa [length_utf8, ← hlen])]

end AgreeOutside

/-! ## 2. Boundaries of joined texts -/

namespace IsBoundary

variable {xs ys : List Char} {n : Nat}

theorem append_right (h : IsBoundary ys n) (xs : List Char) : IsBoundary (xs ++ ys) (byteLength xs + n) := by
  obtain ⟨before, after, rfl, rfl⟩ := h
  exact ⟨xs ++ before, after, by simp, by simp⟩

theorem of_append_left (h : IsBoundary (xs ++ ys) n) (hle : n ≤ byteLength xs) : IsBoundary xs n := by
  obtain ⟨before, after, heq, rfl⟩ := h
  obtain ⟨inside, rfl, -⟩ := exists_append_of_byteLength_le heq.symm hle
  exact ⟨before, inside, rfl, rfl⟩

theorem of_append_right (h : IsBoundary (xs ++ ys) n) (hle : byteLength xs ≤ n) :
    IsBoundary ys (n - byteLength xs) := by
  obtain ⟨before, after, heq, rfl⟩ := h
  obtain ⟨inside, rfl, rfl⟩ := exists_append_of_byteLength_le heq hle
  exact ⟨inside, after, rfl, by simp⟩

/-- A text of ASCII characters can be cut anywhere. -/
theorem of_ascii {cs : List Char} (hascii : ∀ c ∈ cs, c.utf8Size = 1) (hle : n ≤ byteLength cs) :
    IsBoundary cs n := by
  induction cs generalizing n with
  | nil => exact ⟨[], [], rfl, (Nat.le_zero.1 hle).symm⟩
  | cons c cs ih =>
    have hc := hascii c (by simp)
    cases n with
    | zero => exact isBoundary_zero _
    | succ n =>
      have hrest := ih (n := n) (fun d hd => hascii d (by simp [hd])) (by simp [hc] at hle; omega)
      have := hrest.append_right [c]
      simpa [hc, Nat.add_comm] using this

end IsBoundary

namespace Virtual

/-! ## 3. Blanking -/

/-- What is left of a text in which the given offsets are blanked: the same room, the same bytes elsewhere,
and every place to cut. -/
structure BlankedTo (erased : Nat → Prop) (text blanked : List Char) : Prop where
  agree : AgreeOutside erased 0 text blanked
  isBoundary : ∀ n, IsBoundary text n → IsBoundary blanked n

namespace BlankedTo

variable {erased : Nat → Prop} {text blanked : List Char}

theorem refl (text : List Char) : BlankedTo erased text text := ⟨.refl text, fun _ h => h⟩

theorem trans {more : List Char} (h : BlankedTo erased text blanked) (h' : BlankedTo erased blanked more) :
    BlankedTo erased text more :=
  ⟨h.agree.trans h'.agree, fun n hn => h'.isBoundary n (h.isBoundary n hn)⟩

/-- **A part of a blanked text.**  It is the same part of the text, blanked. -/
theorem reads (h : BlankedTo erased text blanked) {s : Span} {written : List Char}
    (hreads : s.Reads text written) :
    ∃ shown, s.Reads blanked shown ∧ AgreeOutside erased s.start written shown := by
  obtain ⟨shown, hshown⟩ := Span.exists_reads (h.isBoundary _ hreads.isBoundary_start)
    (h.isBoundary _ hreads.isBoundary_stop) hreads.start_le_stop
  have hlen : byteLength written = byteLength shown := by
    rw [← hreads.length_eq, ← hshown.length_eq]
  refine ⟨shown, hshown, ?_⟩
  obtain ⟨before, after, rfl, rfl⟩ := hreads
  obtain ⟨before', after', rfl, hspan⟩ := hshown
  have hbefore := congrArg Span.start hspan
  simpa using h.agree.inside hbefore hlen

end BlankedTo

/-- The offset lies inside the span. -/
def InSpan (s : Span) (n : Nat) : Prop := s.start ≤ n ∧ n < s.stop

theorem byteLength_filler (size : Nat) : byteLength (filler size) = size := by
  have hslash : '/'.utf8Size = 1 := rfl
  have hstar : '*'.utf8Size = 1 := rfl
  unfold filler
  split
  · simp only [byteLength_cons, byteLength_append, byteLength_replicate_space, byteLength_nil, hslash, hstar]
    omega
  · exact byteLength_replicate_space size

theorem filler_ascii (size : Nat) : ∀ c ∈ filler size, c.utf8Size = 1 := by
  unfold filler
  split
  · simp only [List.mem_cons, List.mem_append, List.mem_replicate, List.not_mem_nil, or_false]
    rintro c (rfl | rfl | ⟨-, rfl⟩ | rfl | rfl) <;> rfl
  · intro c hc
    rw [List.eq_of_mem_replicate hc]
    rfl

/-- **One span blanked.** -/
theorem blankedTo_blankSpan (text : String) (s : Span) :
    BlankedTo (InSpan s) text.toList (blankSpan text s).toList := by
  unfold blankSpan
  split
  · exact .refl _
  next before rest hstart =>
    split
    · exact .refl _
    next inside after hstop =>
      obtain ⟨htext, hbefore⟩ := splitAtByte?_eq_some hstart
      obtain ⟨rfl, hinside⟩ := splitAtByte?_eq_some hstop
      rw [htext, String.toList_ofList, List.append_assoc]
      constructor
      · refine .append (.refl _) (.append (.of_erased (byteLength_filler _).symm fun i hi => ?_) (.refl _))
        simp only [InSpan, Span.length] at *
        omega
      · intro n hn
        by_cases hle : n ≤ byteLength before
        · exact (hn.of_append_left hle).append_left _
        have hlt := Nat.lt_of_not_le hle
        have hn := hn.of_append_right (Nat.le_of_lt hlt)
        have hsum : n = byteLength before + (n - byteLength before) := by omega
        rw [hsum]
        refine IsBoundary.append_right ?_ _
        by_cases hle : n - byteLength before ≤ byteLength inside
        · exact (IsBoundary.of_ascii (filler_ascii _) (by rwa [byteLength_filler])).append_left _
        · have hlt := Nat.lt_of_not_le hle
          have hn := hn.of_append_right (Nat.le_of_lt hlt)
          have := hn.append_right (filler (byteLength inside))
          rwa [byteLength_filler, Nat.add_sub_cancel' (Nat.le_of_lt hlt)] at this

/-- Several spans blanked, one after the other. -/
theorem blankedTo_foldl {erased : Nat → Prop} (spans : List Span) (text : String)
    (h : ∀ s ∈ spans, ∀ n, InSpan s n → erased n) :
    BlankedTo erased text.toList (spans.foldl blankSpan text).toList := by
  induction spans generalizing text with
  | nil => exact .refl _
  | cons s spans ih =>
    have hone := blankedTo_blankSpan text s
    refine BlankedTo.trans ⟨hone.agree.mono (h s (by simp)), hone.isBoundary⟩ ?_
    exact ih _ fun s' hs' => h s' (by simp [hs'])

/-! ## 4. What a blanked span holds -/

/-- A span that can be cut out holds the filler once it is blanked. -/
theorem reads_blankSpan {text : String} {s : Span} (hs : s.EndsAt (IsBoundary text.toList))
    (hle : s.start ≤ s.stop) : s.Reads (blankSpan text s).toList (filler s.length) := by
  obtain ⟨inside, before, after, htext, hspan⟩ := Span.exists_reads hs.1 hs.2 hle
  obtain rfl : s = ⟨byteLength before, byteLength before + byteLength inside⟩ := hspan
  refine ⟨before, after, ?_, ?_⟩
  · simp [blankSpan, htext, splitAtByte?_append, Span.length]
  · simp [Span.length, byteLength_filler]

/-- What stands in front of a span stays when the span is blanked. -/
theorem reads_blankSpan_of_le {text : String} {s other : Span} {inside : List Char}
    (h : s.Reads text.toList inside) (hle : s.stop ≤ other.start) :
    s.Reads (blankSpan text other).toList inside := by
  unfold blankSpan
  split
  · exact h
  next front rest hstart =>
    split
    · exact h
    next blanked after hstop =>
      obtain ⟨htext, hfront⟩ := splitAtByte?_eq_some hstart
      obtain ⟨before, behind, htext', rfl⟩ := h
      rw [htext', ← List.append_assoc] at htext
      simp only at hle
      obtain ⟨middle, rfl, -⟩ := exists_append_of_byteLength_le htext (by simp; omega)
      exact ⟨before, middle ++ (filler (byteLength blanked) ++ after), by simp, rfl⟩

theorem reads_foldl_of_le {spans : List Span} {text : String} {s : Span} {inside : List Char}
    (h : s.Reads text.toList inside) (hle : ∀ other ∈ spans, s.stop ≤ other.start) :
    s.Reads (spans.foldl blankSpan text).toList inside := by
  induction spans generalizing text with
  | nil => exact h
  | cons other rest ih =>
    rw [List.foldl_cons]
    exact ih (reads_blankSpan_of_le h (hle other (by simp))) fun o ho => hle o (by simp [ho])

/-- **Several spans blanked, one behind the other.**  Each of them holds the filler. -/
theorem reads_foldl_blankSpan {spans : List Span} {text : String}
    (hapart : spans.Pairwise fun a b => a.stop ≤ b.start) (hforward : ∀ s ∈ spans, s.start ≤ s.stop)
    (hends : ∀ s ∈ spans, s.EndsAt (IsBoundary text.toList)) :
    ∀ s ∈ spans, s.Reads (spans.foldl blankSpan text).toList (filler s.length) := by
  induction spans generalizing text with
  | nil => simp
  | cons first rest ih =>
    obtain ⟨hfirst, hrest⟩ := List.pairwise_cons.1 hapart
    have hblanked := reads_blankSpan (hends first (by simp)) (hforward first (by simp))
    rw [List.foldl_cons]
    intro s hs
    rcases List.mem_cons.1 hs with rfl | hs
    · exact reads_foldl_of_le hblanked hfirst
    · have hboundary := (blankedTo_blankSpan text first).isBoundary
      refine ih hrest (fun o ho => hforward o (by simp [ho])) (fun o ho => ?_) s hs
      exact (hends o (by simp [ho])).mono hboundary

end Virtual

end ComponentLens
