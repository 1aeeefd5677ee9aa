/-
# Class selectors stand in their stylesheet

Class names are looked for in the stylesheet with its comments and strings blanked.  Blanking writes a space
for every byte, and keeps only characters of one byte (`Blanks`).  So the blanked text has as many characters as
the stylesheet has bytes, and an offset that counts characters of the one is an offset of the other.  A word
without spaces that stands in the blanked text stands in the stylesheet, at the same offset
(`Blanks.exists_word`).

A selector is such a word, its dot included (`classNames_reads`).
-/
import ComponentLens.Proofs.Text.Reads
import ComponentLens.Style.Selector

namespace ComponentLens.Style

/-! ## 1. Blanking -/

/-- The second text is the first one with some characters blanked.  What is kept takes one byte. -/
inductive Blanks : List Char → List Char → Prop where
  | nil : Blanks [] []
  | keep (c : Char) {cs ms : List Char} (hc : c.utf8Size = 1) (rest : Blanks cs ms) : Blanks (c :: cs) (c :: ms)
  | blank (c : Char) {cs ms : List Char} (rest : Blanks cs ms) : Blanks (c :: cs) (blank c ++ ms)

theorem length_blank (c : Char) : (blank c).length = c.utf8Size := List.length_replicate

/-- Reading a stylesheet keeps characters or blanks them. -/
theorem maskFrom_blanks (place : Place) (cs : List Char) : Blanks cs (maskFrom place cs) := by
  fun_induction maskFrom place cs with
  | case1 => exact .nil
  | case2 cs ih => exact .blank '/' (.blank '*' ih)
  | case3 c cs _ hquote ih =>
    simp only [Bool.or_eq_true, beq_iff_eq] at hquote
    rcases hquote with rfl | rfl
    · exact .blank '"' ih
    · exact .blank '\'' ih
  | case4 c cs _ _ hascii ih => exact .keep c (Char.utf8Size_eq_one_iff.2 (Nat.le_of_lt_succ hascii)) ih
  | case5 c cs _ _ _ ih => exact .blank c ih
  | case6 cs ih => exact .blank '*' (.blank '/' ih)
  | case7 c cs _ ih => exact .blank c ih
  | case8 quote d cs ih => exact .blank '\\' (.blank d ih)
  | case9 quote c cs _ ih => exact .blank c ih

/-- **Words survive.**  A word without spaces in the blanked text stands in the text itself, behind as many bytes
as there are characters in front of it. -/
theorem Blanks.exists_word {cs ms front word back : List Char} (h : Blanks cs ms)
    (hms : ms = front ++ (word ++ back)) (hword : ∀ c ∈ word, c ≠ ' ') (hne : word ≠ []) :
    ∃ before after, cs = before ++ (word ++ after) ∧ byteLength before = front.length := by
  induction h generalizing front word with
  | nil =>
    obtain ⟨-, hnil⟩ := List.append_eq_nil_iff.1 hms.symm
    exact absurd (List.append_eq_nil_iff.1 hnil).1 hne
  | keep c hc rest ih =>
    cases front with
    | cons f front =>
      obtain ⟨rfl, hrest⟩ := List.cons.inj hms
      obtain ⟨before, after, rfl, hlength⟩ := ih hrest hword hne
      exact ⟨c :: before, after, rfl, by simp [hc, hlength, Nat.add_comm]⟩
    | nil =>
      cases word with
      | nil => exact absurd rfl hne
      | cons w word =>
        obtain ⟨rfl, hrest⟩ := List.cons.inj hms
        by_cases hnil : word = []
        · exact ⟨[], _, by rw [hnil]; rfl, rfl⟩
        have hrest : _ = [] ++ (word ++ back) := hrest
        obtain ⟨before, after, rfl, hlength⟩ :=
          ih hrest (fun d hd => hword d (List.mem_cons_of_mem c hd)) hnil
        obtain rfl := eq_nil_of_byteLength_eq_zero hlength
        exact ⟨[], after, rfl, rfl⟩
  | blank c rest ih =>
    -- a word cannot start inside a blank
    rcases List.append_eq_append_iff.1 hms with ⟨skipped, rfl, hrest⟩ | ⟨inside, hblank, hrest⟩
    · obtain ⟨before, after, rfl, hlength⟩ := ih hrest hword hne
      exact ⟨c :: before, after, rfl, by simp [hlength, length_blank]⟩
    · cases inside with
      | nil =>
        have hrest : _ = [] ++ (word ++ back) := hrest.symm
        obtain ⟨before, after, rfl, hlength⟩ := ih hrest hword hne
        obtain rfl := eq_nil_of_byteLength_eq_zero hlength
        have hfront : front.length = c.utf8Size := by
          rw [← length_blank, hblank, List.append_nil]
        exact ⟨[c], after, rfl, by simp [hfront]⟩
      | cons space inside =>
        obtain ⟨w, word, rfl⟩ := List.exists_cons_of_ne_nil hne
        obtain ⟨rfl, -⟩ := List.cons.inj hrest
        have hspace : w ∈ Style.blank c := hblank ▸ by simp
        exact absurd (List.eq_of_mem_replicate hspace) (hword w List.mem_cons_self)

/-! ## 2. Names -/

/-- What a class name is made of takes one byte and is no space. -/
theorem isClassPart_ascii {c : Char} (h : isClassPart c = true) : c.utf8Size = 1 ∧ c ≠ ' ' := by
  refine ⟨?_, by rintro rfl; exact absurd h (by decide)⟩
  simp only [isClassPart, Bool.or_eq_true, beq_iff_eq] at h
  rcases h with (h | rfl) | rfl
  · exact utf8Size_of_isAlphanum h
  · rfl
  · rfl

theorem isClassPart_of_isClassStart {c : Char} (h : isClassStart c = true) : isClassPart c = true := by
  simp only [isClassStart, Bool.or_eq_true] at h
  simp only [isClassPart, Char.isAlphanum, Bool.or_eq_true]
  rcases h with h | h
  · exact .inl (.inl (.inl h))
  · exact .inl (.inr h)

/-- A class name is read off the front. -/
theorem readClassName?_eq_some {cs name : List Char} (h : readClassName? cs = some name) :
    name ≠ [] ∧ (∀ c ∈ name, isClassPart c = true) ∧ ∃ rest, cs = name ++ rest := by
  have hparts : ∀ cs : List Char, ∀ c ∈ cs.takeWhile isClassPart, isClassPart c = true :=
    fun cs c hc => List.all_eq_true.1 List.all_takeWhile c hc
  unfold readClassName? at h
  split at h
  next c cs =>
    split at h
    next hstart =>
      cases h
      refine ⟨by simp, ?_, cs.dropWhile isClassPart, by simp⟩
      intro d hd
      rcases List.mem_cons.1 hd with rfl | hd
      · rfl
      rcases List.mem_cons.1 hd with rfl | hd
      · exact isClassPart_of_isClassStart hstart
      · exact hparts cs d hd
    next => cases h
  next c cs _ =>
    split at h
    next hstart =>
      cases h
      refine ⟨by simp, ?_, cs.dropWhile isClassPart, by simp⟩
      intro d hd
      rcases List.mem_cons.1 hd with rfl | hd
      · exact isClassPart_of_isClassStart hstart
      · exact hparts cs d hd
    next => cases h
  next => cases h

/-- What a class name is made of takes as many bytes as there are characters. -/
theorem byteLength_className {name : List Char} (h : ∀ c ∈ name, isClassPart c = true) :
    byteLength name = name.length := by
  induction name with
  | nil => rfl
  | cons c name ih =>
    have hname := ih fun d hd => h d (List.mem_cons_of_mem c hd)
    simp [(isClassPart_ascii (h c List.mem_cons_self)).1, hname, Nat.add_comm]

/-! ## 3. Selectors -/

/-- The class is named in the blanked text, behind a dot at its offset. -/
def NamedIn (ms : List Char) (c : ClassName) : Prop :=
  ∃ front back, ms = front ++ (('.' :: c.name.toList) ++ back) ∧ c.name.toList ≠ [] ∧
    (∀ d ∈ c.name.toList, isClassPart d = true) ∧
    c.span = ⟨front.length, front.length + 1 + c.name.toList.length⟩

/-- Every class that counts has been read at its place. -/
theorem classNamesFrom_named {front : List Char} {pending : List ClassName} {cs : List Char}
    (hpending : ∀ c ∈ pending, NamedIn (front ++ cs) c) :
    ∀ c ∈ classNamesFrom front.length pending cs, NamedIn (front ++ cs) c := by
  induction cs generalizing front pending with
  | nil => simp [classNamesFrom]
  | cons c cs ih =>
    have hmove : front ++ c :: cs = (front ++ [c]) ++ cs := by simp
    have hnext : front.length + 1 = (front ++ [c]).length := by simp
    have hnone : ∀ d ∈ ([] : List ClassName), NamedIn ((front ++ [c]) ++ cs) d := by simp
    rw [classNamesFrom, hnext]
    rw [hmove] at hpending ⊢
    split
    · intro d hd
      rcases List.mem_append.1 hd with hd | hd
      · exact hpending d hd
      · exact ih hnone d hd
    split
    · exact ih hnone
    split
    next hdot =>
      obtain rfl : c = '.' := by simpa using hdot
      split
      next name hname =>
        obtain ⟨hne, hparts, rest, rfl⟩ := readClassName?_eq_some hname
        refine ih ?_
        intro d hd
        rcases List.mem_append.1 hd with hd | hd
        · exact hpending d hd
        · obtain rfl := List.mem_singleton.1 hd
          exact ⟨front, rest, by simp, by simpa using hne, by simpa using hparts, by simp⟩
      next => exact ih hpending
    next => exact ih hpending

/-- **Selectors.**  A class selector stands in the stylesheet at its place, its dot included, and names
something. -/
theorem classNames_reads (source : String) : ∀ c ∈ classNames source,
    c.span.Reads source.toList ('.' :: c.name.toList) ∧ c.name.toList ≠ [] := by
  intro c hc
  have hnamed : ∀ d ∈ classNamesFrom ([] : List Char).length [] (mask source.toList),
      NamedIn ([] ++ mask source.toList) d := classNamesFrom_named (by simp)
  obtain ⟨front, back, hms, hne, hparts, hspan⟩ := hnamed c hc
  have hword : ∀ d ∈ '.' :: c.name.toList, d ≠ ' ' := by
    intro d hd
    rcases List.mem_cons.1 hd with rfl | hd
    · decide
    · exact (isClassPart_ascii (hparts d hd)).2
  obtain ⟨before, after, hsource, hlength⟩ :=
    (maskFrom_blanks .code source.toList).exists_word hms hword (by simp)
  refine ⟨⟨before, after, hsource, ?_⟩, hne⟩
  have hdot : '.'.utf8Size = 1 := rfl
  rw [hspan, hlength, byteLength_cons, byteLength_className hparts, hdot, Nat.add_assoc]

/-- The places of the classes lie in a text that ends at offset `stop`. -/
def Within (stop : Nat) (classes : List ClassName) : Prop := ∀ c ∈ classes, c.span.EndsAt (· ≤ stop)

/-- **The selectors of a stylesheet lie in it.** -/
theorem classNames_within (source : String) : Within source.utf8ByteSize (classNames source) := by
  intro c hc
  obtain ⟨hreads, -⟩ := classNames_reads source c hc
  rw [← byteLength_toList]
  exact ⟨hreads.isBoundary_start.le_byteLength, hreads.isBoundary_stop.le_byteLength⟩

end ComponentLens.Style
