/-
# Exactly the selectors in front of rules

The class selectors that are found are those of the blanked stylesheet in front of rules (`mem_classNames`).
What makes a place one of them is said there without a scan (`Selects`): a dot stands at it, a class can
start behind the dot, and of the braces and semicolons that follow the first one opens a rule.

The scan goes through the text once.  It keeps the names that it has read since the last brace or semicolon, and
whether they count shows only at the next one.  So the step that carries the proof speaks of the names kept and
of the places still to come at once (`mem_classNamesFrom`): a name that is kept counts if the rest of the text
opens a rule before it does anything else.

Blanking keeps bytes or writes spaces (`Blanks.bytes`), so a place in the blanked text is a place in the
stylesheet.
-/
import ComponentLens.Proofs.Style.Places
import Mathlib.Data.List.Forall2

namespace ComponentLens.Style

/-! ## 1. Bytes -/

/-- The byte is that of the text, or a space in its place. -/
def KeptOrBlank (masked byte : UInt8) : Prop := masked = byte ∨ masked = 0x20

theorem utf8_blank (c : Char) : utf8 (blank c) = List.replicate c.utf8Size 0x20 := by
  have hspace : String.utf8EncodeChar ' ' = [0x20] := by decide
  rw [utf8, blank, List.flatMap_replicate, hspace]
  exact List.flatten_replicate_singleton

/-- **Byte by byte**, a blanked text is the text or blank. -/
theorem Blanks.bytes {cs ms : List Char} (h : Blanks cs ms) :
    List.Forall₂ KeptOrBlank (utf8 ms) (utf8 cs) := by
  induction h with
  | nil => exact .nil
  | keep c _ _ ih =>
    have hsame : List.Forall₂ KeptOrBlank (String.utf8EncodeChar c) (String.utf8EncodeChar c) :=
      List.forall₂_same.2 fun _ _ => .inl rfl
    exact List.rel_append hsame ih
  | blank c _ ih =>
    rw [utf8_append, utf8_blank]
    refine List.rel_append (List.forall₂_iff_get.2 ⟨by simp, ?_⟩) ih
    intro i hi hi'
    exact .inr (by simp)

/-- A blanked text has one byte for each character. -/
theorem Blanks.single {cs ms : List Char} (h : Blanks cs ms) : ∀ d ∈ ms, d.utf8Size = 1 := by
  induction h with
  | nil => simp
  | keep c hc _ ih => exact List.forall_mem_cons.2 ⟨hc, ih⟩
  | blank c _ ih =>
    intro d hd
    rcases List.mem_append.1 hd with hd | hd
    · rw [List.eq_of_mem_replicate hd]
      rfl
    · exact ih d hd

/-! ## 2. Places of selectors -/

/-- Whether the character ends the text in front of a rule, or a declaration. -/
def isRuleMark (c : Char) : Bool := c == '\x7b' || c == '\x7d' || c == ';'

/-- Of the braces and semicolons of the text, the first one opens a rule. -/
def OpensRule (cs : List Char) : Prop := cs.find? isRuleMark = some '\x7b'

/-- A class can start here: a letter or an underscore stands in front, perhaps behind one hyphen. -/
def StartsClass (cs : List Char) : Prop :=
  ∃ c rest, isClassStart c = true ∧ (cs = c :: rest ∨ cs = '-' :: c :: rest)

/-- **A class selector in front of a rule.**  Its dot stands behind `front`, and its name goes on as long as it
can. -/
structure SelectsBehind (front rest : List Char) (c : ClassName) : Prop where
  starts : StartsClass rest
  opens : OpensRule rest
  name : c.name.toList = rest.takeWhile isClassPart
  span : c.span = ⟨byteLength front, byteLength front + 1 + byteLength c.name.toList⟩

/-- The class selector stands in the text in front of a rule. -/
def Selects (ms : List Char) (c : ClassName) : Prop :=
  ∃ front rest, ms = front ++ '.' :: rest ∧ SelectsBehind front rest c

theorem opensRule_cons {c : Char} (h : isRuleMark c = false) (cs : List Char) :
    OpensRule (c :: cs) ↔ OpensRule cs := by
  rw [OpensRule, OpensRule, List.find?_cons_of_neg (by simp [h])]

theorem opensRule_brace (cs : List Char) : OpensRule ('\x7b' :: cs) := List.find?_cons_of_pos rfl

theorem not_opensRule {c : Char} (h : c = '\x7d' ∨ c = ';') (cs : List Char) : ¬OpensRule (c :: cs) := by
  rcases h with rfl | rfl
  · exact fun h => absurd (Option.some.inj h) (by decide)
  · exact fun h => absurd (Option.some.inj h) (by decide)

/-- A class name is read wherever one starts, and it takes all that can be part of it. -/
theorem readClassName?_eq_some_iff {cs name : List Char} :
    readClassName? cs = some name ↔ StartsClass cs ∧ name = cs.takeWhile isClassPart := by
  have hhyphen : isClassPart '-' = true := by decide
  constructor
  · intro h
    unfold readClassName? at h
    split at h
    next c cs =>
      split at h
      next hstart =>
        cases h
        exact ⟨⟨c, cs, hstart, .inr rfl⟩, by simp [hhyphen, isClassPart_of_isClassStart hstart]⟩
      next => cases h
    next c cs _ =>
      split at h
      next hstart =>
        cases h
        exact ⟨⟨c, cs, hstart, .inl rfl⟩, by simp [isClassPart_of_isClassStart hstart]⟩
      next => cases h
    next => cases h
  · rintro ⟨⟨c, rest, hstart, rfl | rfl⟩, rfl⟩
    · have hne : c ≠ '-' := by
        rintro rfl
        exact absurd hstart (by decide)
      simp [readClassName?, hne, hstart, isClassPart_of_isClassStart hstart]
    · simp [readClassName?, hhyphen, hstart, isClassPart_of_isClassStart hstart]

/-! ## 3. The scan -/

/-- The class selector stands in the rest of a text, behind `front`. -/
def SelectsFrom (front cs : List Char) (c : ClassName) : Prop :=
  ∃ skipped rest, cs = skipped ++ '.' :: rest ∧ SelectsBehind (front ++ skipped) rest c

/-- A selector of the rest starts at once, or behind the first character. -/
theorem selectsFrom_cons {front : List Char} {d : Char} {cs : List Char} {c : ClassName} :
    SelectsFrom front (d :: cs) c ↔ (d = '.' ∧ SelectsBehind front cs c) ∨ SelectsFrom (front ++ [d]) cs c := by
  constructor
  · rintro ⟨skipped, rest, hcs, h⟩
    cases skipped with
    | nil =>
      obtain ⟨rfl, rfl⟩ := List.cons.inj hcs
      exact .inl ⟨rfl, by simpa using h⟩
    | cons e skipped =>
      obtain ⟨rfl, rfl⟩ := List.cons.inj hcs
      exact .inr ⟨skipped, rest, rfl, by simpa using h⟩
  · rintro (⟨rfl, h⟩ | ⟨skipped, rest, rfl, h⟩)
    · exact ⟨[], cs, rfl, by simpa using h⟩
    · exact ⟨d :: skipped, rest, rfl, by simpa using h⟩

/-- The name that is read behind a dot, with its place. -/
theorem selectsBehind_iff {front rest name : List Char} (hread : readClassName? rest = some name)
    (c : ClassName) :
    SelectsBehind front rest c ↔
      c = ⟨String.ofList name, ⟨byteLength front, byteLength front + 1 + name.length⟩⟩ ∧ OpensRule rest := by
  obtain ⟨hstarts, hname⟩ := readClassName?_eq_some_iff.1 hread
  have hlength : byteLength name = name.length :=
    byteLength_className (readClassName?_eq_some hread).2.1
  constructor
  · intro h
    obtain ⟨written, span⟩ := c
    have hwritten : written.toList = name := h.name.trans hname.symm
    have hspan := h.span
    dsimp only at hspan
    rw [hwritten, hlength] at hspan
    exact ⟨by rw [← hwritten, String.ofList_toList, hspan, hwritten], h.opens⟩
  · rintro ⟨rfl, hopens⟩
    exact ⟨hstarts, hopens, by simpa using hname, by simp [hlength]⟩

/-- **What the scan finds.**  A name that is kept counts if the rest opens a rule first; and in the rest, every
selector in front of a rule is found. -/
theorem mem_classNamesFrom {front cs : List Char} {pending : List ClassName} {c : ClassName}
    (hbytes : ∀ d ∈ cs, d.utf8Size = 1) :
    c ∈ classNamesFrom (byteLength front) pending cs ↔
      (c ∈ pending ∧ OpensRule cs) ∨ SelectsFrom front cs c := by
  induction cs generalizing front pending with
  | nil => simp [classNamesFrom, OpensRule, SelectsFrom]
  | cons d cs ih =>
    obtain ⟨hd, hcs⟩ := List.forall_mem_cons.1 hbytes
    have hnext : byteLength front + 1 = byteLength (front ++ [d]) := by simp [hd]
    rw [classNamesFrom, selectsFrom_cons, hnext]
    split
    next hopen =>
      obtain rfl : d = '\x7b' := by simpa using hopen
      have hdot : ('\x7b' : Char) ≠ '.' := by decide
      rw [List.mem_append, ih hcs]
      simp [opensRule_brace, hdot]
    split
    next hopen hclose =>
      have hclose : d = '\x7d' ∨ d = ';' := by simpa using hclose
      have hdot : d ≠ '.' := by rintro rfl; simp at hclose
      rw [ih hcs]
      simp [not_opensRule hclose, hdot]
    next hopen hclose =>
      have hplain : isRuleMark d = false := by
        simp only [Bool.or_eq_true, beq_iff_eq, not_or] at hopen hclose
        simp [isRuleMark, hopen, hclose]
      rw [opensRule_cons hplain]
      split
      next hdot =>
        obtain rfl : d = '.' := by simpa using hdot
        split
        next name hname =>
          -- the name is kept: it counts exactly if the selector stands in front of a rule
          rw [ih hcs, List.mem_append, List.mem_singleton, selectsBehind_iff hname]
          simp only [← hnext]
          tauto
        next hnone =>
          have hnot : ¬SelectsBehind front cs c := fun h => by
            rw [readClassName?_eq_some_iff.2 ⟨h.starts, rfl⟩] at hnone
            cases hnone
          rw [ih hcs]
          simp [hnot]
      next hdot =>
        have hdot : d ≠ '.' := by simpa using hdot
        rw [ih hcs]
        simp [hdot]

/-- The names come in the order of their places, behind those that are kept. -/
theorem classNamesFrom_ordered {pos : Nat} {pending : List ClassName} {cs : List Char}
    (hpending : pending.Pairwise fun a b => a.span.start < b.span.start)
    (hbefore : ∀ c ∈ pending, c.span.start < pos) :
    (classNamesFrom pos pending cs).Pairwise fun a b => a.span.start < b.span.start := by
  suffices h : ∀ (cs : List Char) (pos : Nat) (pending : List ClassName),
      (pending.Pairwise fun a b => a.span.start < b.span.start) → (∀ c ∈ pending, c.span.start < pos) →
      (classNamesFrom pos pending cs).Pairwise (fun a b => a.span.start < b.span.start) ∧
        ∀ c ∈ classNamesFrom pos pending cs, c ∈ pending ∨ pos ≤ c.span.start from
    (h cs pos pending hpending hbefore).1
  clear hpending hbefore
  intro cs
  induction cs with
  | nil => simp [classNamesFrom]
  | cons d cs ih =>
    intro pos pending hpending hbefore
    have hlater : ∀ c ∈ pending, c.span.start < pos + 1 := fun c hc => Nat.lt_succ_of_lt (hbefore c hc)
    obtain ⟨hfresh, hbehind⟩ := ih (pos + 1) [] List.Pairwise.nil (by simp)
    have hbehind : ∀ c ∈ classNamesFrom (pos + 1) [] cs, pos ≤ c.span.start := fun c hc =>
      (hbehind c hc).elim (fun hnil => by cases hnil) Nat.le_of_succ_le
    obtain ⟨hkept, hkeptPlaces⟩ := ih (pos + 1) pending hpending hlater
    rw [classNamesFrom]
    split
    · refine ⟨List.pairwise_append.2 ⟨hpending, hfresh, fun a ha b hb => ?_⟩, fun c hc => ?_⟩
      · exact Nat.lt_of_lt_of_le (hbefore a ha) (hbehind b hb)
      · exact (List.mem_append.1 hc).imp id (hbehind c)
    split
    · exact ⟨hfresh, fun c hc => .inr (hbehind c hc)⟩
    split
    · split
      next name hname =>
        obtain ⟨hall, hplaces⟩ := ih (pos + 1)
          (pending ++ [⟨String.ofList name, ⟨pos, pos + 1 + name.length⟩⟩])
          (List.pairwise_append.2 ⟨hpending, List.pairwise_singleton _ _, by simpa using hbefore⟩)
          (by simpa [or_imp, forall_and] using hlater)
        refine ⟨hall, fun c hc => ?_⟩
        rcases hplaces c hc with hmem | hle
        · rcases List.mem_append.1 hmem with hmem | hmem
          · exact .inl hmem
          · rw [List.mem_singleton.1 hmem]
            exact .inr (Nat.le_refl _)
        · exact .inr (Nat.le_of_succ_le hle)
      next => exact ⟨hkept, fun c hc => (hkeptPlaces c hc).imp id Nat.le_of_succ_le⟩
    · exact ⟨hkept, fun c hc => (hkeptPlaces c hc).imp id Nat.le_of_succ_le⟩

/-! ## 4. Stylesheets -/

/-- **Completeness and soundness.**  The class names of a stylesheet are the selectors of the blanked text in front
of rules. -/
theorem mem_classNames {source : String} {c : ClassName} :
    c ∈ classNames source ↔ Selects (mask source.toList) c := by
  have h : c ∈ classNamesFrom (byteLength []) [] (mask source.toList) ↔
      (c ∈ [] ∧ OpensRule (mask source.toList)) ∨ SelectsFrom [] (mask source.toList) c :=
    mem_classNamesFrom (maskFrom_blanks .code source.toList).single
  simpa [classNames, SelectsFrom, Selects] using h

/-- **The class selectors of a stylesheet** are exactly those of the blanked text in front of rules, in order and
each once; blanking takes up the same room and keeps every byte or writes a space in its place; and each selector
stands in the stylesheet itself, a dot with the name that is reported. -/
theorem classNames_exact (source : String) :
    byteLength (mask source.toList) = source.utf8ByteSize ∧
      List.Forall₂ KeptOrBlank (utf8 (mask source.toList)) (utf8 source.toList) ∧
      (∀ c, c ∈ classNames source ↔ Selects (mask source.toList) c) ∧
      ((classNames source).Pairwise fun a b => a.span.start < b.span.start) ∧
      ∀ c ∈ classNames source, c.span.Reads source.toList ('.' :: c.name.toList) := by
  have hbytes := (maskFrom_blanks .code source.toList).bytes
  refine ⟨?_, hbytes, fun _ => mem_classNames, classNamesFrom_ordered List.Pairwise.nil (by simp),
    fun c hc => (classNames_reads source c hc).1⟩
  have hlength := hbytes.length_eq
  rw [length_utf8, length_utf8, byteLength_toList] at hlength
  exact hlength

end ComponentLens.Style
