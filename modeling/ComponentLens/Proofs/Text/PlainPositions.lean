/-
# Positions in plain text and in open documents

Text that is open in the editor and text that is not are read by different rules.  A text whose only line ends are
line feeds has the same lines by both, so one would expect the same positions and the same offsets.

Positions do agree: every offset between two characters has the same position by both rules, and an offset past
the end has none.  Offsets agree unless the position lies past the end of a line that a line feed ends
(`PastLineFeed`).  There both take the end of the line, but an open document counts the line feed as part of the
line, so its offset is the one behind the line feed, and the offset in plain text is the one in front of it.
`agree_unless_pastLineFeed` says all of this.
-/
import ComponentLens.Proofs.Text.Reads
import ComponentLens.Text.Lines
import ComponentLens.Text.PlainLines

namespace ComponentLens.PlainLines

open Lines (lines isLineEnd endsAfter walk offsetIn?)

/-- No character of the text ends a line but line feeds. -/
def OnlyLineFeeds (cs : List Char) : Prop := ∀ c ∈ cs, isLineEnd c = true → c = '\n'

instance (cs : List Char) : Decidable (OnlyLineFeeds cs) := List.decidableBAll _ _

/-- The position lies behind the last character of a line that a line feed ends. -/
def PastLineFeed (text : String) (pos : Position) : Prop :=
  ∃ line, (lines text.toList)[pos.line]? = some line ∧ line.getLast? = some '\n' ∧
    line.length ≤ pos.character

variable {c : Char} {cs : List Char}

theorem OnlyLineFeeds.tail (h : OnlyLineFeeds (c :: cs)) : OnlyLineFeeds cs :=
  fun d hd => h d (List.mem_cons_of_mem c hd)

/-- In such a text a line ends behind a line feed and nowhere else. -/
theorem OnlyLineFeeds.endsAfter_iff (h : OnlyLineFeeds (c :: cs)) (rest : List Char) :
    endsAfter c rest = true ↔ c = '\n' := by
  constructor
  · intro hends
    rw [endsAfter, Bool.and_eq_true] at hends
    exact h c List.mem_cons_self hends.1
  · rintro rfl
    rfl

/-! ## 1. From offsets to positions -/

/-- Both rules move on in the same way over the characters in front of an offset. -/
theorem OnlyLineFeeds.walk_eq_advance {before : List Char} (h : OnlyLineFeeds before) (after : List Char)
    (base : Position) : walk (before ++ after) base (byteLength before) = some (advance base before) := by
  induction before generalizing base with
  | nil =>
    cases after with
    | nil => rfl
    | cons d after => exact if_pos d.utf8Size_pos
  | cons d before ih =>
    have hends := h.endsAfter_iff (before ++ after)
    rw [List.cons_append, walk, byteLength_cons, if_neg (by omega), Nat.add_sub_cancel_left, ih h.tail, advance]
    by_cases hd : d = '\n'
    · rw [if_pos (hends.2 hd), if_pos (by simp [hd])]
    · rw [if_neg (fun hc => hd (hends.1 hc)), if_neg (by simp [hd])]

theorem walk_eq_none {n : Nat} (h : byteLength cs < n) (base : Position) : walk cs base n = none := by
  induction cs generalizing base n with
  | nil => exact if_neg (Nat.ne_of_gt h)
  | cons c cs ih =>
    rw [byteLength_cons] at h
    rw [walk, if_neg (by omega), ih (by omega)]

theorem splitAtByte?_eq_none {n : Nat} (h : byteLength cs < n) : splitAtByte? cs n = none := by
  cases hsplit : splitAtByte? cs n with
  | none => rfl
  | some parts =>
    obtain ⟨rfl, hlength⟩ := splitAtByte?_eq_some hsplit
    rw [byteLength_append] at h
    omega

theorem positionAt?_eq {text : String} (h : OnlyLineFeeds text.toList) {offset : Nat}
    (hoffset : IsBoundary text.toList offset ∨ text.utf8ByteSize < offset) :
    positionAt? text offset = Lines.positionAt? text offset := by
  rcases hoffset with ⟨before, after, htext, rfl⟩ | hpast
  · have hbefore : OnlyLineFeeds before := fun c hc => h c (by simp [htext, hc])
    rw [positionAt?, Lines.positionAt?, htext, splitAtByte?_append, hbefore.walk_eq_advance]
    rfl
  · rw [← byteLength_toList] at hpast
    rw [positionAt?, Lines.positionAt?, splitAtByte?_eq_none hpast, walk_eq_none hpast]
    rfl

/-! ## 2. From positions to offsets -/

/-- The first line of a text is the text itself, or it is cut off behind the first line feed. -/
theorem OnlyLineFeeds.lines_cases (h : OnlyLineFeeds cs) :
    (nextLine? cs = none ∧ lines cs = [cs] ∧ cs.takeWhile (· != '\n') = cs) ∨
      ∃ line rest, nextLine? cs = some (byteLength (line ++ ['\n']), rest) ∧ OnlyLineFeeds rest ∧
        lines cs = (line ++ ['\n']) :: lines rest ∧ cs.takeWhile (· != '\n') = line := by
  induction cs with
  | nil => exact .inl ⟨rfl, rfl, rfl⟩
  | cons c cs ih =>
    by_cases hc : c = '\n'
    · subst hc
      exact .inr ⟨[], cs, rfl, h.tail, by rw [lines, if_pos (by rfl)]; rfl, rfl⟩
    · have hends : ¬ endsAfter c cs = true := fun hends => hc ((h.endsAfter_iff cs).1 hends)
      have hnext : nextLine? (c :: cs) = (nextLine? cs).map fun next => (c.utf8Size + next.1, next.2) := by
        rw [nextLine?, if_neg (by simpa using hc)]
      have htake : (c :: cs).takeWhile (· != '\n') = c :: cs.takeWhile (· != '\n') := by
        simp [hc]
      rcases ih h.tail with ⟨hnone, hlines, hwhole⟩ | ⟨line, rest, hsome, hrest, hlines, hline⟩
      · refine .inl ⟨by rw [hnext, hnone]; rfl, ?_, by rw [htake, hwhole]⟩
        rw [lines, if_neg hends, hlines]
      · refine .inr ⟨c :: line, rest, by rw [hnext, hsome]; rfl, hrest, ?_, by rw [htake, hline]⟩
        rw [lines, if_neg hends, hlines]
        rfl

/-- What a line of either kind starts with: the offset of its start is the same, and by the rule of open documents
the line may have its line feed on top. -/
theorem OnlyLineFeeds.lineStart?_cases (h : OnlyLineFeeds cs) (n : Nat) :
    (lineStart? cs n = none ∧ (lines cs)[n]? = none ∧
      ∀ character, offsetIn? (lines cs) ⟨n, character⟩ = none) ∨
    ∃ start rest line, lineStart? cs n = some (start, rest) ∧ (lines cs)[n]? = some line ∧
      (line = rest.takeWhile (· != '\n') ∨ line = rest.takeWhile (· != '\n') ++ ['\n']) ∧
      ∀ character, offsetIn? (lines cs) ⟨n, character⟩ = some (start + byteLength (line.take character)) := by
  induction n generalizing cs with
  | zero =>
    refine .inr ⟨0, cs, ?_⟩
    rcases h.lines_cases with ⟨-, hlines, hwhole⟩ | ⟨line, rest, -, -, hlines, hline⟩
    · exact ⟨cs, rfl, by rw [hlines]; rfl, .inl hwhole.symm, fun character => by rw [hlines]; simp [offsetIn?]⟩
    · exact ⟨line ++ ['\n'], rfl, by rw [hlines]; rfl, .inr (by rw [hline]),
        fun character => by rw [hlines]; simp [offsetIn?]⟩
  | succ n ih =>
    rcases h.lines_cases with ⟨hnone, hlines, -⟩ | ⟨line, rest, hsome, hrest, hlines, -⟩
    · exact .inl ⟨by simp [lineStart?, hnone], by simp [hlines], fun character => by simp [hlines, offsetIn?]⟩
    · rcases ih hrest with ⟨hstart, hat, hoffset⟩ | ⟨start, more, found, hstart, hat, hfound, hoffset⟩
      · refine .inl ⟨by simp [lineStart?, hsome, hstart], by simpa [hlines] using hat, fun character => ?_⟩
        rw [hlines, offsetIn?, hoffset]
        rfl
      · refine .inr ⟨byteLength (line ++ ['\n']) + start, more, found, by simp [lineStart?, hsome, hstart],
          by simpa [hlines] using hat, hfound, fun character => ?_⟩
        rw [hlines, offsetIn?, hoffset]
        simp [Nat.add_assoc]

/-- A position that lies past a line feed has two offsets, one in front of the line feed and one behind it, and any
other position has one. -/
theorem offsetAt?_cases {text : String} (h : OnlyLineFeeds text.toList) (pos : Position) :
    (¬ PastLineFeed text pos ∧ offsetAt? text pos = Lines.offsetAt? text pos) ∨
      (PastLineFeed text pos ∧ ∃ n, offsetAt? text pos = some n ∧ Lines.offsetAt? text pos = some (n + 1)) := by
  obtain ⟨n, character⟩ := pos
  rcases h.lineStart?_cases n with ⟨hstart, hat, hoffset⟩ | ⟨start, rest, line, hstart, hat, hline, hoffset⟩
  · refine .inl ⟨?_, by simp [offsetAt?, Lines.offsetAt?, hstart, hoffset]⟩
    rintro ⟨line, hsome, -⟩
    rw [hat] at hsome
    cases hsome
  · have hplain : offsetAt? text ⟨n, character⟩ =
        some (start + byteLength ((rest.takeWhile (· != '\n')).take character)) := by
      simp [offsetAt?, hstart]
    have hopen : Lines.offsetAt? text ⟨n, character⟩ = some (start + byteLength (line.take character)) :=
      hoffset character
    have hpast : PastLineFeed text ⟨n, character⟩ ↔ line.getLast? = some '\n' ∧ line.length ≤ character := by
      simp [PastLineFeed, hat]
    have hfree : '\n' ∉ rest.takeWhile (· != '\n') := by
      intro hmem
      simpa using List.all_eq_true.1 List.all_takeWhile '\n' hmem
    generalize rest.takeWhile (· != '\n') = inner at hline hplain hfree
    rcases hline with rfl | rfl
    · exact .inl ⟨fun hp => hfree (List.mem_of_getLast? (hpast.1 hp).1), by rw [hplain, hopen]⟩
    · by_cases hlong : (inner ++ ['\n']).length ≤ character
      · refine .inr ⟨hpast.2 ⟨by simp, hlong⟩, _, hplain, ?_⟩
        have hfeed : '\n'.utf8Size = 1 := rfl
        rw [hopen, List.take_of_length_le hlong, List.take_of_length_le (by simp at hlong; omega)]
        simp [hfeed, Nat.add_assoc]
      · refine .inl ⟨fun hp => hlong (hpast.1 hp).2, ?_⟩
        rw [hplain, hopen, List.take_append_of_le_length (by simp at hlong; omega)]

/-! ## 3. The two rules -/

/-- **Plain text and open documents.**  In a text whose only line ends are line feeds, both rules give every offset
between two characters, and every offset past the end, the same position, and a position the same offset unless it
lies past the end of a line that a line feed ends.  There the offset in an open document is the one behind the line
feed, and in plain text the one in front of it. -/
theorem agree_unless_pastLineFeed {text : String} (h : OnlyLineFeeds text.toList) :
    (∀ offset, IsBoundary text.toList offset ∨ text.utf8ByteSize < offset →
      positionAt? text offset = Lines.positionAt? text offset) ∧
    ∀ pos, (offsetAt? text pos = Lines.offsetAt? text pos ↔ ¬ PastLineFeed text pos) ∧
      (PastLineFeed text pos →
        ∃ n, offsetAt? text pos = some n ∧ Lines.offsetAt? text pos = some (n + 1)) := by
  refine ⟨fun offset => positionAt?_eq h, fun pos => ?_⟩
  rcases offsetAt?_cases h pos with ⟨hnot, heq⟩ | ⟨hpast, n, hplain, hopen⟩
  · exact ⟨⟨fun _ => hnot, fun _ => heq⟩, fun hpast => absurd hpast hnot⟩
  · refine ⟨⟨fun heq => ?_, fun hnot => absurd hpast hnot⟩, fun _ => ⟨n, hplain, hopen⟩⟩
    rw [hplain, hopen, Option.some.injEq] at heq
    omega

theorem agree_unless_pastLineFeed_emptyLastLine :
    OnlyLineFeeds "é\n".toList ∧ positionAt? "é\n" 3 = Lines.positionAt? "é\n" 3 ∧
      offsetAt? "é\n" ⟨1, 4⟩ = Lines.offsetAt? "é\n" ⟨1, 4⟩ ∧
      ∃ n, offsetAt? "é\n" ⟨0, 4⟩ = some n ∧ Lines.offsetAt? "é\n" ⟨0, 4⟩ = some (n + 1) := by
  have honly : OnlyLineFeeds "é\n".toList := by decide
  obtain ⟨hpositions, hoffsets⟩ := agree_unless_pastLineFeed honly
  refine ⟨honly, hpositions 3 (.inl ⟨['é', '\n'], [], rfl, rfl⟩), (hoffsets ⟨1, 4⟩).1.2 ?_,
    (hoffsets ⟨0, 4⟩).2 ⟨['é', '\n'], rfl, rfl, by decide⟩⟩
  rintro ⟨line, hline, hlast, -⟩
  obtain rfl : [] = line := Option.some.inj hline
  cases hlast

/-- A position past the end of the first line of `a` and `b` has two offsets. -/
theorem offsetAt?_two_pastLineFeed :
    OnlyLineFeeds "a\nb".toList ∧ offsetAt? "a\nb" ⟨0, 2⟩ = some 1 ∧
      Lines.offsetAt? "a\nb" ⟨0, 2⟩ = some 2 := by
  decide

end ComponentLens.PlainLines
