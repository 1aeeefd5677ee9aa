/-
# The parts of a loop

A loop expression is cut at its keyword, and the names in front of the keyword at commas.  The parts are not
read off the template: they are cut out of an expression, when the loop is lifted.

Each cut is described by what it makes the text up from, so the place of a part can be read off the parts
before it.  `Loop.ofExpression?_expressions` says of all of them that they stand in the template as soon as
their expression does.
-/
import ComponentLens.Markup.Loop
import ComponentLens.Proofs.Text.Reads

namespace ComponentLens.Markup

/-- The expression stands in the text at its span. -/
def Expression.StandsIn (source : List Char) (e : Expression) : Prop :=
  e.span.Reads source e.content.toList

/-- The parts of a loop. -/
def Loop.expressions (parts : Loop) : List Expression :=
  parts.source :: (parts.value.toList ++ parts.key.toList ++ parts.index.toList)

/-! ## 1. The sides -/

theorem readKeyword?_append {cs keyword rest : List Char} (h : readKeyword? cs = some (keyword, rest)) :
    keyword ++ rest = cs := by
  unfold readKeyword? at h
  split at h
  next a b after hdrop =>
    dsimp only at h
    split at h
    · cases h
      have hcs := List.takeWhile_append_dropWhile (p := isBlank) (l := cs)
      have hafter := List.takeWhile_append_dropWhile (p := isBlank) (l := after)
      rw [hdrop] at hcs
      simpa [hafter] using hcs
    · simp at h
  · simp at h

theorem breakAtKeyword?_nil : breakAtKeyword? [] = none := rfl

theorem breakAtKeyword?_cons (c : Char) (cs : List Char) :
    breakAtKeyword? (c :: cs) =
      match readKeyword? (c :: cs) with
      | some (keyword, rest) => some ([], keyword, rest)
      | none => (breakAtKeyword? cs).map fun (before, r) => (c :: before, r) := by
  rfl

theorem breakAtKeyword?_append {cs before keyword rest : List Char}
    (h : breakAtKeyword? cs = some (before, keyword, rest)) : before ++ (keyword ++ rest) = cs := by
  induction cs generalizing before with
  | nil => simp [breakAtKeyword?_nil] at h
  | cons c cs ih =>
    rw [breakAtKeyword?_cons] at h
    split at h
    next hkey =>
      simp only [Option.some.injEq, Prod.mk.injEq] at h
      obtain ⟨rfl, rfl, rfl⟩ := h
      rw [List.nil_append]
      exact readKeyword?_append hkey
    · obtain ⟨⟨front, rest'⟩, hcut, heq⟩ := Option.map_eq_some_iff.1 h
      simp only [Prod.mk.injEq] at heq
      obtain ⟨rfl, rfl⟩ := heq
      rw [List.cons_append, ih hcut]

theorem trimStart_append (cs : List Char) : cs.takeWhile isBlank ++ trimStart cs = cs :=
  List.takeWhile_append_dropWhile

/-- Trimming the end takes nothing from the front. -/
theorem trimEnd_append (cs : List Char) : ∃ blanks, trimEnd cs ++ blanks = cs := by
  refine ⟨(cs.reverse.takeWhile isBlank).reverse, ?_⟩
  rw [trimEnd, ← List.reverse_append, List.takeWhile_append_dropWhile, List.reverse_reverse]

/-- Both sides of a loop stand in its expression. -/
theorem loopSides?_reads {cs left right : List Char} {leftStart rightStart : Nat}
    (h : loopSides? cs = some ((leftStart, left), (rightStart, right))) :
    (Span.mk leftStart (leftStart + byteLength left)).Reads cs left ∧
      (Span.mk rightStart (rightStart + byteLength right)).Reads cs right := by
  have hcs := trimStart_append cs
  unfold loopSides? at h
  dsimp only at h
  split at h
  next before keyword rest hcut =>
    cases h
    have hbody : left ++ (keyword ++ rest) = trimStart cs := breakAtKeyword?_append hcut
    obtain ⟨blanks, hblanks⟩ := trimEnd_append rest
    constructor
    · exact ⟨cs.takeWhile isBlank, keyword ++ rest, by rw [hbody, hcs], rfl⟩
    · refine ⟨cs.takeWhile isBlank ++ (left ++ keyword), blanks, ?_, by simp [Nat.add_assoc]⟩
      rw [hblanks, List.append_assoc, List.append_assoc, hbody, hcs]
  next =>
    obtain ⟨last, hlast, h⟩ := Option.bind_eq_some_iff.1 h
    obtain ⟨⟨keyword, rest⟩, hkey, h⟩ := Option.bind_eq_some_iff.1 h
    cases h
    have hbody : keyword ++ rest = last :: trimStart cs := readKeyword?_append hkey
    have hlead : (cs.takeWhile isBlank).dropLast ++ (keyword ++ rest) = cs := by
      obtain ⟨front, hfront⟩ := List.getLast?_eq_some_iff.1 hlast
      rw [hfront] at hcs ⊢
      rw [hbody, List.dropLast_concat]
      simpa using hcs
    obtain ⟨blanks, hblanks⟩ := trimEnd_append rest
    constructor
    · exact ⟨(cs.takeWhile isBlank).dropLast, keyword ++ rest, by simpa using hlead.symm, by simp⟩
    · refine ⟨(cs.takeWhile isBlank).dropLast ++ keyword, blanks, ?_, by simp⟩
      rw [hblanks, List.append_assoc, hlead]

/-! ## 2. The names -/

/-- The part of a name list without the white space around it stands inside the part. -/
theorem Expression.ofPart?_standsIn {part before after : List Char} {e : Expression}
    (h : Expression.ofPart? (byteLength before) part = some e) :
    e.StandsIn (before ++ (part ++ after)) := by
  unfold Expression.ofPart? at h
  dsimp only at h
  split at h
  · simp at h
  · cases h
    obtain ⟨blanks, hblanks⟩ := trimEnd_append (trimStart part)
    refine ⟨before ++ part.takeWhile isBlank, blanks ++ after, ?_, by simp [trim]⟩
    rw [String.toList_ofList, trim, ← List.append_assoc (trimEnd _), hblanks, List.append_assoc,
      ← List.append_assoc (part.takeWhile isBlank), trimStart_append]

theorem splitAliases_ne_nil (depth : Int) (cs : List Char) : splitAliases depth cs ≠ [] := by
  cases cs with
  | nil => simp [splitAliases]
  | cons c cs =>
    rw [splitAliases]
    split
    · simp
    · dsimp only
      split <;> simp

/-- The parts with a comma behind each but the last make up the text. -/
theorem intercalate_splitAliases (depth : Int) (cs : List Char) :
    [','].intercalate (splitAliases depth cs) = cs := by
  induction cs generalizing depth with
  | nil => rfl
  | cons c cs ih =>
    rw [splitAliases]
    split
    next h =>
      simp only [Bool.and_eq_true, beq_iff_eq] at h
      obtain ⟨part, parts, hparts⟩ := List.exists_cons_of_ne_nil (splitAliases_ne_nil depth cs)
      have hcs := ih depth
      rw [hparts] at hcs ⊢
      rw [List.intercalate_cons_cons, hcs, h.1]
      rfl
    · dsimp only
      split
      next hnil => exact absurd hnil (splitAliases_ne_nil _ _)
      next part parts hparts =>
        have hcs := ih (if (c == '(' || c == '[' || c == '\x7b') = true then depth + 1
          else if (c == ')' || c == ']' || c == '\x7d') = true then depth - 1 else depth)
        rw [hparts] at hcs
        cases parts with
        | nil => simpa using hcs
        | cons q parts =>
          rw [List.intercalate_cons_cons] at hcs ⊢
          simp [← hcs]

/-- The names of a list stand in the text that the list makes up. -/
theorem aliasesFrom_standIn (parts : List (List Char)) (before after : List Char) (e : Expression)
    (h : some e ∈ aliasesFrom (byteLength before) parts) :
    e.StandsIn (before ++ ([','].intercalate parts ++ after)) := by
  induction parts generalizing before with
  | nil => simp [aliasesFrom] at h
  | cons part parts ih =>
    -- what follows the first part: nothing, or a comma and the other parts
    obtain ⟨tail, htail, hnext⟩ : ∃ tail, [','].intercalate (part :: parts) = part ++ tail ∧
        (parts ≠ [] → tail = ',' :: [','].intercalate parts) := by
      cases parts with
      | nil => exact ⟨[], by simp, by simp⟩
      | cons q parts => exact ⟨_, by rw [List.intercalate_cons_cons, List.append_assoc], by simp⟩
    rw [htail]
    rcases List.mem_cons.1 h with h | h
    · have hpart := @Expression.ofPart?_standsIn _ _ (tail ++ after) _ h.symm
      simpa using hpart
    · have hne : parts ≠ [] := by rintro rfl; simp [aliasesFrom] at h
      have hcomma : ','.utf8Size = 1 := rfl
      have hpos : byteLength before + byteLength part + 1 = byteLength (before ++ (part ++ [','])) := by
        simp [hcomma, Nat.add_assoc]
      rw [hpos] at h
      simpa [hnext hne] using ih _ h

/-- The names of a loop stand in the text that their list is read from. -/
theorem aliases_standIn (cs before after : List Char) (e : Expression)
    (h : some e ∈ aliases (byteLength before) cs) : e.StandsIn (before ++ (cs ++ after)) := by
  unfold aliases at h
  split at h
  next rest =>
    split at h
    next hlast =>
      obtain ⟨front, rfl⟩ := List.getLast?_eq_some_iff.1 (by simpa using hlast)
      have hparen : '('.utf8Size = 1 := rfl
      have hpos : byteLength before + 1 = byteLength (before ++ ['(']) := by simp [hparen]
      rw [hpos, List.dropLast_concat] at h
      have := aliasesFrom_standIn _ _ (')' :: after) e h
      rw [intercalate_splitAliases] at this
      simpa using this
    · have := aliasesFrom_standIn _ _ after e h
      rwa [intercalate_splitAliases] at this
  · have := aliasesFrom_standIn _ _ after e h
    rwa [intercalate_splitAliases] at this

/-! ## 3. All parts -/

/-- **The parts of a loop stand where their expression stands.** -/
theorem Loop.ofExpression?_expressions {source : List Char} {exp : Expression} {parts : Loop}
    (hexp : exp.StandsIn source) (h : Loop.ofExpression? exp = some parts) :
    ∀ e ∈ parts.expressions, e.StandsIn source := by
  obtain ⟨⟨⟨leftStart, left⟩, ⟨rightStart, right⟩⟩, hsides, h⟩ := Option.bind_eq_some_iff.1 h
  obtain ⟨hleft, hright⟩ := loopSides?_reads hsides
  have hleft := hleft.trans hexp
  have hright := hright.trans hexp
  obtain ⟨before, after, hsource, hspan⟩ := hleft
  have hstart : exp.span.start + leftStart = byteLength before := by
    have := congrArg Span.start hspan
    simp only [Span.shift] at this
    omega
  have hname : ∀ (n : Nat) (e : Expression),
      (aliases (exp.span.start + leftStart) left)[n]?.join = some e → e.StandsIn source := by
    intro n e hn
    rw [hstart] at hn
    rw [hsource]
    exact aliases_standIn left before after e (List.mem_of_getElem? (Option.join_eq_some_iff.1 hn))
  dsimp only at h
  cases h
  intro e he
  simp only [Loop.expressions, List.mem_cons, List.mem_append, Option.mem_toList] at he
  rcases he with rfl | (hv | hk) | hi
  · have hspan : Span.shift ⟨rightStart, rightStart + byteLength right⟩ exp.span.start =
        ⟨exp.span.start + rightStart, exp.span.start + rightStart + byteLength right⟩ := by
      simp only [Span.shift, Span.mk.injEq]
      omega
    rw [hspan] at hright
    simpa [Expression.StandsIn] using hright
  · exact hname 0 e hv
  · exact hname 1 e hk
  · exact hname 2 e hi

end ComponentLens.Markup
