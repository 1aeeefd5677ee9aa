/-
# Literals

Which texts can stand between the quotes of a literal, so that the literal ends at its own closing quote and
not before it or behind it?  `StringText` and `LayerText` answer by a grammar, without the reader: the text of
a string is plain characters and escapes, and the text of a template literal has in addition substitutions,
which hold code with braces, strings, comments and template literals.

The reader keeps the literals that are open on a stack.  A text closes the stack (`Closes`) when it is a text
of the innermost layer, the mark that ends this layer, and a text that closes what is left.  That is what is
read (`Closes.of_readTemplate`), and whatever closes the stack is read to its end (`Closes.readsTo`).  For one
literal the two make an equivalence: `isToken_string_iff` and `isToken_template_iff`.
-/
import ComponentLens.Script.Tokens
import ComponentLens.Proofs.Text.Reads

namespace ComponentLens.Script

/-! ## 1. Texts of literals -/

/-- What can stand between the quotes of a string. -/
inductive StringText (quote : Char) : List Char → Prop where
  | nil : StringText quote []
  | plain {c : Char} {cs : List Char} (hquote : c ≠ quote) (hslash : c ≠ '\\') (hbreak : c ≠ '\n')
      (hcs : StringText quote cs) : StringText quote (c :: cs)
  | escape {c : Char} {cs : List Char} (hcs : StringText quote cs) : StringText quote ('\\' :: c :: cs)

/-- The two layers of a template literal: its own text, and the code of a substitution. -/
inductive Layer where
  | own
  | substitution

/-- The mark that a layer ends at. -/
def Layer.closer : Layer → Char
  | .own => '`'
  | .substitution => '}'

/-- What can stand in a layer of a template literal. -/
inductive LayerText : Layer → List Char → Prop where
  | nil {layer : Layer} : LayerText layer []
  | plain {c : Char} {cs : List Char} (hquote : c ≠ '`') (hslash : c ≠ '\\') (hopen : ¬ ['$', '{'] <+: c :: cs)
      (hcs : LayerText .own cs) : LayerText .own (c :: cs)
  | escape {c : Char} {cs : List Char} (hcs : LayerText .own cs) : LayerText .own ('\\' :: c :: cs)
  | substitution {inside cs : List Char} (hinside : LayerText .substitution inside)
      (hcs : LayerText .own cs) : LayerText .own ('$' :: '{' :: (inside ++ '}' :: cs))
  | code {c : Char} {cs : List Char} (hmark : c ∉ ['{', '}', '"', '\'', '`'])
      (hopen : ¬ ['/', '*'] <+: c :: cs) (hcs : LayerText .substitution cs) :
      LayerText .substitution (c :: cs)
  | braces {inside cs : List Char} (hinside : LayerText .substitution inside)
      (hcs : LayerText .substitution cs) : LayerText .substitution ('{' :: (inside ++ '}' :: cs))
  | string {quote : Char} {inside cs : List Char} (hquote : quote = '"' ∨ quote = '\'')
      (hinside : StringText quote inside) (hcs : LayerText .substitution cs) :
      LayerText .substitution (quote :: (inside ++ quote :: cs))
  | template {inside cs : List Char} (hinside : LayerText .own inside)
      (hcs : LayerText .substitution cs) : LayerText .substitution ('`' :: (inside ++ '`' :: cs))
  | comment {inside cs : List Char} (hinside : ¬ ['*', '/'] <:+: inside)
      (hcs : LayerText .substitution cs) :
      LayerText .substitution ('/' :: '*' :: (inside ++ '*' :: '/' :: cs))

/-! ## 2. Strings and comments -/

/-- A string that is read to its end holds a text of a string. -/
theorem StringText.of_readString {quote : Char} {cs : List Char} (h : (readString quote cs).closed = true) :
    ∃ body, StringText quote body ∧ (readString quote cs).taken = body ++ [quote] := by
  fun_induction readString quote cs with
  | case1 => simp at h
  | case2 => simp at h
  | case3 c hc d cs ih =>
    obtain ⟨body, hbody, htaken⟩ := ih h
    obtain rfl : c = '\\' := by simpa using hc
    exact ⟨'\\' :: d :: body, .escape hbody, by simp [Reading.cons, htaken]⟩
  | case4 => simp at h
  | case5 c cs _ _ hc =>
    obtain rfl : c = quote := by simpa using hc
    exact ⟨[], .nil, rfl⟩
  | case6 c cs hslash hbreak hquote ih =>
    obtain ⟨body, hbody, htaken⟩ := ih h
    exact ⟨c :: body, .plain (by simpa using hquote) (by simpa using hslash) (by simpa using hbreak) hbody,
      by simp [Reading.cons, htaken]⟩

/-- A text of a string is read up to the quote behind it. -/
theorem StringText.readString_append {quote : Char} (hslash : quote ≠ '\\') (hbreak : quote ≠ '\n')
    {body : List Char} (h : StringText quote body) (rest : List Char) :
    readString quote (body ++ quote :: rest) = ⟨body ++ [quote], rest, true⟩ := by
  induction h with
  | nil =>
    unfold readString
    simp [hslash, hbreak]
  | plain hquote hslash hbreak _ ih =>
    rw [List.cons_append]
    unfold readString
    simp [Reading.cons, hquote, hslash, hbreak, ih]
  | escape _ ih =>
    rw [List.cons_append, List.cons_append]
    unfold readString
    simp [Reading.cons, ih]

/-- A comment that is read to its end ends at its first closing mark. -/
theorem readBlockComment_closed {cs : List Char} (h : (readBlockComment cs).closed = true) :
    ∃ body, ¬ ['*', '/'] <:+: body ∧ (readBlockComment cs).taken = body ++ ['*', '/'] := by
  have happend := readBlockComment_append cs
  fun_induction readBlockComment cs with
  | case1 => simp at h
  | case2 => exact ⟨[], by simp, rfl⟩
  | case3 c cs hne ih =>
    have hrest := readBlockComment_append cs
    obtain ⟨body, hbody, htaken⟩ := ih h hrest
    refine ⟨c :: body, ?_, by simp [Reading.cons, htaken]⟩
    rw [List.infix_cons_iff, not_or]
    refine ⟨?_, hbody⟩
    rintro ⟨after, heq⟩
    obtain ⟨rfl, rfl⟩ := List.cons.inj heq
    rw [← hrest, htaken] at hne
    exact hne _ rfl rfl

theorem readBlockComment_append_closer {body : List Char} (h : ¬ ['*', '/'] <:+: body) (rest : List Char) :
    readBlockComment (body ++ '*' :: '/' :: rest) = ⟨body ++ ['*', '/'], rest, true⟩ := by
  induction body with
  | nil => rfl
  | cons c body ih =>
    rw [List.infix_cons_iff, not_or] at h
    rw [List.cons_append, readBlockComment, ih h.2]
    · rfl
    · rintro cs rfl heq
      -- the mark would start in the body, and the body is not empty behind it
      cases body with
      | nil => exact absurd (List.cons.inj heq).1 (by decide)
      | cons d body =>
        obtain rfl := (List.cons.inj heq).1
        exact h.1 ⟨body, rfl⟩

/-! ## 3. Open literals -/

/-- A layer is left: the literal ends, or one more of the braces of its substitution is closed. -/
inductive Leaves : Layer → List Frame → List Frame → Prop where
  | own {start : Nat} {outer : List Frame} : Leaves .own (⟨start, 0⟩ :: outer) outer
  | substitution {start braces : Nat} {outer : List Frame} :
      Leaves .substitution (⟨start, braces + 1⟩ :: outer) (⟨start, braces⟩ :: outer)

/-- The text closes the frames, innermost first. -/
inductive Closes : List Frame → List Char → Prop where
  | nil : Closes [] []
  | leave {layer : Layer} {frames outer : List Frame} {body cs : List Char}
      (hleaves : Leaves layer frames outer) (hbody : LayerText layer body) (hcs : Closes outer cs) :
      Closes frames (body ++ layer.closer :: cs)

theorem Closes.of_own {start : Nat} {outer : List Frame} {taken : List Char}
    (h : Closes (⟨start, 0⟩ :: outer) taken) :
    ∃ body cs, taken = body ++ '`' :: cs ∧ LayerText .own body ∧ Closes outer cs := by
  cases h with
  | leave hleaves hbody hcs =>
    cases hleaves
    exact ⟨_, _, rfl, hbody, hcs⟩

theorem Closes.of_substitution {start braces : Nat} {outer : List Frame} {taken : List Char}
    (h : Closes (⟨start, braces + 1⟩ :: outer) taken) :
    ∃ body cs, taken = body ++ '}' :: cs ∧ LayerText .substitution body ∧
      Closes (⟨start, braces⟩ :: outer) cs := by
  cases h with
  | leave hleaves hbody hcs =>
    cases hleaves
    exact ⟨_, _, rfl, hbody, hcs⟩

/-- A mark of two characters does not stand in front of a part of the text if it does not in front of the
text. -/
theorem not_prefix_of_append {c d e : Char} {cs body after : List Char}
    (h : ∀ rest, c = d → cs = e :: rest → False) (hcs : body ++ after = cs) : ¬ [d, e] <+: c :: body := by
  rintro ⟨rest, heq⟩
  obtain ⟨hc, hbody⟩ := List.cons.inj heq
  exact h (rest ++ after) hc.symm (by rw [← hcs, ← hbody]; rfl)

section

variable {start braces : Nat} {outer : List Frame} {c : Char} {taken : List Char}

theorem Closes.plain (hquote : c ≠ '`') (hslash : c ≠ '\\') (hopen : ¬ ['$', '{'] <+: c :: taken)
    (h : Closes (⟨start, 0⟩ :: outer) taken) : Closes (⟨start, 0⟩ :: outer) (c :: taken) := by
  obtain ⟨body, cs, rfl, hbody, hcs⟩ := h.of_own
  have hopen : ¬ ['$', '{'] <+: c :: body := fun starts =>
    hopen (starts.trans (List.prefix_append (c :: body) _))
  exact .leave .own (.plain hquote hslash hopen hbody) hcs

theorem Closes.escape (h : Closes (⟨start, 0⟩ :: outer) taken) :
    Closes (⟨start, 0⟩ :: outer) ('\\' :: c :: taken) := by
  obtain ⟨body, cs, rfl, hbody, hcs⟩ := h.of_own
  exact .leave .own (.escape hbody) hcs

theorem Closes.opens (h : Closes (⟨start, 1⟩ :: outer) taken) :
    Closes (⟨start, 0⟩ :: outer) ('$' :: '{' :: taken) := by
  obtain ⟨inside, more, rfl, hinside, hmore⟩ := h.of_substitution
  obtain ⟨body, cs, rfl, hbody, hcs⟩ := hmore.of_own
  have hcloses := Closes.leave (@Leaves.own start _) (.substitution hinside hbody) hcs
  simpa [Layer.closer] using hcloses

theorem Closes.code (hmark : c ∉ ['{', '}', '"', '\'', '`']) (hopen : ¬ ['/', '*'] <+: c :: taken)
    (h : Closes (⟨start, braces + 1⟩ :: outer) taken) : Closes (⟨start, braces + 1⟩ :: outer) (c :: taken) := by
  obtain ⟨body, cs, rfl, hbody, hcs⟩ := h.of_substitution
  have hopen : ¬ ['/', '*'] <+: c :: body := fun starts =>
    hopen (starts.trans (List.prefix_append (c :: body) _))
  exact .leave .substitution (.code hmark hopen hbody) hcs

theorem Closes.brace (h : Closes (⟨start, braces + 2⟩ :: outer) taken) :
    Closes (⟨start, braces + 1⟩ :: outer) ('{' :: taken) := by
  obtain ⟨inside, more, rfl, hinside, hmore⟩ := h.of_substitution
  obtain ⟨body, cs, rfl, hbody, hcs⟩ := hmore.of_substitution
  have hcloses := Closes.leave (@Leaves.substitution start _ _) (.braces hinside hbody) hcs
  simpa [Layer.closer] using hcloses

theorem Closes.string {inside : List Char} (hquote : c = '"' ∨ c = '\'') (hinside : StringText c inside)
    (h : Closes (⟨start, braces + 1⟩ :: outer) taken) :
    Closes (⟨start, braces + 1⟩ :: outer) (c :: (inside ++ c :: taken)) := by
  obtain ⟨body, cs, rfl, hbody, hcs⟩ := h.of_substitution
  have hcloses := Closes.leave (@Leaves.substitution start _ _) (.string hquote hinside hbody) hcs
  simpa [Layer.closer] using hcloses

theorem Closes.template {pos : Nat} (h : Closes (⟨pos, 0⟩ :: ⟨start, braces + 1⟩ :: outer) taken) :
    Closes (⟨start, braces + 1⟩ :: outer) ('`' :: taken) := by
  obtain ⟨inside, more, rfl, hinside, hmore⟩ := h.of_own
  obtain ⟨body, cs, rfl, hbody, hcs⟩ := hmore.of_substitution
  have hcloses := Closes.leave (@Leaves.substitution start _ _) (.template hinside hbody) hcs
  simpa [Layer.closer] using hcloses

theorem Closes.comment {inside : List Char} (hinside : ¬ ['*', '/'] <:+: inside)
    (h : Closes (⟨start, braces + 1⟩ :: outer) taken) :
    Closes (⟨start, braces + 1⟩ :: outer) ('/' :: '*' :: (inside ++ '*' :: '/' :: taken)) := by
  obtain ⟨body, cs, rfl, hbody, hcs⟩ := h.of_substitution
  have hcloses := Closes.leave (@Leaves.substitution start _ _) (.comment hinside hbody) hcs
  simpa [Layer.closer] using hcloses

end

/-- **What is read** of open literals closes them. -/
theorem Closes.of_readTemplate {frames : List Frame} {pos : Nat} {cs : List Char} (r : TemplateReading)
    (h : readTemplate frames pos cs = .ok r) : Closes frames r.taken := by
  fun_induction readTemplate frames pos cs generalizing r with
  | case1 =>
    cases h
    exact .nil
  | case2 => cases h
  | case3 => cases h
  | case11 => cases h
  | case14 => cases h
  -- the text of the literal itself
  | case4 pos frame outer c after hbraces hc d cs ih =>
    obtain ⟨more, hmore, rfl⟩ := map_eq_ok.1 h
    obtain ⟨start, braces⟩ := frame
    obtain rfl : braces = 0 := hbraces
    obtain rfl : c = '\\' := by simpa using hc
    exact (ih more hmore).escape
  | case5 pos frame outer c cs after hbraces _ hc ih =>
    obtain ⟨more, hmore, rfl⟩ := map_eq_ok.1 h
    obtain ⟨start, braces⟩ := frame
    obtain rfl : braces = 0 := hbraces
    obtain rfl : c = '`' := by simpa using hc
    exact .leave .own .nil (ih more hmore)
  | case6 pos frame outer hbraces cs after _ _ ih =>
    obtain ⟨more, hmore, rfl⟩ := map_eq_ok.1 h
    obtain ⟨start, braces⟩ := frame
    obtain rfl : braces = 0 := hbraces
    exact (ih more hmore).opens
  | case7 pos frame outer hbraces c cs hopen after hslash hquote ih =>
    obtain ⟨more, hmore, rfl⟩ := map_eq_ok.1 h
    obtain ⟨start, braces⟩ := frame
    obtain rfl : braces = 0 := hbraces
    have hopen := not_prefix_of_append hopen (readTemplate_append hmore)
    exact (ih more hmore).plain (by simpa using hquote) (by simpa using hslash) hopen
  -- the code of a substitution
  | case8 pos frame outer c cs after hbraces hc ih =>
    obtain ⟨more, hmore, rfl⟩ := map_eq_ok.1 h
    obtain ⟨start, braces⟩ := frame
    obtain ⟨braces, rfl⟩ := Nat.exists_eq_succ_of_ne_zero hbraces
    obtain rfl : c = '{' := by simpa using hc
    exact (ih more hmore).brace
  | case9 pos frame outer c cs after hbraces _ hc ih =>
    obtain ⟨more, hmore, rfl⟩ := map_eq_ok.1 h
    obtain ⟨start, braces⟩ := frame
    obtain ⟨braces, rfl⟩ := Nat.exists_eq_succ_of_ne_zero hbraces
    obtain rfl : c = '}' := by simpa using hc
    exact .leave .substitution .nil (ih more hmore)
  | case10 pos frame outer c cs after hbraces _ _ hc body stop _ hclosed ih =>
    obtain ⟨more, hmore, rfl⟩ := map_eq_ok.1 h
    obtain ⟨start, braces⟩ := frame
    obtain ⟨braces, rfl⟩ := Nat.exists_eq_succ_of_ne_zero hbraces
    have hquote : c = '"' ∨ c = '\'' := by simpa using hc
    obtain ⟨inside, hinside, hstring⟩ := StringText.of_readString hclosed
    simpa [TemplateReading.prepend, body, hstring] using (ih more hmore).string hquote hinside
  | case12 pos frame outer c cs after hbraces _ _ _ hc ih =>
    obtain ⟨more, hmore, rfl⟩ := map_eq_ok.1 h
    obtain ⟨start, braces⟩ := frame
    obtain ⟨braces, rfl⟩ := Nat.exists_eq_succ_of_ne_zero hbraces
    obtain rfl : c = '`' := by simpa using hc
    exact (ih more hmore).template
  | case13 pos frame outer hbraces cs body _ hclosed after _ _ _ _ stop ih =>
    obtain ⟨more, hmore, rfl⟩ := map_eq_ok.1 h
    obtain ⟨start, braces⟩ := frame
    obtain ⟨braces, rfl⟩ := Nat.exists_eq_succ_of_ne_zero hbraces
    obtain ⟨inside, hinside, hcomment⟩ := readBlockComment_closed hclosed
    simpa [TemplateReading.prepend, body, hcomment] using (ih more hmore).comment hinside
  | case15 pos frame outer hbraces c cs hopen after hbrace hcloser hquote hback ih =>
    obtain ⟨more, hmore, rfl⟩ := map_eq_ok.1 h
    obtain ⟨start, braces⟩ := frame
    obtain ⟨braces, rfl⟩ := Nat.exists_eq_succ_of_ne_zero hbraces
    have hopen := not_prefix_of_append hopen (readTemplate_append hmore)
    have hmark : c ∉ ['{', '}', '"', '\'', '`'] := by simp_all
    exact (ih more hmore).code hmark hopen

/-! ## 4. Reading on -/

/-- The frames are open in front of the text, and are closed where `rest` starts. -/
def ReadsTo (frames : List Frame) (cs rest : List Char) : Prop :=
  ∀ pos, ∃ r, readTemplate frames pos cs = .ok r ∧ r.rest = rest

theorem ReadsTo.of_map {frames inner : List Frame} {cs more rest : List Char} (h : ReadsTo inner more rest)
    (hstep : ∀ pos, ∃ next before sawBreak,
      readTemplate frames pos cs = (readTemplate inner next more).map (·.prepend before sawBreak)) :
    ReadsTo frames cs rest := by
  intro pos
  obtain ⟨next, before, sawBreak, hread⟩ := hstep pos
  obtain ⟨r, hr, hrest⟩ := h next
  rw [hr] at hread
  exact ⟨r.prepend before sawBreak, hread, hrest⟩

variable {start braces : Nat} {outer : List Frame} {c : Char} {cs rest : List Char}

/-! One step of the reader for each kind of text that can stand in front. -/

theorem readTemplate_plain (hquote : c ≠ '`') (hslash : c ≠ '\\') (hopen : ¬ ['$', '{'] <+: c :: cs)
    (pos : Nat) : readTemplate (⟨start, 0⟩ :: outer) pos (c :: cs) =
      (readTemplate (⟨start, 0⟩ :: outer) (pos + c.utf8Size) cs).map (·.prepend [c] false) := by
  conv => lhs; unfold readTemplate
  simp only [hquote, hslash, beq_iff_eq, if_true, if_false]
  split
  next => exact absurd ⟨_, rfl⟩ hopen
  next => rfl

theorem readTemplate_escape (pos : Nat) : readTemplate (⟨start, 0⟩ :: outer) pos ('\\' :: c :: cs) =
    (readTemplate (⟨start, 0⟩ :: outer) (pos + '\\'.utf8Size + c.utf8Size) cs).map
      (·.prepend ['\\', c] false) := by
  conv => lhs; unfold readTemplate
  rfl

theorem readTemplate_opens (pos : Nat) : readTemplate (⟨start, 0⟩ :: outer) pos ('$' :: '{' :: cs) =
    (readTemplate (⟨start, 1⟩ :: outer) (pos + '$'.utf8Size + 1) cs).map (·.prepend ['$', '{'] false) := by
  conv => lhs; unfold readTemplate
  rfl

theorem readTemplate_leaves {layer : Layer} {frames outer : List Frame} (hleaves : Leaves layer frames outer)
    (pos : Nat) : readTemplate frames pos (layer.closer :: cs) =
      (readTemplate outer (pos + layer.closer.utf8Size) cs).map (·.prepend [layer.closer] false) := by
  conv => lhs; unfold readTemplate
  cases hleaves with
  | own => rfl
  | substitution => rfl

theorem readTemplate_code (hmark : c ∉ ['{', '}', '"', '\'', '`']) (hopen : ¬ ['/', '*'] <+: c :: cs)
    (pos : Nat) : readTemplate (⟨start, braces + 1⟩ :: outer) pos (c :: cs) =
      (readTemplate (⟨start, braces + 1⟩ :: outer) (pos + c.utf8Size) cs).map (·.prepend [c] false) := by
  simp only [List.mem_cons, List.not_mem_nil, or_false, not_or] at hmark
  obtain ⟨hbrace, hcloser, hdouble, hsingle, hback⟩ := hmark
  conv => lhs; unfold readTemplate
  simp only [hbrace, hcloser, hdouble, hsingle, hback, beq_iff_eq, Bool.or_eq_true, or_self, if_false,
    Nat.add_one_ne_zero]
  split
  next => exact absurd ⟨_, rfl⟩ hopen
  next => rfl

theorem readTemplate_brace (pos : Nat) : readTemplate (⟨start, braces + 1⟩ :: outer) pos ('{' :: cs) =
    (readTemplate (⟨start, braces + 2⟩ :: outer) (pos + '{'.utf8Size) cs).map (·.prepend ['{'] false) := by
  conv => lhs; unfold readTemplate
  rfl

theorem readTemplate_string {inside : List Char} (hquote : c = '"' ∨ c = '\'') (hinside : StringText c inside)
    (pos : Nat) : readTemplate (⟨start, braces + 1⟩ :: outer) pos (c :: (inside ++ c :: cs)) =
      (readTemplate (⟨start, braces + 1⟩ :: outer) (pos + c.utf8Size + byteLength (inside ++ [c])) cs).map
        (·.prepend (c :: (inside ++ [c])) false) := by
  have hstring := hinside.readString_append (by rcases hquote with rfl | rfl <;> decide)
    (by rcases hquote with rfl | rfl <;> decide) cs
  have hmark : c ≠ '{' ∧ c ≠ '}' := by rcases hquote with rfl | rfl <;> decide
  conv => lhs; unfold readTemplate
  simp only [hmark.1, hmark.2, hquote, hstring, beq_iff_eq, Bool.or_eq_true, if_true, if_false,
    Nat.add_one_ne_zero]

theorem readTemplate_template (pos : Nat) : readTemplate (⟨start, braces + 1⟩ :: outer) pos ('`' :: cs) =
    (readTemplate (⟨pos, 0⟩ :: ⟨start, braces + 1⟩ :: outer) (pos + '`'.utf8Size) cs).map
      (·.prepend ['`'] false) := by
  conv => lhs; unfold readTemplate
  rfl

theorem readTemplate_comment {inside : List Char} (hinside : ¬ ['*', '/'] <:+: inside) (pos : Nat) :
    readTemplate (⟨start, braces + 1⟩ :: outer) pos ('/' :: '*' :: (inside ++ '*' :: '/' :: cs)) =
      (readTemplate (⟨start, braces + 1⟩ :: outer)
        (pos + '/'.utf8Size + 1 + byteLength (inside ++ ['*', '/'])) cs).map
        (·.prepend ('/' :: '*' :: (inside ++ ['*', '/'])) ((inside ++ ['*', '/']).contains '\n')) := by
  have hcomment := readBlockComment_append_closer hinside cs
  conv => lhs; unfold readTemplate
  simp only [hcomment]
  rfl

theorem ReadsTo.plain (hquote : c ≠ '`') (hslash : c ≠ '\\') (hopen : ¬ ['$', '{'] <+: c :: cs)
    (h : ReadsTo (⟨start, 0⟩ :: outer) cs rest) : ReadsTo (⟨start, 0⟩ :: outer) (c :: cs) rest :=
  h.of_map fun pos => ⟨_, _, _, readTemplate_plain hquote hslash hopen pos⟩

theorem ReadsTo.escape (h : ReadsTo (⟨start, 0⟩ :: outer) cs rest) :
    ReadsTo (⟨start, 0⟩ :: outer) ('\\' :: c :: cs) rest :=
  h.of_map fun pos => ⟨_, _, _, readTemplate_escape pos⟩

theorem ReadsTo.opens (h : ReadsTo (⟨start, 1⟩ :: outer) cs rest) :
    ReadsTo (⟨start, 0⟩ :: outer) ('$' :: '{' :: cs) rest :=
  h.of_map fun pos => ⟨_, _, _, readTemplate_opens pos⟩

theorem ReadsTo.leaves {layer : Layer} {frames outer : List Frame} (hleaves : Leaves layer frames outer)
    (h : ReadsTo outer cs rest) : ReadsTo frames (layer.closer :: cs) rest :=
  h.of_map fun pos => ⟨_, _, _, readTemplate_leaves hleaves pos⟩

theorem ReadsTo.code (hmark : c ∉ ['{', '}', '"', '\'', '`']) (hopen : ¬ ['/', '*'] <+: c :: cs)
    (h : ReadsTo (⟨start, braces + 1⟩ :: outer) cs rest) :
    ReadsTo (⟨start, braces + 1⟩ :: outer) (c :: cs) rest :=
  h.of_map fun pos => ⟨_, _, _, readTemplate_code hmark hopen pos⟩

theorem ReadsTo.brace (h : ReadsTo (⟨start, braces + 2⟩ :: outer) cs rest) :
    ReadsTo (⟨start, braces + 1⟩ :: outer) ('{' :: cs) rest :=
  h.of_map fun pos => ⟨_, _, _, readTemplate_brace pos⟩

theorem ReadsTo.string {inside : List Char} (hquote : c = '"' ∨ c = '\'') (hinside : StringText c inside)
    (h : ReadsTo (⟨start, braces + 1⟩ :: outer) cs rest) :
    ReadsTo (⟨start, braces + 1⟩ :: outer) (c :: (inside ++ c :: cs)) rest :=
  h.of_map fun pos => ⟨_, _, _, readTemplate_string hquote hinside pos⟩

theorem ReadsTo.template (h : ∀ pos, ReadsTo (⟨pos, 0⟩ :: ⟨start, braces + 1⟩ :: outer) cs rest) :
    ReadsTo (⟨start, braces + 1⟩ :: outer) ('`' :: cs) rest := by
  -- the new frame starts at the offset, so the step is taken at each offset by itself
  intro pos
  obtain ⟨r, hread, hrest⟩ := h pos (pos + '`'.utf8Size)
  exact ⟨r.prepend ['`'] false, by rw [readTemplate_template, hread]; rfl, hrest⟩

theorem ReadsTo.comment {inside : List Char} (hinside : ¬ ['*', '/'] <:+: inside)
    (h : ReadsTo (⟨start, braces + 1⟩ :: outer) cs rest) :
    ReadsTo (⟨start, braces + 1⟩ :: outer) ('/' :: '*' :: (inside ++ '*' :: '/' :: cs)) rest :=
  h.of_map fun pos => ⟨_, _, _, readTemplate_comment hinside pos⟩

/-- A mark of two characters does not come about where a closer is put behind a text. -/
theorem not_prefix_append_closer {d e : Char} (closer : Char) (hne : e ≠ closer) {body : List Char}
    (h : ¬ [d, e] <+: c :: body) (rest : List Char) : ¬ [d, e] <+: c :: (body ++ closer :: rest) := by
  rintro ⟨after, heq⟩
  obtain ⟨rfl, hbody⟩ := List.cons.inj heq
  cases body with
  | nil => exact hne (List.cons.inj hbody).1
  | cons b body =>
    obtain rfl := (List.cons.inj hbody).1
    exact h ⟨body, rfl⟩

/-- A text of a layer is read, and what follows it is read behind the layer. -/
theorem LayerText.readsTo {layer : Layer} {body : List Char} (hbody : LayerText layer body)
    {frames outer : List Frame} (hleaves : Leaves layer frames outer) (h : ReadsTo outer cs rest) :
    ReadsTo frames (body ++ layer.closer :: cs) rest := by
  induction hbody generalizing frames outer cs with
  | nil => exact h.leaves hleaves
  | plain hquote hslash hopen _ ih =>
    have hopen := not_prefix_append_closer Layer.own.closer (by decide) hopen cs
    cases hleaves
    exact (ih .own h).plain hquote hslash hopen
  | escape _ ih =>
    cases hleaves
    exact (ih .own h).escape
  | substitution _ _ ihinside ih =>
    cases hleaves
    rw [List.cons_append, List.cons_append, List.append_assoc]
    exact (ihinside .substitution (ih .own h)).opens
  | code hmark hopen _ ih =>
    have hopen := not_prefix_append_closer Layer.substitution.closer (by decide) hopen cs
    cases hleaves
    exact (ih .substitution h).code hmark hopen
  | braces _ _ ihinside ih =>
    cases hleaves
    rw [List.cons_append, List.append_assoc]
    exact (ihinside .substitution (ih .substitution h)).brace
  | string hquote hinside _ ih =>
    cases hleaves
    rw [List.cons_append, List.append_assoc]
    exact (ih .substitution h).string hquote hinside
  | template _ _ ihinside ih =>
    cases hleaves
    rw [List.cons_append, List.append_assoc]
    exact ReadsTo.template fun pos => ihinside .own (ih .substitution h)
  | comment hinside _ ih =>
    cases hleaves
    rw [List.cons_append, List.cons_append, List.append_assoc]
    exact (ih .substitution h).comment hinside

/-- **What closes** open literals is read to its end. -/
theorem Closes.readsTo {frames : List Frame} {taken : List Char} (h : Closes frames taken)
    (rest : List Char) : ReadsTo frames (taken ++ rest) rest := by
  induction h with
  | nil => exact fun pos => ⟨⟨[], rest, false⟩, by simp [readTemplate], rfl⟩
  | leave hleaves hbody _ ih =>
    rw [List.append_assoc]
    exact hbody.readsTo hleaves ih

/-! ## 5. One token -/

/-- The text is read as exactly one token of the kind, which spans all of it. -/
def IsToken (kind : TokenKind) (text : String) : Prop :=
  ∃ t, tokenize text = .ok [t] ∧ t.kind = kind ∧ t.span = ⟨0, text.utf8ByteSize⟩

/-- Tokens of a text whose first piece is a token. -/
theorem tokenize_of_readPiece {kind : TokenKind} {c : Char} {cs : List Char} {piece : Piece}
    (h : readPiece 0 none c cs = .ok piece) (hkind : piece.kind = some kind) :
    ∃ t : Token, t.kind = kind ∧ t.span = ⟨0, byteLength piece.taken⟩ ∧
      tokenize (String.ofList (c :: cs)) =
        (tokensFrom (byteLength piece.taken) (some t) false piece.rest).map (t :: ·) := by
  refine ⟨⟨kind, String.ofList piece.taken, ⟨0, byteLength piece.taken⟩, piece.sawBreak⟩, rfl, rfl, ?_⟩
  rw [tokenize, String.toList_ofList]
  conv => lhs; unfold tokensFrom
  split
  next heq => exact absurd (heq.symm.trans h) (by simp)
  next other heq =>
    obtain rfl : other = piece := by simpa using heq.symm.trans h
    simp [hkind]

/-- A text whose first piece is a token is one token exactly if the piece leaves nothing. -/
theorem isToken_of_readPiece {kind : TokenKind} {c : Char} {cs : List Char} {piece : Piece}
    (h : readPiece 0 none c cs = .ok piece) (hkind : piece.kind = some kind) :
    IsToken kind (String.ofList (c :: cs)) ↔ piece.rest = [] := by
  obtain ⟨tail, htaken, hcs⟩ := readPiece_append h
  obtain ⟨first, hfirst, hplace, hread⟩ := tokenize_of_readPiece h hkind
  have hsize : (String.ofList (c :: cs)).utf8ByteSize = byteLength piece.taken + byteLength piece.rest := by
    rw [← byteLength_toList, String.toList_ofList, ← hcs, htaken, ← List.cons_append, byteLength_append]
  rw [IsToken, hread, hsize]
  constructor
  · rintro ⟨t, ht, -, hspan⟩
    obtain ⟨ts, -, hts⟩ := map_eq_ok.1 ht
    obtain ⟨rfl, -⟩ := List.cons.inj hts
    have hstop := congrArg Span.stop (hplace.symm.trans hspan)
    exact eq_nil_of_byteLength_eq_zero (by simpa using hstop)
  · intro hrest
    exact ⟨first, by simp [hrest, tokensFrom, Except.map], hfirst, by simpa [hrest] using hplace⟩

theorem not_isToken_of_readPiece {kind : TokenKind} {c : Char} {cs : List Char} {fault : Fault}
    (h : readPiece 0 none c cs = .error fault) : ¬ IsToken kind (String.ofList (c :: cs)) := by
  rintro ⟨t, ht, -⟩
  rw [tokenize, String.toList_ofList] at ht
  unfold tokensFrom at ht
  split at ht
  next => cases ht
  next heq => exact absurd (heq.symm.trans h) (by simp)

/-- **A string** is one token exactly if a text of a string stands between its quotes. -/
theorem isToken_string_iff {quote : Char} (hquote : quote = '"' ∨ quote = '\'') (body : List Char) :
    IsToken .string (String.ofList (quote :: (body ++ [quote]))) ↔ StringText quote body := by
  have hslash : quote ≠ '\\' := by rcases hquote with rfl | rfl <;> decide
  have hbreak : quote ≠ '\n' := by rcases hquote with rfl | rfl <;> decide
  have hpiece : readPiece 0 none quote (body ++ [quote]) =
      Piece.ofReading (some .string) [quote] .unterminatedString 0 (readString quote (body ++ [quote])) := by
    rcases hquote with rfl | rfl <;> rfl
  constructor
  · intro htoken
    by_cases hclosed : (readString quote (body ++ [quote])).closed = true
    · rw [Piece.ofReading, if_pos hclosed] at hpiece
      have hrest : (readString quote (body ++ [quote])).rest = [] :=
        (isToken_of_readPiece hpiece rfl).1 htoken
      obtain ⟨text, htext, htaken⟩ := StringText.of_readString hclosed
      have hparts := readString_append quote (body ++ [quote])
      rw [htaken, hrest, List.append_nil] at hparts
      obtain rfl := List.append_cancel_right hparts
      exact htext
    · rw [Piece.ofReading, if_neg hclosed] at hpiece
      exact absurd htoken (not_isToken_of_readPiece hpiece)
  · intro htext
    rw [htext.readString_append hslash hbreak] at hpiece
    exact (isToken_of_readPiece hpiece rfl).2 rfl

/-- **A template literal** is one token exactly if a text of its own layer stands between its quotes. -/
theorem isToken_template_iff (body : List Char) :
    IsToken .template (String.ofList ('`' :: (body ++ ['`']))) ↔ LayerText .own body := by
  have hpiece : readPiece 0 none '`' (body ++ ['`']) =
      (readTemplate [⟨0, 0⟩] 1 (body ++ ['`'])).map fun r =>
        ⟨some .template, '`' :: r.taken, r.rest, r.sawBreak⟩ := rfl
  constructor
  · intro htoken
    cases hread : readTemplate [⟨0, 0⟩] 1 (body ++ ['`']) with
    | error fault =>
      rw [hread] at hpiece
      exact absurd htoken (not_isToken_of_readPiece hpiece)
    | ok r =>
      rw [hread] at hpiece
      have hrest : r.rest = [] := (isToken_of_readPiece hpiece rfl).1 htoken
      obtain ⟨text, cs, htaken, htext, hcs⟩ := (Closes.of_readTemplate r hread).of_own
      have hparts := readTemplate_append hread
      cases hcs with
      | nil =>
        rw [htaken, hrest, List.append_nil] at hparts
        obtain rfl := List.append_cancel_right hparts
        exact htext
      | leave hleaves => cases hleaves
  · intro htext
    have hcloses := Closes.leave (@Leaves.own 0 _) htext .nil
    obtain ⟨r, hread, hrest⟩ := hcloses.readsTo [] 1
    rw [List.append_nil] at hread
    rw [show readTemplate [⟨0, 0⟩] 1 (body ++ ['`']) = .ok r from hread] at hpiece
    exact (isToken_of_readPiece hpiece rfl).2 hrest

end ComponentLens.Script
