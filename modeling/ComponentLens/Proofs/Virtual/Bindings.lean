/-
# The bindings that two documents share

What the setup block binds is written down twice.  The script document returns it from the setup function, as one
line per binding, and the template document declares it, together with the inputs, as one line per name.  A request
goes from the one document to the other along two links: from the value returned to its key, and from the property
of the component to the variable declared.

`build_bindings` says that the two lists fit.  The names declared are those returned and the inputs, each once,
however often a name is returned and whatever else is an input of that name.  Every line of either list has its
link, and no other link leads from one document to the other (`Lists`), so no chain of references breaks in between
and none ends at a name that is not listed.
-/
import ComponentLens.Proofs.Virtual.LabelDeclarations
import ComponentLens.Proofs.Virtual.LinksBothWays

namespace ComponentLens

/-! ## 1. Lines with a link -/

/-- A line of generated code that links two of its own places. -/
structure LinkedLine where
  text : List Char
  link : Mapping LinkData

/-- The links of lines that stand one behind the other from offset `pos` on. -/
def LinkedLine.linksFrom (pos : Nat) : List LinkedLine → List (Mapping LinkData)
  | [] => []
  | line :: lines => line.link.move pos :: linksFrom (pos + byteLength line.text) lines

/-- The links that lead to the symbol itself on the way from code to markup. -/
def bindingLinks (links : List (Mapping LinkData)) : List (Mapping LinkData) :=
  links.filter fun link => link.data.direction == .scriptToTemplate && !link.data.isAdditionalReference

/-- A text holds the lines between two others, and its binding links are those of the lines. -/
def Lists (text : List Char) (links : List (Mapping LinkData)) (opening : String) (lines : List LinkedLine)
    (closing : String) : Prop :=
  ∃ front back, text = front ++ (opening.toList ++ (lines.flatMap (·.text) ++ (closing.toList ++ back))) ∧
    bindingLinks links = LinkedLine.linksFrom (byteLength (front ++ opening.toList)) lines

theorem LinkedLine.linksFrom_move (lines : List LinkedLine) (pos base : Nat) :
    (linksFrom pos lines).map (·.move base) = linksFrom (base + pos) lines := by
  induction lines generalizing pos with
  | nil => rfl
  | cons line lines ih =>
    have hmove : (line.link.move pos).move base = line.link.move (base + pos) := by
      simp [Mapping.move, Mapping.shiftSource, Mapping.shiftTarget, Span.shift, Nat.add_comm, Nat.add_left_comm]
    simp only [linksFrom, List.map_cons, ih, hmove, Nat.add_assoc]

theorem bindingLinks_append (links others : List (Mapping LinkData)) :
    bindingLinks (links ++ others) = bindingLinks links ++ bindingLinks others := List.filter_append ..

/-- Moving a link leaves it the link that it is. -/
theorem bindingLinks_move (links : List (Mapping LinkData)) (base : Nat) :
    bindingLinks (links.map (·.move base)) = (bindingLinks links).map (·.move base) := List.filter_map

namespace LinkedText

/-- The piece has no binding link. -/
def Unbound (t : LinkedText) : Prop := bindingLinks t.links = []

/-- The piece is a line, and has the link of the line. -/
def IsLine (t : LinkedText) (line : LinkedLine) : Prop := t.chars = line.text ∧ bindingLinks t.links = [line.link]

/-- The piece lists the lines between two others. -/
abbrev Lists (t : LinkedText) : String → List LinkedLine → String → Prop := ComponentLens.Lists t.chars t.links

variable {ts : List LinkedText} {lines : List LinkedLine} {opening closing : String}

theorem unbound_of_links_nil {t : LinkedText} (h : t.links = []) : t.Unbound := by simp [Unbound, h, bindingLinks]

theorem bindingLinks_linksFrom_cons (pos : Nat) (t : LinkedText) (ts : List LinkedText) :
    bindingLinks (linksFrom pos (t :: ts)) =
      (bindingLinks t.links).map (·.move pos) ++ bindingLinks (linksFrom (pos + t.body.size) ts) := by
  rw [linksFrom, bindingLinks_append, ← bindingLinks_move]
  rfl

theorem bindingLinks_of_unbound (h : ∀ t ∈ ts, t.Unbound) (pos : Nat) : bindingLinks (linksFrom pos ts) = [] := by
  induction ts generalizing pos with
  | nil => rfl
  | cons t ts ih =>
    have ht : bindingLinks t.links = [] := h t List.mem_cons_self
    rw [bindingLinks_linksFrom_cons, ht, ih fun u hu => h u (List.mem_cons_of_mem _ hu)]
    rfl

theorem unbound_joined : Joined Unbound where
  plain := fun _ => unbound_of_links_nil rfl
  concat := fun _ h => bindingLinks_of_unbound h 0

/-- Pieces that are lines have the links of the lines. -/
theorem bindingLinks_of_lines (h : List.Forall₂ IsLine ts lines) (pos : Nat) :
    bindingLinks (linksFrom pos ts) = LinkedLine.linksFrom pos lines := by
  induction h generalizing pos with
  | nil => rfl
  | @cons t line ts lines ht _ ih =>
    obtain ⟨hchars, hlink⟩ := ht
    rw [bindingLinks_linksFrom_cons, hlink, ih, size_eq, hchars]
    rfl

theorem chars_of_lines (h : List.Forall₂ IsLine ts lines) : ts.flatMap chars = lines.flatMap (·.text) := by
  induction h with
  | nil => rfl
  | cons ht _ ih => rw [List.flatMap_cons, List.flatMap_cons, ht.1, ih]

/-- **Lines between two texts** are listed by the whole, if nothing around them has a binding link. -/
theorem lists_concat (front back : List LinkedText) (hfront : ∀ t ∈ front, t.Unbound)
    (hlines : List.Forall₂ IsLine ts lines) (hback : ∀ t ∈ back, t.Unbound) :
    (concat (front ++ (plain opening :: (ts ++ (plain closing :: back))))).Lists opening lines closing := by
  refine ⟨front.flatMap chars, back.flatMap chars, ?_, ?_⟩
  · rw [chars_concat, ← chars_of_lines hlines]
    simp only [List.flatMap_append, List.flatMap_cons, chars_plain]
  · have hopening : (plain opening).Unbound := unbound_of_links_nil rfl
    have hclosing : (plain closing).Unbound := unbound_of_links_nil rfl
    have hbehind : ∀ pos, bindingLinks (linksFrom pos (plain closing :: back)) = [] :=
      bindingLinks_of_unbound (List.forall_mem_cons.2 ⟨hclosing, hback⟩)
    show bindingLinks (linksFrom 0 _) = _
    rw [linksFrom_append, bindingLinks_append, bindingLinks_of_unbound hfront, List.nil_append,
      bindingLinks_linksFrom_cons, hopening, linksFrom_append, bindingLinks_append, hbehind,
      bindingLinks_of_lines hlines, List.append_nil, size_eq, chars_plain, Nat.zero_add, byteLength_append]
    rfl

/-- What a piece lists is listed by what it is joined to, if nothing else there has a binding link. -/
theorem Lists.concat {t : LinkedText} (h : t.Lists opening lines closing) (front back : List LinkedText)
    (hfront : ∀ u ∈ front, u.Unbound) (hback : ∀ u ∈ back, u.Unbound) :
    (concat (front ++ (t :: back))).Lists opening lines closing := by
  obtain ⟨before, behind, hchars, hlinks⟩ := h
  refine ⟨front.flatMap chars ++ before, behind ++ back.flatMap chars, ?_, ?_⟩
  · rw [chars_concat, List.flatMap_append, List.flatMap_cons, hchars]
    simp only [List.append_assoc]
  · show bindingLinks (linksFrom 0 _) = _
    rw [linksFrom_append, bindingLinks_append, bindingLinks_of_unbound hfront, List.nil_append,
      bindingLinks_linksFrom_cons, hlinks, bindingLinks_of_unbound hback, List.append_nil,
      LinkedLine.linksFrom_move, Nat.zero_add, List.append_assoc, byteLength_append (front.flatMap chars)]

/-- A document lists what the text that it is made of lists. -/
theorem Lists.document {t : LinkedText} (h : t.Lists opening lines closing) (uri : Uri) (languageId : String) :
    ComponentLens.Lists (Virtual.CodeDocument.ofText uri languageId t).document.text.toList
      (Virtual.CodeDocument.ofText uri languageId t).links.map.mappings opening lines closing := h

/-! ## 2. Where marks stand -/

theorem chars_mark (t : LinkedText) : t.mark.chars = t.chars := rfl

theorem marks_concat_eq (ts : List LinkedText) : (concat ts).marks = marksFrom 0 ts := rfl

theorem marksFrom_nil (pos : Nat) : marksFrom pos [] = [] := rfl

theorem marksFrom_plain (pos : Nat) (text : String) (ts : List LinkedText) :
    marksFrom pos (plain text :: ts) = marksFrom (pos + text.utf8ByteSize) ts := rfl

theorem marksFrom_mark {t : LinkedText} (h : t.Bare) (pos : Nat) (ts : List LinkedText) :
    marksFrom pos (t.mark :: ts) = ⟨pos, pos + t.body.size⟩ :: marksFrom (pos + t.body.size) ts := by
  simp [marksFrom, mark, h.marks, Span.shift, Nat.add_comm]

end LinkedText

namespace Virtual

open Script

/-! ## 3. The two kinds of lines -/

/-- The place of a name behind other text. -/
def placeBehind (before name : String) : Span :=
  ⟨before.utf8ByteSize, before.utf8ByteSize + name.utf8ByteSize⟩

/-- A link from a place of code to the symbol that it stands for. Every kind of request follows it. -/
def binding (use symbol : Span) : Mapping LinkData :=
  ⟨{ direction := .scriptToTemplate, capabilities := .all }, .offset, use, symbol, []⟩

/-- A line of the returned object: the value is linked to the key. -/
def returnedLine (separator name : String) : LinkedLine where
  text := (name ++ ": " ++ name ++ separator).toList
  link := binding (placeBehind (name ++ ": ") name) (placeBehind "" name)

/-- A declaration of a name: the property of the component is linked to the variable. -/
def declaredLine (isInput : Bool) (name : String) : LinkedLine where
  text := ("declare var " ++ name ++ ": typeof __VLS_ctx." ++ name ++ ";" ++
    (if isInput then " __VLS_options.props." ++ name ++ ";" else "") ++ "\n").toList
  link := binding (placeBehind ("declare var " ++ name ++ ": typeof __VLS_ctx.") name)
    (placeBehind "declare var " name)

theorem returnEntry_isLine (name : String) (span : Span) (separator : String) :
    (returnEntry name span separator).IsLine (returnedLine separator name) := by
  have hside : (setupCode name span .none).Bare := LinkedText.bare_mapped _ _ _ _
  have hsize : (setupCode name span .none).body.size = name.utf8ByteSize := rfl
  have hmarks : (LinkedText.concat [(setupCode name span .none).mark, .plain ": ",
      (setupCode name span .none).mark, .plain separator]).marks =
        [placeBehind "" name, placeBehind (name ++ ": ") name] := by
    simp only [LinkedText.marks_concat_eq, LinkedText.marksFrom_mark hside, LinkedText.marksFrom_plain, hsize,
      LinkedText.marksFrom_nil, placeBehind, String.utf8ByteSize_append, String.utf8ByteSize_empty, Nat.zero_add]
  constructor
  · have hchars : (returnEntry name span separator).chars = _ := LinkedText.chars_concat _
    rw [hchars]
    simp [returnedLine, LinkedText.chars_mark, setupCode]
  · simp only [returnEntry_eq, LinkedText.tie, hmarks]
    rfl

/-- The first two marks of a declaration stand over the variable and over the property. -/
theorem namePieces_marks (isInput : Bool) (name : String) :
    ∃ uses, (LinkedText.concat (namePieces isInput name)).marks = placeBehind "declare var " name ::
      placeBehind ("declare var " ++ name ++ ": typeof __VLS_ctx.") name :: uses := by
  have hname := LinkedText.bare_plain name
  have hsize : (LinkedText.plain name).body.size = name.utf8ByteSize := rfl
  rw [LinkedText.marks_concat_eq, namePieces]
  simp only [List.cons_append, List.nil_append, LinkedText.marksFrom_plain, LinkedText.marksFrom_mark hname,
    hsize, placeBehind, String.utf8ByteSize_append, Nat.zero_add]
  exact ⟨_, rfl⟩

theorem nameDeclaration_isLine (isInput : Bool) (name : String) :
    (nameDeclaration isInput name).IsLine (declaredLine isInput name) := by
  constructor
  · have hchars : (nameDeclaration isInput name).chars = _ := LinkedText.chars_concat _
    rw [hchars]
    cases isInput
    · simp [declaredLine, LinkedText.chars_mark]
    · simp [declaredLine, LinkedText.chars_mark]
  · obtain ⟨uses, hmarks⟩ := namePieces_marks isInput name
    -- what comes behind the first two are further uses
    have huses : bindingLinks (uses.map (nameLink true · (placeBehind "declare var " name))) = [] := by
      simp [bindingLinks, nameLink]
    have hpieces : (LinkedText.concat (namePieces isInput name)).Unbound := by
      refine LinkedText.unbound_of_links_nil ?_
      cases isInput
      · rfl
      · rfl
    simp only [nameDeclaration_eq, LinkedText.tie, hmarks, nameLinks]
    rw [bindingLinks_append, hpieces, List.nil_append]
    exact congrArg (binding _ _ :: ·) huses

/-! ## 4. The script document -/

/-- The links of a label join the variables of one block. -/
theorem expandLabel_unbound (content body : String) (label : RefLabel) :
    (expandLabel content body label).Unbound := by
  have hsibling : ∀ declarations marks, bindingLinks (linkVariables declarations marks) = [] := by
    intro declarations marks
    fun_induction linkVariables declarations marks with
    | case1 declaration declarations variable_ dollar rest ih =>
      rw [bindingLinks_append, ih]
      rfl
    | case2 => rfl
  have hpieces : LinkedText.linksFrom 0 (labelScope content label.bindings ::
      labelHandles content body label.bindings :: variablePieces label) = [] := by
    refine LinkedText.linksFrom_eq_nil ?_
    simp only [List.forall_mem_cons]
    refine ⟨labelScope_links _ _, (bare_labelHandles _ _ _).links, fun t ht => ?_⟩
    obtain ⟨right, v, rfl⟩ := mem_variablePieces ht
    exact labelVariable_links right v
  have hconcat : (LinkedText.concat (labelScope content label.bindings ::
      labelHandles content body label.bindings :: variablePieces label)).links = [] := hpieces
  rw [LinkedText.Unbound, expandLabel_eq]
  simp only [LinkedText.tie, hconcat, List.nil_append, hsibling]

theorem unbound_pieces (allowed : Span → Prop) (content body : String) :
    PiecesJoined allowed content body LinkedText.Unbound where
  toJoined := LinkedText.unbound_joined
  side := fun _ _ _ _ _ _ _ => LinkedText.unbound_of_links_nil rfl
  copy := fun _ _ _ => LinkedText.unbound_of_links_nil rfl
  bodyCopy := fun _ _ _ => LinkedText.unbound_of_links_nil rfl

/-- The names that a setup block exposes. -/
def exposedNames (block : Block) (facts : SetupFacts) : List String := facts.exposes.map (·.slice block.content)

/-- The names of the variables of its labels. -/
def labelNames (facts : SetupFacts) : List String := (rootVars facts).map (·.name)

/-- What the setup function returns: what the block exposes, then the variables of its labels. -/
def returnedLines (block : Block) (facts : SetupFacts) : List LinkedLine :=
  (exposedNames block facts).map (returnedLine ",\n") ++ (labelNames facts).map (returnedLine ", \n")

/-- The entries of the returned object. -/
def returnEntries (block : Block) (facts : SetupFacts) : List LinkedText :=
  facts.exposes.map (fun span => returnEntry (span.slice block.content) span ",\n") ++
    (rootVars facts).map (fun v => returnEntry v.name v.span ", \n")

/-- The program of a setup block up to the returned object. -/
def aheadOfReturn (block : Block) (facts : SetupFacts) : List LinkedText :=
  .plain "\n/* <script setup> */\n" :: headerFrom block.content 0 (sortedImports facts) ++
    [.plain "\nexport default (await import('__VLS_vue')).defineComponent(\x7b\n"] ++
    declaredOptions block.content facts ++
    [.plain "async ", .mapped "setup" (.empty 0) .gate { region := .scriptSetup, capabilities := .none },
      .plain "() \x7b\n"] ++
    bodyFrom block.content (withoutImports block.content facts) 0
      (facts.labels.mergeSort fun a b => a.span.start ≤ b.span.start)

theorem setupProgram_eq (block : Block) (facts : SetupFacts) :
    setupProgram block facts = .concat (aheadOfReturn block facts ++
      (.plain "return \x7b\n" :: (returnEntries block facts ++ [.plain "\x7d;\n\x7d\x7d);\n"]))) := by
  simp only [setupProgram, aheadOfReturn, returnEntries, List.append_assoc, List.cons_append, List.nil_append]

theorem returnEntries_areLines (block : Block) (facts : SetupFacts) :
    List.Forall₂ LinkedText.IsLine (returnEntries block facts) (returnedLines block facts) := by
  rw [returnedLines, exposedNames, labelNames, List.map_map, List.map_map]
  refine List.rel_append ?_ ?_
  · exact List.forall₂_map_left_iff.2 (List.forall₂_map_right_iff.2 (List.forall₂_same.2
      fun span _ => returnEntry_isLine _ span _))
  · exact List.forall₂_map_left_iff.2 (List.forall₂_map_right_iff.2 (List.forall₂_same.2
      fun v _ => returnEntry_isLine _ v.span _))

theorem aheadOfReturn_unbound {block : Block} {facts : SetupFacts} (h : analyzeSetup block.content = .ok facts) :
    ∀ t ∈ aheadOfReturn block facts, t.Unbound := by
  have hpieces : SetupJoined block.content (withoutImports block.content facts) LinkedText.Unbound :=
    unbound_pieces _ _ _
  have hends := analyzeSetup_endsAt h
  have hzero : IsBoundary block.content.toList 0 := isBoundary_zero _
  have himports : ∀ s ∈ sortedImports facts, s.EndsAt (IsBoundary block.content.toList) :=
    fun s hs => hends s (by simp [SetupFacts.spans, mem_sortedImports.1 hs])
  have hlabels : ∀ label ∈ facts.labels.mergeSort fun a b => a.span.start ≤ b.span.start,
      label.span.EndsAt (IsBoundary block.content.toList) := fun label hlabel =>
    hends _ (label_mem_spans (List.mem_mergeSort.1 hlabel) (by simp [RefLabel.spans]))
  intro t ht
  simp only [aheadOfReturn, List.mem_append, List.mem_cons, List.not_mem_nil, or_false, List.cons_append] at ht
  rcases ht with rfl | (((ht | rfl) | ht) | rfl | rfl | rfl) | ht
  · exact hpieces.plain _
  · exact hpieces.headerFrom hzero himports t ht
  · exact hpieces.plain _
  · exact hpieces.declaredOptions hends t ht
  · exact hpieces.plain _
  · exact hpieces.side _ _ _ _ rfl (by decide) ⟨hzero, hzero⟩
  · exact hpieces.plain _
  · exact hpieces.bodyFrom (isBoundary_withoutImports _ _) hzero hlabels
      (fun label _ => expandLabel_unbound _ _ label) t ht

/-- **The setup function** returns its bindings. -/
theorem setupProgram_lists {block : Block} {facts : SetupFacts} (h : analyzeSetup block.content = .ok facts) :
    (setupProgram block facts).Lists "return \x7b\n" (returnedLines block facts) "\x7d;\n\x7d\x7d);\n" := by
  rw [setupProgram_eq]
  exact LinkedText.lists_concat _ [] (aheadOfReturn_unbound h) (returnEntries_areLines block facts) (by simp)

/-- Moving the sources of a piece to its block leaves the piece its lines. -/
theorem lists_inBlock {t : LinkedText} {opening closing : String} {lines : List LinkedLine}
    (h : t.Lists opening lines closing) (block : Block) : (LinkedText.inBlock t block).Lists opening lines closing := h

theorem sourceExport_unbound (block : Block) : (sourceExport block).Unbound := by
  have hplain := LinkedText.unbound_joined.plain
  unfold sourceExport
  split
  · refine LinkedText.unbound_joined.concat _ ?_
    simp only [List.forall_mem_cons, List.not_mem_nil, false_implies, implies_true, and_true]
    exact ⟨hplain _, LinkedText.unbound_of_links_nil rfl, hplain _, hplain _, hplain _⟩
  · exact LinkedText.unbound_joined.empty

theorem scriptOptions_unbound (block : Block) (facts : ScriptFacts) : (scriptOptions block facts).Unbound := by
  unfold scriptOptions
  split
  · exact LinkedText.unbound_of_links_nil rfl
  · exact LinkedText.unbound_of_links_nil rfl

/-- A part of the program that a block may add has no binding link, if none that it adds has one. -/
theorem unbound_ofBlock {α : Type} {part : α → LinkedText} (h : ∀ a, (part a).Unbound) (entry : Option α) :
    ((entry.map part).getD {}).Unbound := by
  cases entry with
  | none => exact LinkedText.unbound_joined.empty
  | some a => exact h a

/-- **The script document** lists what its setup function returns. -/
theorem scriptProgram_lists {input : ScriptInput} {block : Block} {facts : SetupFacts}
    (hsetup : input.setup = some (block, facts)) (h : analyzeSetup block.content = .ok facts) :
    (scriptProgram input).Lists "return \x7b\n" (returnedLines block facts) "\x7d;\n\x7d\x7d);\n" := by
  have hblock := lists_inBlock (setupProgram_lists h) block
  have hplain := LinkedText.unbound_joined.plain
  have hoptions : (setupOptions block.content facts).Unbound :=
    SetupJoined.setupOptions (unbound_pieces _ _ block.content) (analyzeSetup_endsAt h)
  rw [scriptProgram, hsetup]
  refine hblock.concat [_, _] _ ?_ ?_
  · simp only [List.forall_mem_cons, List.not_mem_nil, false_implies, implies_true, and_true]
    refine ⟨unbound_ofBlock ?_ _, unbound_ofBlock ?_ _⟩
    · exact fun entry => sourceExport_unbound entry.1
    · exact fun entry => LinkedText.unbound_of_links_nil rfl
  · simp only [List.forall_mem_cons, List.not_mem_nil, false_implies, implies_true, and_true]
    refine ⟨hplain _, ?_, hplain _, hoptions, hplain _⟩
    split
    · refine unbound_ofBlock ?_ _
      exact fun entry => scriptOptions_unbound entry.1 entry.2
    · exact hplain _

/-! ## 5. The template document -/

/-- The declarations of the names that a template sees. -/
def declaredLines (names : TemplateNames) : List LinkedLine :=
  names.context.map fun name => declaredLine (names.props.contains name) name

/-- **The template document** declares the names that the template sees. -/
theorem templateProgram_lists (base : Uri) (input : TemplateInput) :
    (templateProgram base input).Lists "/* Props */\n" (declaredLines input.names) "/* Interpolations */\n" := by
  have hlines : List.Forall₂ LinkedText.IsLine
      (input.names.context.map fun name => nameDeclaration (input.names.props.contains name) name)
      (declaredLines input.names) :=
    List.forall₂_map_left_iff.2 (List.forall₂_map_right_iff.2 (List.forall₂_same.2
      fun name _ => nameDeclaration_isLine _ name))
  have hmapped : ∀ body, (LinkedText.ofMapped body).Unbound := fun _ => LinkedText.unbound_of_links_nil rfl
  simp only [templateProgram, List.cons_append, List.nil_append]
  refine LinkedText.lists_concat [_, _, _] [_] ?_ hlines ?_
  · simp only [List.forall_mem_cons, List.not_mem_nil, false_implies, implies_true, and_true]
    exact ⟨hmapped _, hmapped _, hmapped _⟩
  · exact List.forall_mem_singleton.2 (hmapped _)

/-! ## 6. Builds -/

/-- The names of the inputs: those of the declaring call, and those of the exported options. -/
def inputNames (input : ScriptInput) : List String :=
  (input.setup.elim [] fun (_, facts) => facts.props) ++
    (input.script.elim [] fun (_, facts) => facts.exportDefault.elim [] (·.props))

theorem nodup_eraseDups {α : Type} [BEq α] [LawfulBEq α] (xs : List α) : xs.eraseDups.Nodup := by
  induction hn : xs.length using Nat.strongRecOn generalizing xs with
  | ind n ih =>
    cases xs with
    | nil => exact .nil
    | cons x xs =>
      rw [List.eraseDups_cons]
      have hlt : (xs.filter fun y => !y == x).length < n := hn ▸ Nat.lt_succ_of_le (List.length_filter_le _ xs)
      refine List.nodup_cons.2 ⟨fun hx => ?_, ih _ hlt _ rfl⟩
      simpa using (List.mem_filter.1 (List.mem_eraseDups.1 hx)).2

variable (uri : Uri) (text : String) (options : BuildOptions)

/-- The template document of a build declares the names that its logic blocks give the template. -/
theorem build_template_names {d : CodeDocument} (h : (build uri text options).template = some d) :
    ∃ input : TemplateInput, d = templateDocument uri input ∧
      input.names = templateNames (logicBlocks text) options.globalComponents := by
  obtain ⟨input, hinput, rfl⟩ := Option.map_eq_some_iff.1 h
  obtain ⟨⟨block, tree⟩, -, rfl⟩ := Option.map_eq_some_iff.1 hinput
  exact ⟨_, rfl, rfl⟩

theorem templateNames_props (input : ScriptInput) (globalComponents : List String) :
    (templateNames input globalComponents).props = (inputNames input).eraseDups := by
  obtain ⟨_ | ⟨scriptBlock, _ | e⟩, _ | ⟨block, facts⟩⟩ := input
  all_goals rfl

theorem templateNames_context {input : ScriptInput} {block : Block} {facts : SetupFacts}
    (hsetup : input.setup = some (block, facts)) (globalComponents : List String) :
    (templateNames input globalComponents).context =
      (exposedNames block facts ++ labelNames facts ++ inputNames input).eraseDups := by
  obtain ⟨_ | ⟨scriptBlock, _ | e⟩, setup⟩ := input
  all_goals
    obtain rfl : setup = some (block, facts) := hsetup
    rfl

/-- **The bindings that two documents share.**  The script document returns the names that the setup block exposes
and the variables of its labels, and the template document declares those and the inputs, each once.  Every name
returned is linked from its value to its key, and every name declared is linked from the property of the component
to the variable. -/
theorem build_bindings {block : Block} {facts : SetupFacts}
    (hblock : (Component.split text).scriptSetup = some block) (hfacts : analyzeSetup block.content = .ok facts)
    {script template : CodeDocument} (hscript : (build uri text options).script = some script)
    (htemplate : (build uri text options).template = some template) :
    Lists script.document.text.toList script.links.map.mappings "return \x7b\n"
      ((exposedNames block facts).map (returnedLine ",\n") ++ (labelNames facts).map (returnedLine ", \n"))
      "\x7d;\n\x7d\x7d);\n" ∧
    ∃ declared : List String, declared.Nodup ∧
      (∀ name, name ∈ declared ↔
        name ∈ exposedNames block facts ∨ name ∈ labelNames facts ∨ name ∈ inputNames (logicBlocks text)) ∧
      Lists template.document.text.toList template.links.map.mappings "/* Props */\n"
        (declared.map fun name => declaredLine ((inputNames (logicBlocks text)).contains name) name)
        "/* Interpolations */\n" := by
  have hsetup : (logicBlocks text).setup = some (block, facts) := by
    simp [logicBlocks, analyzed, hblock, hfacts]
  constructor
  · rw [build_script_eq uri text options hscript]
    exact (scriptProgram_lists hsetup hfacts).document _ _
  · obtain ⟨input, rfl, hnames⟩ := build_template_names uri text options htemplate
    refine ⟨input.names.context, ?_, fun name => ?_, ?_⟩
    · rw [hnames]
      exact nodup_eraseDups _
    · rw [hnames, templateNames_context hsetup, List.mem_eraseDups, List.mem_append, List.mem_append, or_assoc]
    · have hlines : declaredLines input.names = input.names.context.map fun name =>
          declaredLine ((inputNames (logicBlocks text)).contains name) name := by
        refine List.map_congr_left fun name _ => ?_
        have hmem : name ∈ input.names.props ↔ name ∈ inputNames (logicBlocks text) := by
          rw [hnames, templateNames_props, List.mem_eraseDups]
        simp only [List.contains_eq_mem, hmem]
      rw [← hlines, templateDocument]
      exact (templateProgram_lists uri input).document _ _

/-- A component whose inputs have the names of what its setup block binds. -/
def sharedNames : String :=
  "<script>export default \x7bprops:\x7ba:1,c:1\x7d\x7d</script>" ++
    "<script setup>import a from 'x'\nref: b = 1\ndefineProps(\x7bb:1\x7d)</script><template></template>"

/-- The theorem at names that are shared: two are returned, and three declared. -/
theorem build_bindings_sharedNames :
    ∃ block facts script template, (Component.split sharedNames).scriptSetup = some block ∧
      analyzeSetup block.content = .ok facts ∧
      (build ⟨"file:///A.vue"⟩ sharedNames {}).script = some script ∧
      (build ⟨"file:///A.vue"⟩ sharedNames {}).template = some template ∧
      inputNames (logicBlocks sharedNames) = ["b", "a", "c"] ∧
      Lists script.document.text.toList script.links.map.mappings "return \x7b\n"
        [returnedLine ",\n" "a", returnedLine ", \n" "b"] "\x7d;\n\x7d\x7d);\n" ∧
      ∃ declared : List String, declared.Nodup ∧ (∀ name, name ∈ declared ↔ name ∈ ["a", "b", "c"]) ∧
        Lists template.document.text.toList template.links.map.mappings "/* Props */\n"
          (declared.map fun name => declaredLine (["b", "a", "c"].contains name) name)
          "/* Interpolations */\n" := by
  have hread : ((logicBlocks sharedNames).setup.any fun (block, facts) =>
      exposedNames block facts == ["a"] && labelNames facts == ["b"]) ∧
      inputNames (logicBlocks sharedNames) = ["b", "a", "c"] ∧
      (build ⟨"file:///A.vue"⟩ sharedNames {}).script.isSome ∧
      (build ⟨"file:///A.vue"⟩ sharedNames {}).template.isSome := by decide +kernel
  obtain ⟨hsetup, hinputs, hscript, htemplate⟩ := hread
  obtain ⟨⟨block, facts⟩, hsetup, hnames⟩ := (Option.any_eq_true _ _).1 hsetup
  simp only [Bool.and_eq_true, beq_iff_eq] at hnames
  obtain ⟨hexposed, hlabels⟩ := hnames
  obtain ⟨hblock, hfacts⟩ := analyzed_eq_some hsetup
  obtain ⟨script, hscript⟩ := Option.isSome_iff_exists.1 hscript
  obtain ⟨template, htemplate⟩ := Option.isSome_iff_exists.1 htemplate
  obtain ⟨hreturned, declared, hnodup, hmem, hdeclared⟩ :=
    build_bindings _ _ _ hblock hfacts hscript htemplate
  rw [hinputs] at hdeclared
  rw [hexposed, hlabels] at hreturned
  refine ⟨block, facts, script, template, hblock, hfacts, hscript, htemplate, hinputs, hreturned, declared,
    hnodup, fun name => ?_, hdeclared⟩
  rw [hmem, hexposed, hlabels, hinputs]
  simp only [List.mem_cons, List.not_mem_nil, or_false]
  tauto

end Virtual

end ComponentLens
