/-
# Where handlers are checked

The handler of an event is checked against a property of the component.  The name of the property, the key of the
handler, is `on-` and the event in camel case.  It stands in quotes in the template document and leads to the
argument that names the event (`keyUse_toSources`).

The key is another spelling than the event, and taking it for an event never gives it back: the key of the key has
one `on` more (`handlerKey_handlerKey_ne`), and hyphens make no difference (`handlerKey_hyphenate_ne`).
-/
import ComponentLens.Proofs.Mapping.Pieces
import ComponentLens.Proofs.Virtual.ClassDeclarations
import ComponentLens.Proofs.Virtual.Literals

namespace ComponentLens.Virtual

open Markup Naming

/-! ## 1. Keys -/

/-- A key starts with `on`. -/
theorem toList_handlerKey (event : String) :
    (handlerKey event).toList = 'o' :: 'n' :: camelChars ('-' :: event.toList) := by
  simp [handlerKey, camelize, camelChars]

/-- The key of what starts with `on` goes on with `On`. -/
theorem toList_handlerKey_on {name : String} {rest : List Char} (h : name.toList = 'o' :: 'n' :: rest) :
    (handlerKey name).toList = 'o' :: 'n' :: 'O' :: 'n' :: camelChars rest := by
  have hupper : LetterCase.upper 'o' = ['O'] := by decide
  have hpart : isNamePart 'o' = true := by decide
  rw [toList_handlerKey, h]
  simp [camelChars, hupper, hpart]

/-- Hyphens leave the `on` of a key alone. -/
theorem toList_hyphenate_on {name : String} {rest : List Char} (h : name.toList = 'o' :: 'n' :: rest) :
    (hyphenate name).toList = 'o' :: 'n' :: hyphenChars true rest := by
  have ho : LetterCase.lower 'o' = ['o'] := by decide
  have hn : LetterCase.lower 'n' = ['n'] := by decide
  have hpart : isNamePart 'n' = true := by decide
  simp [hyphenate, h, hyphenChars, ho, hn, hpart]

/-- A spelling that keeps a leading `On` cannot be undone by putting `On` in front: there would be one more `On`
behind each, without end. -/
theorem ne_on_cons {f : List Char → List Char} (hf : ∀ cs, f ('O' :: 'n' :: cs) = 'O' :: 'n' :: f cs) :
    ∀ cs, cs ≠ 'O' :: 'n' :: f cs
  | [] => by simp
  | [_] => by simp
  | c :: d :: cs => by
    intro h
    obtain ⟨rfl, rfl, hcs⟩ : c = 'O' ∧ d = 'n' ∧ cs = f (c :: d :: cs) := by simpa using h
    rw [hf] at hcs
    exact ne_on_cons hf cs hcs

theorem camelChars_on (cs : List Char) : camelChars ('O' :: 'n' :: cs) = 'O' :: 'n' :: camelChars cs := by
  simp [camelChars]

theorem camelChars_hyphenChars_on (cs : List Char) :
    camelChars (hyphenChars true ('O' :: 'n' :: cs)) = 'O' :: 'n' :: camelChars (hyphenChars true cs) := by
  have ho : LetterCase.lower 'O' = ['o'] := by decide
  have hn : LetterCase.lower 'n' = ['n'] := by decide
  have hupper : LetterCase.upper 'o' = ['O'] := by decide
  have hparts : isNamePart 'o' = true ∧ isNamePart 'O' = true ∧ isNamePart 'n' = true := by decide
  have hcapital : 'O'.isUpper = true ∧ 'n'.isUpper = false := by decide
  simp [hyphenChars, camelChars, ho, hn, hupper, hparts, hcapital]

/-- **A key is not an event.**  The handler of an event with that name has another key. -/
theorem handlerKey_handlerKey_ne (event : String) : handlerKey (handlerKey event) ≠ handlerKey event := by
  intro h
  have hkey := congrArg String.toList h
  rw [toList_handlerKey_on (toList_handlerKey event), toList_handlerKey event] at hkey
  exact ne_on_cons camelChars_on _ (by simpa using hkey.symm)

/-- Nor is the key with hyphens. -/
theorem handlerKey_hyphenate_ne (event : String) :
    handlerKey (hyphenate (handlerKey event)) ≠ handlerKey event := by
  intro h
  have hkey := congrArg String.toList h
  rw [toList_handlerKey_on (toList_hyphenate_on (toList_handlerKey event)), toList_handlerKey event] at hkey
  refine ne_on_cons (f := fun cs => camelChars (hyphenChars true cs)) camelChars_hyphenChars_on
    (camelChars ('-' :: event.toList)) ?_
  simpa using hkey.symm

/-! ## 2. Statements of an element in the walk

The walk writes the statements of every element that it reaches. -/

section

variable (scope : TemplateScope)

/-- The statements of the element are among the code. -/
def Writes (tag : Tag) (pieces : List Code) : Prop :=
  ∃ ancestors next, (elementStatements scope ancestors next tag).pieces ⊆ pieces

variable {scope} {tag : Tag}

theorem writes_own (ancestors : List String) (next : Nat) :
    Writes scope tag (elementStatements scope ancestors next tag).pieces :=
  ⟨ancestors, next, List.Subset.refl _⟩

namespace Writes

variable {pieces more : List Code}

theorem mono (h : Writes scope tag pieces) (hsub : pieces ⊆ more) : Writes scope tag more := by
  obtain ⟨ancestors, next, hpieces⟩ := h
  exact ⟨ancestors, next, List.Subset.trans hpieces hsub⟩

theorem before (h : Writes scope tag pieces) : Writes scope tag (pieces ++ more) :=
  h.mono (List.subset_append_left ..)

theorem behind (h : Writes scope tag pieces) : Writes scope tag (more ++ pieces) :=
  h.mono (List.subset_append_right ..)

theorem cons {code : Code} (h : Writes scope tag pieces) : Writes scope tag (code :: pieces) :=
  h.mono (List.subset_cons_self ..)

end Writes

mutual

theorem writes_walkNode : ∀ (ancestors : List String) (next : Nat) (node : Node), tag ∈ Node.tags node →
    Writes scope tag (walkNode scope ancestors next node).pieces
  | ancestors, next, .element own children, h => by
    rw [walkNode]
    rcases List.mem_cons.1 h with rfl | h
    · exact (writes_own (tag.name :: ancestors) next).before.before.cons
    · exact (writes_walkNodes _ _ children h).behind.before.cons
  | ancestors, next, .chain branches _, h => by
    rw [walkNode]
    exact writes_walkBranches ancestors next true branches h
  | ancestors, next, .loop parts children _, h => by
    rw [Node.tags] at h
    rw [walkNode]
    cases hvalue : parts.value with
    | none => simp [hvalue] at h
    | some value =>
      rw [hvalue] at h
      exact (writes_walkNodes ancestors (next + 1) children h).behind.before
  | _, _, .interpolation _ _, h => by simp [Node.tags] at h
  | _, _, .text _ _, h => by simp [Node.tags] at h
  | _, _, .comment _ _, h => by simp [Node.tags] at h

theorem writes_walkNodes : ∀ (ancestors : List String) (next : Nat) (nodes : List Node), tag ∈ nodeTags nodes →
    Writes scope tag (walkNodes scope ancestors next nodes).pieces
  | _, _, [], h => by simp [nodeTags] at h
  | ancestors, next, node :: rest, h => by
    rw [walkNodes]
    rcases List.mem_append.1 h with h | h
    · exact (writes_walkNode ancestors next node h).before
    · exact (writes_walkNodes ancestors _ rest h).behind

theorem writes_walkBranches : ∀ (ancestors : List String) (next : Nat) (first : Bool) (branches : List Branch),
    tag ∈ branchTags branches → Writes scope tag (walkBranches scope ancestors next first branches).pieces
  | _, _, _, [], h => by simp [branchTags] at h
  | ancestors, next, first, .mk condition children _ :: rest, h => by
    simp only [walkBranches]
    rcases List.mem_append.1 h with h | h
    · exact (writes_walkNodes ancestors next children h).behind.before.before
    · exact (writes_walkBranches ancestors _ _ rest h).behind

end

theorem writes_walkRoots (next : Nat) {nodes : List Node} (h : tag ∈ nodeTags nodes) :
    Writes scope tag (walkRoots scope next nodes).pieces := by
  induction nodes generalizing next with
  | nil => simp [nodeTags] at h
  | cons node rest ih =>
    rw [walkRoots]
    rcases List.mem_append.1 h with h | h
    · exact (writes_walkNode [] next node h).before.before.cons
    · exact (ih _ h).behind.cons

end

/-! ## 3. The key in the document -/

/-- The name of the property that takes the handler of an event, for the argument that names the event. -/
def keyUse (arg : DirectiveArg) : NameUse := ⟨handlerKey arg.content, arg.span, .tagOrAttribute, false⟩

/-- The argument that names an event stands in the template. -/
theorem reads_event {source : List Char} {tag : Tag} (htag : AllParts (Placed source) tag.parts)
    {arg : DirectiveArg} {exp : Expression} (h : (arg, exp) ∈ Tag.events tag) :
    arg.span.Reads source arg.content.toList := by
  obtain ⟨d, hd, harg, -⟩ := exists_directive_of_event h
  exact (allParts_directive htag hd).2.1 arg (Option.filter_eq_some_iff.1 harg).1

/-- The handler of every event is among the statements of its element. -/
theorem keyUse_mem (scope : TemplateScope) (ancestors : List String) (next : Nat) {tag : Tag}
    {arg : DirectiveArg} {exp : Expression} (h : (arg, exp) ∈ Tag.events tag) :
    (keyUse arg).quoted ∈ (elementStatements scope ancestors next tag).pieces := by
  obtain ⟨n, hn⟩ : ∃ n, ((arg, exp), n) ∈ (Tag.events tag).zipIdx (next + 2) := by
    obtain ⟨i, hi, hget⟩ := List.getElem_of_mem h
    exact ⟨next + 2 + i, List.mk_add_mem_zipIdx_iff_getElem?.2 (hget ▸ List.getElem?_eq_getElem hi)⟩
  have hhandlers : (keyUse arg).quoted ∈ ((Tag.events tag).zipIdx (next + 2)).flatMap fun event =>
      eventHandler (scope.componentName tag.name) (helperVar event.2) event.1.1 event.1.2 :=
    List.mem_flatMap.2 ⟨_, hn, by simp [eventHandler, keyUse]⟩
  unfold elementStatements
  dsimp only
  split <;> simp only [List.mem_append, hhandlers, true_or, or_true]

/-- A name in quotes has the name between the quotes. -/
theorem bare_standsIn_quoted (use : NameUse) : use.bare.StandsIn use.quoted ['\''] :=
  MappedText.standsIn_concat
    [.ahead ("'" ++ use.name ++ "'") use.source .gate (use.data (use.capabilities.without NameUse.innerOnly)), "'"]
    use.bare ["'"]

/-- The key of every handler stands in the template document. -/
theorem keyUse_standsIn (base : Uri) {input : TemplateInput} {tag : Tag} (htag : tag ∈ nodeTags input.nodes)
    {arg : DirectiveArg} {exp : Expression} (h : (arg, exp) ∈ Tag.events tag) :
    ∃ before, ((keyUse arg).quoted.shiftSource input.block.span.start).StandsIn
      (templateProgram base input).body before := by
  have hwrites : Writes input.scope tag (walkRoots input.scope 0 input.nodes).pieces := writes_walkRoots 0 htag
  obtain ⟨ancestors, next, hpieces⟩ := hwrites
  obtain ⟨inside, hinside⟩ :
      ∃ before, (keyUse arg).quoted.StandsIn (templateBody input.scope input.nodes) before :=
    MappedText.exists_standsIn (List.mem_append_left _ (hpieces (keyUse_mem input.scope ancestors next h)))
  have hpiece : LinkedText.ofMapped
      ((templateBody input.scope input.nodes).shiftSource input.block.span.start) ∈ piecesBehindClasses input :=
    List.mem_cons_of_mem _ (List.mem_append_right _ (by simp))
  obtain ⟨front, hbody⟩ : ∃ before,
      ((templateBody input.scope input.nodes).shiftSource input.block.span.start).StandsIn
        (templateProgram base input).body before := by
    rw [templateProgram_body]
    have hbodies := List.mem_map_of_mem (f := LinkedText.body) hpiece
    exact MappedText.exists_standsIn
      (List.mem_cons_of_mem _ (List.mem_cons_of_mem _ (List.mem_cons_of_mem _ hbodies)))
  exact ⟨_, (hinside.shiftSource _).trans hbody⟩

/-- **A key leads to the argument.**  The key of every handler stands in quotes in the template document, and what
stands between the quotes is looked up at the argument. -/
theorem keyUse_toSources (base : Uri) {input : TemplateInput} {tag : Tag} (htag : tag ∈ nodeTags input.nodes)
    {arg : DirectiveArg} {exp : Expression} (h : (arg, exp) ∈ Tag.events tag) {file : List Char}
    (harg : (arg.span.shift input.block.span.start).Reads file arg.content.toList)
    (hsize : byteLength file ≤ maxOffset) :
    ∃ quoted : Span,
      quoted.Reads (templateProgram base input).body.text.toList ("'" ++ handlerKey arg.content ++ "'").toList ∧
      ⟨arg.span.shift input.block.span.start, (keyUse arg).data .tagOrAttribute⟩ ∈
        (SpanMap.mk (templateProgram base input).body.mappings).toSources
          ⟨quoted.start + 1, quoted.start + 1 + (handlerKey arg.content).utf8ByteSize⟩ := by
  obtain ⟨before, hquoted⟩ := keyUse_standsIn base htag h
  have hname := ((bare_standsIn_quoted (keyUse arg)).shiftSource input.block.span.start).trans hquoted
  have htext : (keyUse arg).quoted.text = "'" ++ handlerKey arg.content ++ "'" := by
    rw [NameUse.quoted_text]
    apply String.toList_inj.1
    simp [keyUse]
  refine ⟨_, hquoted.reads (htext ▸ MappedText.reads_size (keyUse arg).quoted.text), ?_⟩
  -- the mapping of the name alone, where it ends up
  have hmapping := hname.mappings _ (List.mem_singleton_self _)
  have hstop := harg.isBoundary_stop.le_byteLength
  have hhit := mem_toSources_target hmapping rfl rfl harg.start_le_stop (Nat.le_trans hstop hsize)
  have hplace : Span.shift ⟨0, (handlerKey arg.content).utf8ByteSize⟩ (byteLength (before ++ ['\''])) =
      ⟨0 + byteLength before + 1, 0 + byteLength before + 1 + (handlerKey arg.content).utf8ByteSize⟩ := by
    have hquote : '\''.utf8Size = 1 := rfl
    simp only [Span.shift, byteLength_append, byteLength_cons, byteLength_nil, hquote, Span.mk.injEq]
    omega
  exact hplace ▸ hhit

end ComponentLens.Virtual
