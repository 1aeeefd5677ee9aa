/-
# Mappings over whole properties

A property is written piece by piece, and one coarse mapping is laid over all of it in advance, so that a fault
of the property as a whole is shown at the attribute.  A coarse mapping is matched as a whole: one byte too many,
and it never is.

The mapping is laid over the property with its key in quotes, but the key goes without them where it is an
identifier.  So it covers the property exactly if the key is quoted, and otherwise goes on over the comma and the
line break (`coarse_selects_iff`, `not_coarse_selects_bareKey`).

What carries the proof through the walk is `Lays`: code stands for some properties, holds each of them with its
mapping, and has no other coarse mappings but at places of names, slots and loops.  This is closed under joining.
None of these places is that of an attribute or directive (`parse_props_apart`), so the mapping over an attribute
is the one of its property.
-/
import ComponentLens.Proofs.Markup.PropertyPlaces
import ComponentLens.Proofs.Virtual.Handlers

namespace ComponentLens.Virtual

open Markup

/-! ## 1. Coarse mappings -/

/-- A mapping that is matched as a whole, for faults and completion alone. -/
def IsCoarse (m : Mapping CodeData) : Prop := m.mode = .gate ∧ m.data.capabilities = .diagnosticOnly

instance (m : Mapping CodeData) : Decidable (IsCoarse m) := inferInstanceAs (Decidable (_ ∧ _))

/-- All coarse mappings of the code lead to places of the list. -/
def CoarseIn (S : List Span) (code : Code) : Prop := ∀ m ∈ code.mappings, IsCoarse m → m.source ∈ S

section

variable {S : List Span}

theorem coarseIn_closed : MappedText.Closed (CoarseIn S) :=
  MappedText.closed_of_moves (P := fun _ m => IsCoarse m → m.source ∈ S) fun _ _ _ _ h _ => h

@[simp] theorem coarseIn_plain (text : String) : CoarseIn S (.plain text) := coarseIn_closed.plain text

@[simp] theorem coarseIn_raw (text : String) : CoarseIn S (raw text) := coarseIn_closed.plain text

@[simp] theorem coarseIn_ignoreNext : CoarseIn S ignoreNext := coarseIn_closed.plain _

@[simp] theorem coarseIn_expression (e : Expression) (capabilities : Capabilities) :
    CoarseIn S (expression e capabilities) := by
  simp [CoarseIn, expression, MappedText.mapped, IsCoarse]

@[simp] theorem coarseIn_bare (use : NameUse) : CoarseIn S use.bare := by
  simp [CoarseIn, NameUse.bare, MappedText.mapped, IsCoarse]

/-- A name with its quotes does not serve completion, and a coarse mapping does. -/
@[simp] theorem coarseIn_quoted (use : NameUse) : CoarseIn S use.quoted := by
  have hdata : use.capabilities.without NameUse.innerOnly ≠ .diagnosticOnly := by
    intro heq
    have hbit := congrArg (fun c => c.bits &&& Capabilities.completion.bits) heq
    simp only [Capabilities.without, BitVec.and_assoc] at hbit
    revert hbit
    rw [show ~~~NameUse.innerOnly.bits &&& Capabilities.completion.bits = 0#12 by decide, BitVec.and_zero]
    decide
  refine coarseIn_closed.concat _ ?_
  simp only [List.forall_mem_cons, coarseIn_plain, coarseIn_bare, true_and]
  refine ⟨?_, by simp⟩
  simp [CoarseIn, MappedText.ahead, IsCoarse, NameUse.data, templateData, hdata]

@[simp] theorem coarseIn_key (use : NameUse) : CoarseIn S use.key := by
  unfold NameUse.key
  split <;> simp

@[simp] theorem coarseIn_access (use : NameUse) : CoarseIn S use.access := by
  unfold NameUse.access
  split
  all_goals
    refine coarseIn_closed.concat _ ?_
    simp

theorem coarseIn_mapped {span : Span} (h : span ∈ S) (code : String) (mode : MatchMode) (data : CodeData) :
    CoarseIn S (.mapped code span mode data) := by
  simp [CoarseIn, MappedText.mapped, h]

/-! ## 2. Code without properties -/

theorem coarseIn_bareDirective (d : Directive) : AllCode (CoarseIn S) (bareDirective d) := by
  unfold bareDirective
  split
  · split <;> simp
  · simp

theorem coarseIn_elementRef (a : Attribute) : AllCode (CoarseIn S) (elementRef a) := by
  unfold elementRef
  split
  · split <;> simp
  · simp

theorem coarseIn_classNames (scope : TemplateScope) (a : Attribute) :
    AllCode (CoarseIn S) (classNames scope a) := by
  unfold classNames
  split
  · split
    · exact allCode_flatMap fun _ _ => by simp [className]
    · simp
  · simp

theorem coarseIn_eventHandler (component variable_ : String) (arg : DirectiveArg) (exp : Expression) :
    AllCode (CoarseIn S) (eventHandler component variable_ arg exp) := by
  simp [eventHandler]

theorem coarseIn_optionReferences (component : String) (prop : TagProp) :
    AllCode (CoarseIn S) (optionReferences component prop) := by
  have huses : ∀ (option : String) (keepsHyphens : Bool) (source : Span) (names : List String),
      AllCode (CoarseIn S) (optionUses component option keepsHyphens source names) :=
    fun _ _ _ _ => allCode_flatMap fun _ _ => by simp
  unfold optionReferences
  split <;> simp [huses]

theorem coarseIn_slotDeclaration (n : Nat) (tag : Tag) :
    AllCode (CoarseIn S) (slotDeclaration n tag).1 := by
  have hbinding : AllCode (CoarseIn S) (tag.props.flatMap slotBinding) := by
    refine allCode_flatMap fun prop _ => ?_
    unfold slotBinding
    split
    · split <;> simp
    · split <;> simp
  unfold slotDeclaration
  dsimp only
  split <;> simp [hbinding]

theorem coarseIn_slotExports (slots : List SlotExport) : AllCode (CoarseIn S) (slotExports slots) := by
  unfold slotExports
  refine allCode_append.2 ⟨allCode_cons.2 ⟨coarseIn_raw _, ?_⟩, by simp⟩
  exact allCode_flatMap fun _ _ => by simp

/-- The place that the content of a slot leads to. -/
def slotPlace (d : Directive) : Span := (d.arg.map (·.span)).getD d.span

theorem coarseIn_slotContent (scope : TemplateScope) (ancestors : List String) {d : Directive}
    (h : slotPlace d ∈ S) : AllCode (CoarseIn S) (slotContent scope ancestors d) := by
  unfold slotContent
  split
  · simp
  next parent _ =>
    have hcovering : ∀ code : Code, CoarseIn S code →
        CoarseIn S (code.covering (slotPlace d) .gate (templateData .diagnosticOnly)) := by
      intro code hcode m hm
      rcases List.mem_append.1 hm with hm | hm
      · exact hcode m hm
      · rw [List.mem_singleton.1 hm]
        exact fun _ => h
    have hslot : ∀ use : NameUse, CoarseIn S
        (.concat ["__VLS_components['" ++ scope.componentName parent ++ "'].__VLS_slots", use.access]) :=
      fun use => coarseIn_closed.concat _ (by simp)
    dsimp only
    refine allCode_append.2 ⟨?_, allCode_cons.2 ⟨hcovering _ (hslot _), by simp⟩⟩
    split <;> simp

theorem coarseIn_loopHead {parts : Loop} (h : parts.source.span ∈ S) (value : Expression) (variable_ : String) :
    AllCode (CoarseIn S) (loopHead parts value variable_) := by
  have hgate := coarseIn_mapped h variable_ .gate (templateData .diagnosticOnly)
  unfold loopHead
  cases parts.key <;> cases parts.index <;> simp [hgate]

end

/-! ## 3. Properties -/

/-- The use of a property by an attribute or directive. -/
structure PropertyUse where
  /-- The name as markup spells it, and its place. -/
  name : String
  nameSpan : Span
  /-- The place of the attribute. -/
  span : Span
  /-- The value as code, and its text. -/
  value : List Code
  shown : String
  /-- The value behind the name as markup spells it, if that is another key. -/
  literal : String
  textOf_value : MappedText.textOf value = shown.toList
  coarseIn_value : AllCode (CoarseIn []) value

namespace PropertyUse

/-- The key that the property is written under. -/
def key (use : PropertyUse) : String := propKey use.name

/-- Whether the key needs no quotes. -/
def isBare (use : PropertyUse) : Bool := Naming.isSimpleIdentifier use.key

/-- The code of the property. -/
def pieces (use : PropertyUse) : List Code :=
  property use.name use.nameSpan use.span use.value use.shown use.literal

/-- The property as it stands in the document: its key, quoted if need be, and its value. -/
def text (use : PropertyUse) : List Char :=
  (if use.isBare then use.key.toList else '\'' :: (use.key.toList ++ ['\''])) ++
    (": ".toList ++ use.shown.toList)

/-- What the coarse mapping covers: the property, and what is behind it if the key has no quotes. -/
def covered (use : PropertyUse) : List Char := if use.isBare then use.text ++ ",\n".toList else use.text

/-- The coarse mapping of the property, in front of the code. -/
def coarse (use : PropertyUse) : Mapping CodeData :=
  ⟨templateData .diagnosticOnly, .gate, use.span, ⟨0, ("'" ++ use.key ++ "': " ++ use.shown).utf8ByteSize⟩, []⟩

/-- The property stands in the code, and the mapping is the coarse one of it. -/
def LaidIn (use : PropertyUse) (whole : Code) (m : Mapping CodeData) : Prop :=
  ∃ before, (MappedText.concat use.pieces).StandsIn whole before ∧ m = use.coarse.shiftTarget (byteLength before)

theorem coarse_isCoarse (use : PropertyUse) : IsCoarse use.coarse := ⟨rfl, rfl⟩

/-- The text of the code starts with the property. -/
theorem textOf_pieces (use : PropertyUse) :
    ∃ more, MappedText.textOf use.pieces = use.text ++ (",\n".toList ++ more) := by
  have hkey : (tagName use.key use.nameSpan).key.text.toList =
      if use.isBare then use.key.toList else '\'' :: (use.key.toList ++ ['\'']) := by
    rw [NameUse.key, isBare, show (tagName use.key use.nameSpan).name = use.key from rfl]
    split
    · rfl
    · rw [NameUse.quoted_text, String.toList_ofList]
      rfl
  obtain ⟨second, hpieces⟩ : ∃ second, use.pieces =
      [.ahead ("'" ++ use.key ++ "': " ++ use.shown) use.span .gate (templateData .diagnosticOnly),
        (tagName use.key use.nameSpan).key, ": "] ++ use.value ++ [raw ",\n"] ++ second := ⟨_, rfl⟩
  refine ⟨MappedText.textOf second, ?_⟩
  have hvalue := use.textOf_value
  unfold MappedText.textOf at hvalue ⊢
  rw [hpieces, List.flatMap_append, List.flatMap_append, List.flatMap_append, hvalue]
  simp only [List.flatMap_cons, List.flatMap_nil, List.append_nil, List.append_assoc, text, hkey, MappedText.ahead,
    raw, MappedText.plain, String.toList_empty, List.nil_append]

/-- The coarse mapping is as long as what it covers. -/
theorem coarse_size (use : PropertyUse) : use.coarse.target = ⟨0, byteLength use.covered⟩ := by
  have hquote : '\''.utf8Size = 1 := rfl
  have hmarks : byteLength ",\n".toList = 2 ∧ byteLength ": ".toList = 2 ∧ byteLength "'".toList = 1 ∧
      byteLength "': ".toList = 3 := by decide
  obtain ⟨hend, hcolon, hopening, hclosing⟩ := hmarks
  have hsize : ("'" ++ use.key ++ "': " ++ use.shown).utf8ByteSize = byteLength use.covered := by
    rw [← byteLength_toList, covered, text]
    simp only [String.toList_append, byteLength_append, hopening, hclosing]
    split <;> simp only [byteLength_append, byteLength_cons, byteLength_nil, hend, hcolon, hquote] <;> omega
  rw [coarse, hsize]

variable {use : PropertyUse} {whole : Code} {m : Mapping CodeData}

theorem LaidIn.source_eq (h : use.LaidIn whole m) : m.source = use.span := by
  obtain ⟨before, -, rfl⟩ := h
  rfl

/-- What the coarse mapping of a property covers stands at its target. -/
theorem LaidIn.reads (h : use.LaidIn whole m) : m.target.Reads whole.text.toList use.covered := by
  obtain ⟨before, hstands, rfl⟩ := h
  refine hstands.reads ?_
  obtain ⟨more, htext⟩ := use.textOf_pieces
  obtain ⟨rest, hrest⟩ : ∃ rest, MappedText.textOf use.pieces = use.covered ++ rest := by
    rw [htext, covered]
    split
    · exact ⟨more, by simp⟩
    · exact ⟨_, rfl⟩
  rw [MappedText.toList_concat, hrest, use.coarse_size]
  simpa using Span.reads_append [] use.covered rest

/-- **The coarse mapping selects the property** exactly if the key has quotes. -/
theorem LaidIn.reads_text_iff (h : use.LaidIn whole m) :
    m.target.Reads whole.text.toList use.text ↔ use.isBare = false := by
  have hcovered := h.reads
  rw [covered] at hcovered
  constructor
  · intro htext
    by_contra hbare
    rw [if_pos (by simpa using hbare)] at hcovered
    have hend : byteLength ",\n".toList = 2 := by decide
    have hlength := hcovered.stop_eq.symm.trans htext.stop_eq
    rw [byteLength_append, hend] at hlength
    omega
  · intro hbare
    rwa [hbare, if_neg Bool.false_ne_true] at hcovered

/-- A property stays laid when its code becomes part of more. -/
theorem LaidIn.trans {part : Code} {front : List Char} (h : use.LaidIn part m) (hpart : part.StandsIn whole front) :
    use.LaidIn whole (m.shiftTarget (byteLength front)) := by
  obtain ⟨before, hstands, rfl⟩ := h
  exact ⟨front ++ before, hstands.trans hpart, by rw [Mapping.shiftTarget_shiftTarget, byteLength_append]⟩

end PropertyUse

/-- The text of the value of a property with an expression. -/
def boundText (d : Directive) : String := "(" ++ (d.exp.map (·.content)).getD "undefined" ++ ")"

/-- The code of that value. -/
def boundValue (d : Directive) : List Code :=
  match d.exp with
  | some e => ["(", expression e, ")"]
  | none => ["(undefined)"]

/-- The property that a directive with a fixed argument is written as. -/
def boundUse (d : Directive) (arg : DirectiveArg) : PropertyUse where
  name := arg.content
  nameSpan := arg.span
  span := d.span
  value := boundValue d
  shown := boundText d
  literal := boundText d
  textOf_value := by
    unfold boundValue boundText
    cases d.exp <;> simp [MappedText.textOf, MappedText.plain, expression, MappedText.mapped]
  coarseIn_value := by
    unfold boundValue
    split <;> simp

/-- The property that an attribute is written as. -/
def plainUse (a : Attribute) : PropertyUse where
  name := a.name
  nameSpan := a.nameSpan
  span := a.span
  value := [attributeLiteral a]
  shown := attributeLiteral a
  literal := attributeLiteral a
  textOf_value := by simp [MappedText.textOf, MappedText.plain]
  coarseIn_value := by simp

/-- The property that an attribute or directive is written as, if it is one. -/
def propertyUse? : TagProp → Option PropertyUse
  | .plain a => some (plainUse a)
  | .directive d => if d.name == "bind" || d.name == "model" then (staticArg? d).map (boundUse d) else none

theorem propertyUse?_span {prop : TagProp} {use : PropertyUse} (h : propertyUse? prop = some use) :
    use.span = prop.span := by
  cases prop with
  | plain a =>
    cases h
    rfl
  | directive d =>
    rw [propertyUse?] at h
    split at h
    · obtain ⟨arg, -, rfl⟩ := Option.map_eq_some_iff.1 h
      rfl
    · cases h

/-- The properties that an element is written with. -/
def propertyUses (tag : Tag) : List PropertyUse := tag.props.filterMap propertyUse?

/-! ## 4. Code with properties -/

/-- The code holds each of the properties, and beside their coarse mappings it has none but those that lead to
places of the list. -/
structure Lays (S : List Span) (uses : List PropertyUse) (codes : List Code) : Prop where
  holds : ∀ use ∈ uses, ∃ m ∈ (MappedText.concat codes).mappings, use.LaidIn (.concat codes) m
  others : ∀ m ∈ (MappedText.concat codes).mappings, IsCoarse m →
    m.source ∈ S ∨ ∃ use ∈ uses, use.LaidIn (.concat codes) m

namespace Lays

variable {S : List Span} {uses uses' : List PropertyUse} {codes codes' : List Code}

/-- Code without properties. -/
theorem of_coarseIn (h : AllCode (CoarseIn S) codes) : Lays S [] codes where
  holds := by simp
  others := fun m hm hcoarse => .inl (coarseIn_closed.concat codes h m hm hcoarse)

theorem nil : Lays S [] [] := of_coarseIn allCode_nil

theorem append (h : Lays S uses codes) (h' : Lays S uses' codes') : Lays S (uses ++ uses') (codes ++ codes') where
  holds := by
    intro use huse
    rw [MappedText.mappings_concat_append]
    rcases List.mem_append.1 huse with huse | huse
    · obtain ⟨m, hm, hlaid⟩ := h.holds use huse
      have hwhole := hlaid.trans (MappedText.standsIn_append_left codes codes')
      exact ⟨m, List.mem_append_left _ hm, by simpa using hwhole⟩
    · obtain ⟨m, hm, hlaid⟩ := h'.holds use huse
      exact ⟨_, List.mem_append_right _ (List.mem_map_of_mem hm),
        hlaid.trans (MappedText.standsIn_append_right codes codes')⟩
  others := by
    intro m hm hcoarse
    rw [MappedText.mappings_concat_append] at hm
    rcases List.mem_append.1 hm with hm | hm
    · refine (h.others m hm hcoarse).imp_right ?_
      rintro ⟨use, huse, hlaid⟩
      have hwhole := hlaid.trans (MappedText.standsIn_append_left codes codes')
      exact ⟨use, List.mem_append_left _ huse, by simpa using hwhole⟩
    · obtain ⟨m', hm', rfl⟩ := List.mem_map.1 hm
      refine (h'.others m' hm' hcoarse).imp_right ?_
      rintro ⟨use, huse, hlaid⟩
      exact ⟨use, List.mem_append_right _ huse, hlaid.trans (MappedText.standsIn_append_right codes codes')⟩

/-- Code without properties in front, and code without properties behind. -/
theorem behind (h : Lays S uses codes) (hfront : AllCode (CoarseIn S) codes') : Lays S uses (codes' ++ codes) :=
  (of_coarseIn hfront).append h

theorem before (h : Lays S uses codes) (hback : AllCode (CoarseIn S) codes') : Lays S uses (codes ++ codes') := by
  simpa using h.append (of_coarseIn hback)

theorem congr (h : Lays S uses codes) (huses : ∀ use, use ∈ uses ↔ use ∈ uses') : Lays S uses' codes where
  holds := fun use huse => h.holds use ((huses use).2 huse)
  others := fun m hm hcoarse => (h.others m hm hcoarse).imp_right
    fun ⟨use, huse, hlaid⟩ => ⟨use, (huses use).1 huse, hlaid⟩

theorem flatMap {β : Type} {f : β → List PropertyUse} {g : β → List Code} {xs : List β}
    (h : ∀ x ∈ xs, Lays S (f x) (g x)) : Lays S (xs.flatMap f) (xs.flatMap g) := by
  induction xs with
  | nil => exact nil
  | cons x xs ih =>
    obtain ⟨hx, hxs⟩ := List.forall_mem_cons.1 h
    exact hx.append (ih hxs)

/-- **A property** has one coarse mapping. -/
theorem property (use : PropertyUse) : Lays S [use] use.pieces := by
  obtain ⟨rest, hpieces, hrest⟩ : ∃ rest, use.pieces =
      [.ahead ("'" ++ use.key ++ "': " ++ use.shown) use.span .gate (templateData .diagnosticOnly)] ++ rest ∧
      AllCode (CoarseIn []) rest := by
    refine ⟨[(tagName use.key use.nameSpan).key, ": "] ++ use.value ++ [raw ",\n"] ++
      (if use.name == use.key then [] else
        [(tagName use.name use.nameSpan).key, (": " ++ use.literal ++ ",\n" : String)]), rfl, ?_⟩
    simp only [allCode_append, allCode_cons, allCode_nil, coarseIn_key, coarseIn_plain, coarseIn_raw,
      use.coarseIn_value, true_and, and_true]
    split <;> simp
  have hself : (MappedText.concat use.pieces).StandsIn (.concat use.pieces) [] := by
    simpa using MappedText.standsIn_append_left use.pieces []
  have hmappings : (MappedText.concat use.pieces).mappings = use.coarse :: (MappedText.concat rest).mappings := by
    rw [hpieces, MappedText.mappings_concat_append]
    simp [MappedText.concat, MappedText.mappingsFrom, MappedText.ahead, MappedText.textOf, PropertyUse.coarse]
  have hlaid : use.LaidIn (.concat use.pieces) use.coarse := ⟨[], hself, by simp⟩
  refine ⟨?_, ?_⟩
  · rw [List.forall_mem_singleton, hmappings]
    exact ⟨_, List.mem_cons_self, hlaid⟩
  · rw [hmappings, List.forall_mem_cons]
    refine ⟨fun _ => .inr ⟨use, by simp, hlaid⟩, fun m hm hcoarse => ?_⟩
    exact absurd (coarseIn_closed.concat rest hrest m hm hcoarse) List.not_mem_nil

end Lays

/-! ## 5. Elements -/

section

variable {S : List Span}

theorem boundProperty_eq (d : Directive) :
    boundProperty d = ((staticArg? d).map fun arg => (boundUse d arg).pieces).getD [] := by
  unfold boundProperty
  cases staticArg? d <;> rfl

theorem lays_boundProperty (d : Directive) : Lays S ((staticArg? d).map (boundUse d)).toList (boundProperty d) := by
  rw [boundProperty_eq]
  cases staticArg? d with
  | none => exact .nil
  | some arg => exact .property (boundUse d arg)

theorem lays_plainProperty (a : Attribute) : Lays S [plainUse a] (plainProperty a) := .property (plainUse a)

/-- The property that is checked against the component, if the attribute or directive is written as one. -/
def checkedUse? : TagProp → Option PropertyUse
  | .plain a => if isFallthrough a then none else some (plainUse a)
  | .directive d => propertyUse? (.directive d)

theorem lays_checkedProperties (tag : Tag) :
    Lays S (tag.props.flatMap fun prop => (checkedUse? prop).toList) (checkedProperties tag) := by
  refine .flatMap fun prop _ => ?_
  cases prop with
  | plain a =>
    rw [checkedUse?]
    dsimp only
    split
    · exact .nil
    · exact lays_plainProperty a
  | directive d =>
    rw [checkedUse?, propertyUse?]
    dsimp only
    split
    · exact lays_boundProperty d
    · exact .nil

theorem lays_uncheckedProperties (tag : Tag) :
    Lays S ((tag.attributes.filter isFallthrough).flatMap fun a => [plainUse a]) (uncheckedProperties tag) :=
  .flatMap fun a _ => lays_plainProperty a

/-- Every property is either checked or not. -/
theorem mem_propertyUses (tag : Tag) (use : PropertyUse) :
    use ∈ (tag.props.flatMap fun prop => (checkedUse? prop).toList) ++
      ((tag.attributes.filter isFallthrough).flatMap fun a => [plainUse a]) ↔ use ∈ propertyUses tag := by
  have hattributes : ∀ a, a ∈ tag.attributes ↔ .plain a ∈ tag.props := by
    intro a
    rw [Tag.attributes, List.mem_filterMap]
    constructor
    · rintro ⟨prop, hprop, hsome⟩
      cases prop with
      | plain a' =>
        cases hsome
        exact hprop
      | directive => cases hsome
    · exact fun h => ⟨_, h, rfl⟩
  simp only [propertyUses, List.mem_append, List.mem_flatMap, List.mem_filterMap, List.mem_filter, Option.mem_toList,
    List.mem_singleton, hattributes]
  constructor
  · rintro (⟨prop, hprop, hsome⟩ | ⟨a, ⟨ha, -⟩, rfl⟩)
    · refine ⟨prop, hprop, ?_⟩
      cases prop with
      | plain a =>
        rw [checkedUse?] at hsome
        split at hsome
        · cases hsome
        · exact hsome
      | directive d => exact hsome
    · exact ⟨_, ha, rfl⟩
  · rintro ⟨prop, hprop, hsome⟩
    cases prop with
    | plain a =>
      cases hsome
      by_cases hfall : isFallthrough a = true
      · exact .inr ⟨a, ⟨hprop, hfall⟩, rfl⟩
      · exact .inl ⟨_, hprop, by rw [checkedUse?, if_neg hfall]⟩
    | directive d => exact .inl ⟨_, hprop, hsome⟩

theorem lays_checkedObject {tag : Tag} (h : tag.nameSpan ∈ S) (component variable_ : String) :
    Lays S (tag.props.flatMap fun prop => (checkedUse? prop).toList) (checkedObject tag component variable_) := by
  have htags : ∀ spans : List Span, AllCode (CoarseIn S) (spans.flatMap fun span =>
      ["__VLS_components", (tagName component span).access, ";\n"]) :=
    fun _ => allCode_flatMap fun _ _ => by simp
  refine Lays.before (Lays.behind (lays_checkedProperties tag) (allCode_append.2 ⟨htags _, ?_⟩)) (by simp)
  simp [coarseIn_mapped h]

theorem lays_uncheckedObject (tag : Tag) (component : String) :
    Lays S ((tag.attributes.filter isFallthrough).flatMap fun a => [plainUse a]) (uncheckedObject tag component) := by
  unfold uncheckedObject
  split
  · exact Lays.before (Lays.behind (lays_uncheckedProperties tag) (by simp)) (by simp)
  next hnone =>
    have hempty : tag.attributes.filter isFallthrough = [] := by
      rw [List.filter_eq_nil_iff]
      exact fun a ha hfall => hnone (List.any_eq_true.2 ⟨a, ha, hfall⟩)
    rw [hempty]
    exact .nil

/-- The places that a part may have other coarse mappings to: names, contents of slots, and code. -/
def Part.coarsePlaces : Part → List Span
  | .name s => [s]
  | .prop (.directive d) => [slotPlace d]
  | .prop (.plain _) => []
  | .code e => [e.span]

/-- These places of the part are all in the list. -/
def CoversPlaces (S : List Span) (part : Part) : Prop := Part.coarsePlaces part ⊆ S

/-- **The statements of an element** hold its properties. -/
theorem lays_elementStatements {tag : Tag} (h : AllParts (CoversPlaces S) tag.parts) (scope : TemplateScope)
    (ancestors : List String) (next : Nat) :
    Lays S (propertyUses tag) (elementStatements scope ancestors next tag).pieces := by
  have hname : tag.nameSpan ∈ S := (allParts_tag.1 h).1 (List.mem_singleton_self _)
  have hslots : AllCode (CoarseIn S)
      ((tag.directives.filter (·.name == "slot")).flatMap (slotContent scope ancestors)) := by
    refine allCode_flatMap fun d hd => coarseIn_slotContent scope ancestors ?_
    exact allParts_directive h (List.mem_filter.1 hd).1 (List.mem_singleton_self _)
  have hbare : AllCode (CoarseIn S) (tag.directives.flatMap bareDirective) :=
    allCode_flatMap fun d _ => coarseIn_bareDirective d
  have hrefs : AllCode (CoarseIn S) (tag.attributes.flatMap elementRef) :=
    allCode_flatMap fun a _ => coarseIn_elementRef a
  have hclasses : AllCode (CoarseIn S) (tag.attributes.flatMap (classNames scope)) :=
    allCode_flatMap fun a _ => coarseIn_classNames scope a
  have hhandlers : AllCode (CoarseIn S) (((Tag.events tag).zipIdx (next + 2)).flatMap fun event =>
      eventHandler (scope.componentName tag.name) (helperVar event.2) event.1.1 event.1.2) :=
    allCode_flatMap fun _ _ => coarseIn_eventHandler _ _ _ _
  have hoptions : AllCode (CoarseIn S) (tag.props.flatMap (optionReferences (scope.componentName tag.name))) :=
    allCode_flatMap fun prop _ => coarseIn_optionReferences _ prop
  have hobjects := ((lays_checkedObject hname (scope.componentName tag.name) (helperVar next)).append
    (lays_uncheckedObject tag (scope.componentName tag.name))).congr (mem_propertyUses tag)
  have hfront := hobjects.behind (allCode_append.2 ⟨allCode_append.2 ⟨hslots, hbare⟩, hrefs⟩)
  rw [← List.append_assoc] at hfront
  have hpieces := ((hfront.before hclasses).before hhandlers).before hoptions
  unfold elementStatements
  dsimp only
  split
  · exact hpieces.before (coarseIn_slotDeclaration _ tag)
  · exact hpieces

/-! ## 6. The walk -/

variable (scope : TemplateScope)

mutual

theorem lays_walkNode : ∀ (ancestors : List String) (next : Nat) (node : Node), AllParts (CoversPlaces S) node.parts →
    Lays S ((Node.tags node).flatMap propertyUses) (walkNode scope ancestors next node).pieces
  | ancestors, next, .element tag children, h => by
    simp only [Node.parts, allParts_append] at h
    have hown := lays_elementStatements h.1 scope (tag.name :: ancestors) next
    have hinside := lays_walkNodes (tag.name :: ancestors)
      (elementStatements scope (tag.name :: ancestors) next tag).next children h.2
    have hopening : AllCode (CoarseIn S) [raw "\x7b\n"] := by simp
    rw [walkNode, Node.tags, List.flatMap_cons]
    exact ((hown.append hinside).before (by simp)).behind hopening
  | ancestors, next, .chain branches _, h => by
    rw [walkNode, Node.tags]
    exact lays_walkBranches ancestors next true branches h
  | ancestors, next, .loop parts children _, h => by
    simp only [Node.parts, allParts_append, allParts_map] at h
    rw [walkNode, Node.tags]
    cases hvalue : parts.value with
    | none => exact .nil
    | some value =>
      have hsource : parts.source.span ∈ S := h.1 _ (by simp [Loop.expressions]) (List.mem_singleton_self _)
      have hinside := lays_walkNodes ancestors (next + 1) children h.2
      exact (hinside.behind (coarseIn_loopHead hsource value (helperVar next))).before (by simp)
  | _, _, .interpolation _ _, _ => .of_coarseIn (by simp [walkNode])
  | _, _, .text _ _, _ => .nil
  | _, _, .comment _ _, _ => .nil

theorem lays_walkNodes : ∀ (ancestors : List String) (next : Nat) (nodes : List Node),
    AllParts (CoversPlaces S) (nodeParts nodes) →
      Lays S ((nodeTags nodes).flatMap propertyUses) (walkNodes scope ancestors next nodes).pieces
  | _, _, [], _ => .nil
  | ancestors, next, node :: rest, h => by
    simp only [nodeParts, allParts_append] at h
    rw [walkNodes, nodeTags, List.flatMap_append]
    exact (lays_walkNode ancestors next node h.1).append (lays_walkNodes ancestors _ rest h.2)

theorem lays_walkBranches : ∀ (ancestors : List String) (next : Nat) (first : Bool) (branches : List Branch),
    AllParts (CoversPlaces S) (branchParts branches) →
      Lays S ((branchTags branches).flatMap propertyUses) (walkBranches scope ancestors next first branches).pieces
  | _, _, _, [], _ => .nil
  | ancestors, next, first, .mk condition children _ :: rest, h => by
    simp only [branchParts, allParts_append] at h
    have hinside := lays_walkNodes ancestors next children h.1.2
    have htail := lays_walkBranches ancestors (walkNodes scope ancestors next children).next
      (first && condition.isNone) rest h.2
    rw [branchTags, List.flatMap_append]
    simp only [walkBranches]
    refine ((hinside.behind ?_).before (by simp)).append htail
    cases condition with
    | none => simp
    | some e => cases first <;> simp

end

theorem lays_walkRoots (next : Nat) {nodes : List Node} (h : AllParts (CoversPlaces S) (nodeParts nodes)) :
    Lays S ((nodeTags nodes).flatMap propertyUses) (walkRoots scope next nodes).pieces := by
  induction nodes generalizing next with
  | nil => exact .nil
  | cons node rest ih =>
    simp only [nodeParts, allParts_append] at h
    rw [walkRoots, nodeTags, List.flatMap_append]
    have hopening : AllCode (CoarseIn S) [raw "\x7b\n"] := by simp
    have hclosing : AllCode (CoarseIn S) [raw "\x7d\n"] := by simp
    exact (((lays_walkNode scope [] next node h.1).before hclosing).append (ih _ h.2)).behind hopening

theorem lays_templateBody {nodes : List Node} (h : AllParts (CoversPlaces S) (nodeParts nodes)) :
    Lays S ((nodeTags nodes).flatMap propertyUses)
      ((walkRoots scope 0 nodes).pieces ++ slotExports (walkRoots scope 0 nodes).slots) :=
  (lays_walkRoots scope 0 h).before (coarseIn_slotExports _)

end

/-! ## 7. The whole template -/

/-- A part of a template has no other coarse mapping to the place of a property. -/
theorem span_notMem_coarsePlaces {source : String} {prop : TagProp} {use : PropertyUse}
    (hprop : .prop prop ∈ nodeParts (parse source).nodes) (huse : propertyUse? prop = some use) :
    ∀ part ∈ nodeParts (parse source).nodes, prop.span ∉ Part.coarsePlaces part := by
  obtain ⟨hparts, hargs⟩ := parse_props_apart source hprop
  intro part hpart hmem
  cases part with
  | name s =>
    rw [Part.coarsePlaces, List.mem_singleton] at hmem
    cases hparts _ hpart hmem.symm
  | code e =>
    rw [Part.coarsePlaces, List.mem_singleton] at hmem
    cases hparts _ hpart hmem.symm
  | prop other =>
    cases other with
    | plain a => cases hmem
    | directive d =>
      rw [Part.coarsePlaces, List.mem_singleton, slotPlace] at hmem
      cases harg : d.arg with
      | some arg =>
        rw [harg] at hmem
        exact hargs d hpart arg harg hmem.symm
      | none =>
        -- a directive that is written as a property has an argument
        rw [harg] at hmem
        cases hparts _ hpart hmem.symm
        simp [propertyUse?, staticArg?, harg] at huse

/-- The attributes and directives of an element are parts of the tree. -/
theorem prop_mem_nodeParts {nodes : List Node} {tag : Tag} {prop : TagProp} (htag : tag ∈ nodeTags nodes)
    (hprop : prop ∈ tag.props) : .prop prop ∈ nodeParts nodes :=
  (allParts_tag.1 (allParts_of_mem_nodeTags (fun _ h => h) htag)).2.2 prop hprop

theorem mem_uses {nodes : List Node} {use : PropertyUse} :
    use ∈ (nodeTags nodes).flatMap propertyUses ↔
      ∃ tag ∈ nodeTags nodes, ∃ prop ∈ tag.props, propertyUse? prop = some use := by
  simp only [List.mem_flatMap, propertyUses, List.mem_filterMap]

/-- **The coarse mappings to an attribute** or directive are those of the property that it is written as, and there
is one. -/
theorem coarse_laidIn {source : String} {tag : Tag} {prop : TagProp} {use : PropertyUse}
    (htag : tag ∈ nodeTags (parse source).nodes) (hprop : prop ∈ tag.props) (huse : propertyUse? prop = some use)
    (scope : TemplateScope) :
    let body := templateBody scope (parse source).nodes
    (∃ m ∈ body.mappings, IsCoarse m ∧ m.source = prop.span) ∧
      ∀ m ∈ body.mappings, IsCoarse m → m.source = prop.span → use.LaidIn body m := by
  intro body
  have hpart := prop_mem_nodeParts htag hprop
  have hlays : Lays ((nodeParts (parse source).nodes).flatMap Part.coarsePlaces)
      ((nodeTags (parse source).nodes).flatMap propertyUses) _ :=
    lays_templateBody scope fun part hpart s hs => List.mem_flatMap.2 ⟨part, hpart, hs⟩
  constructor
  · obtain ⟨m, hm, hlaid⟩ := hlays.holds use (mem_uses.2 ⟨tag, htag, prop, hprop, huse⟩)
    refine ⟨m, hm, ?_, hlaid.source_eq.trans (propertyUse?_span huse)⟩
    obtain ⟨before, -, rfl⟩ := hlaid
    exact use.coarse_isCoarse
  · intro m hm hcoarse hsource
    obtain hplace | ⟨other, hother, hlaid⟩ := hlays.others m hm hcoarse
    · obtain ⟨part, hpart', hplace⟩ := List.mem_flatMap.1 hplace
      rw [hsource] at hplace
      exact absurd hplace (span_notMem_coarsePlaces hpart huse part hpart')
    · -- properties at one place are one property
      obtain ⟨tag', htag', prop', hprop', hsome⟩ := mem_uses.1 hother
      have hspan : prop'.span = prop.span := by
        rw [← propertyUse?_span hsome, ← hlaid.source_eq, hsource]
      cases (parse_props_apart source hpart).1 _ (prop_mem_nodeParts htag' hprop') hspan
      obtain rfl : use = other := Option.some.inj (huse.symm.trans hsome)
      exact hlaid

/-- **The mapping over a property** selects the property exactly if its key is written in quotes.  Every attribute
and directive of a template that is written as a property has a coarse mapping, and each coarse mapping that leads
to it is laid where the property is written and covers it, together with the comma and the line break behind it
if the key has no quotes. -/
theorem coarse_selects_iff (source : String) (scope : TemplateScope) :
    let nodes := (parse source).nodes
    let body := templateBody scope nodes
    (∀ tag ∈ nodeTags nodes, ∀ prop ∈ tag.props, ∀ use ∈ propertyUse? prop,
      (∃ m ∈ body.mappings, IsCoarse m ∧ m.source = prop.span) ∧
      ∀ m ∈ body.mappings, IsCoarse m → m.source = prop.span →
        use.LaidIn body m ∧ m.target.Reads body.text.toList use.covered ∧
          (m.target.Reads body.text.toList use.text ↔ use.isBare = false)) ∧
    ((∀ tag ∈ nodeTags nodes, ∀ prop ∈ tag.props, ∀ use ∈ propertyUse? prop,
      ∀ m ∈ body.mappings, IsCoarse m → m.source = prop.span → m.target.Reads body.text.toList use.text) ↔
      ∀ tag ∈ nodeTags nodes, ∀ prop ∈ tag.props, ∀ use ∈ propertyUse? prop, use.isBare = false) := by
  intro nodes body
  refine ⟨fun tag htag prop hprop use huse => ?_, ?_⟩
  · obtain ⟨hexists, hlaid⟩ := coarse_laidIn htag hprop huse scope
    refine ⟨hexists, fun m hm hcoarse hsource => ?_⟩
    have h := hlaid m hm hcoarse hsource
    exact ⟨h, h.reads, h.reads_text_iff⟩
  · constructor
    · intro h tag htag prop hprop use huse
      obtain ⟨⟨m, hm, hcoarse, hsource⟩, hlaid⟩ := coarse_laidIn htag hprop huse scope
      have hreads := h tag htag prop hprop use huse m hm hcoarse hsource
      exact (hlaid m hm hcoarse hsource).reads_text_iff.1 hreads
    · intro h tag htag prop hprop use huse m hm hcoarse hsource
      obtain ⟨-, hlaid⟩ := coarse_laidIn htag hprop huse scope
      exact (hlaid m hm hcoarse hsource).reads_text_iff.2 (h tag htag prop hprop use huse)

/-- An attribute whose name is an identifier. -/
def bareKeyAttribute : Attribute := ⟨"a", ⟨3, 4⟩, some ⟨"b", ⟨6, 7⟩, ⟨5, 8⟩⟩, ⟨3, 8⟩⟩

/-- The mapping over a property with such a key goes on behind the property. -/
theorem not_coarse_selects_bareKey : ¬ ∀ (source : String) (scope : TemplateScope),
    ∀ tag ∈ nodeTags (parse source).nodes, ∀ prop ∈ tag.props, ∀ use ∈ propertyUse? prop,
      ∀ m ∈ (templateBody scope (parse source).nodes).mappings, IsCoarse m → m.source = prop.span →
        m.target.Reads (templateBody scope (parse source).nodes).text.toList use.text := by
  intro h
  have hreads := h "<p a=\"b\"/>" ⟨[], [], false⟩ ⟨"p", ⟨1, 2⟩, none, [.plain bareKeyAttribute], true, ⟨0, 10⟩⟩
    (by decide +kernel) (.plain bareKeyAttribute) (by simp) (plainUse bareKeyAttribute) rfl
    ⟨templateData .diagnosticOnly, .gate, ⟨3, 8⟩, ⟨76, 84⟩, []⟩ (by decide +kernel) ⟨rfl, rfl⟩ rfl
  have hcut : (Span.mk 76 84).cut? (templateBody ⟨[], [], false⟩ (parse "<p a=\"b\"/>").nodes).text.toList =
      some "a: `b`,\n".toList := by decide +kernel
  have htext := Option.some.inj (hcut.symm.trans hreads.cut?)
  exact absurd htext (by decide +kernel)

end ComponentLens.Virtual
