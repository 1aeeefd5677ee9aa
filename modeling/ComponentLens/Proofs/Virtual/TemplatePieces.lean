/-
# The pieces of the template document

A template body is put together from few kinds of pieces: text that stands for nothing, copied expressions,
names, and coarse mappings that are matched as a whole.  What the body says in many places follows from what
each kind says.

`BodyClosed Q` says that a property of code holds of every such piece, as far as the piece leads to a place
of the template, and of whatever is put together from pieces that have it.  `BodyClosed.templateBody` then
gives it for the body of every tree whose parts stand in the template.  The walk over the tree is done here
once, whatever the property.

The statements of an element hold fewer kinds of pieces, and some properties speak of one element only.  So
they are gone through for any `Ground`: which code may be copied, which values may be referred to, and where
names may stand (`ElementClosed`).
-/
import ComponentLens.Proofs.Mapping.Shows
import ComponentLens.Proofs.Markup.Parts
import ComponentLens.Virtual.TemplateDocument

namespace ComponentLens.Virtual

open Markup

/-- The property is closed, and holds of the pieces of a template body. -/
structure BodyClosed (source : List Char) (Q : Code → Prop) : Prop extends MappedText.Closed Q where
  /-- The code of an expression or the value of an attribute, copied. -/
  expression : ∀ (e : Expression) (capabilities : Capabilities), e.StandsIn source →
    Q (expression e capabilities)
  /-- A name serves no semantic tokens, for it may be spelled in another way. -/
  bare : ∀ use : NameUse, use.capabilities.has .semanticTokens = false → Bounds source use.source → Q use.bare
  gate : ∀ (code : String) (span : Span) (data : CodeData), data.region = .template → Bounds source span →
    Q (.mapped code span .gate data)
  ahead : ∀ (code : String) (span : Span) (data : CodeData), data.region = .template → Bounds source span →
    Q (.ahead code span .gate data)
  covering : ∀ (code : Code) (span : Span) (data : CodeData), Q code → data.region = .template →
    Bounds source span → Q (code.covering span .gate data)

/-- All pieces have the property. -/
def AllCode (Q : Code → Prop) (codes : List Code) : Prop := ∀ code ∈ codes, Q code

section

variable {Q : Code → Prop}

@[simp] theorem allCode_nil : AllCode Q [] := by simp [AllCode]

@[simp] theorem allCode_cons {code : Code} {codes : List Code} :
    AllCode Q (code :: codes) ↔ Q code ∧ AllCode Q codes := by simp [AllCode]

@[simp] theorem allCode_append {codes more : List Code} :
    AllCode Q (codes ++ more) ↔ AllCode Q codes ∧ AllCode Q more := by
  simp [AllCode, or_imp, forall_and]

theorem allCode_flatMap {β : Type} {f : β → List Code} {xs : List β} (h : ∀ x ∈ xs, AllCode Q (f x)) :
    AllCode Q (xs.flatMap f) := by
  intro code hmem
  obtain ⟨x, hx, hcode⟩ := List.mem_flatMap.1 hmem
  exact h x hx code hcode

end

/-- What holds of the code of a part of the tree: its pieces have the property, and the slots that it declares
are named at places of the template. -/
structure Walk.Holds (source : List Char) (Q : Code → Prop) (walk : Walk) : Prop where
  pieces : AllCode Q walk.pieces
  slots : ∀ slot ∈ walk.slots, Bounds source slot.tagSpan

/-- An event of an element is the argument and the code of one of its directives. -/
theorem exists_directive_of_event {tag : Tag} {arg : DirectiveArg} {exp : Expression}
    (h : (arg, exp) ∈ Tag.events tag) : ∃ d ∈ tag.directives, staticArg? d = some arg ∧ d.exp = some exp := by
  obtain ⟨d, hd, hevent⟩ := List.mem_filterMap.1 h
  obtain ⟨arg', harg, hevent⟩ := Option.bind_eq_some_iff.1 hevent
  obtain ⟨exp', hexp, hevent⟩ := Option.bind_eq_some_iff.1 hevent
  cases hevent
  exact ⟨d, (List.mem_filter.1 hd).1, harg, hexp⟩

/-! ## 1. Places of words

A class name stands between white space in the value of its attribute. -/

/-- Every word stands in the text at its offset. -/
def WordsStandIn (text : List Char) (words : List (Nat × List Char)) : Prop :=
  ∀ w ∈ words, Span.Reads ⟨w.1, w.1 + byteLength w.2⟩ text w.2

/-- The word that has begun, if one has, stands right in front of the offset. -/
def Begun (before : List Char) (word : Option (Nat × List Char)) : Prop :=
  ∀ w ∈ word, ∃ front, before = front ++ w.2 ∧ w.1 = byteLength front

theorem Begun.standIn {before : List Char} {word : Option (Nat × List Char)} (h : Begun before word)
    (after : List Char) : WordsStandIn (before ++ after) word.toList := by
  rintro ⟨start, taken⟩ hw
  obtain ⟨front, rfl, rfl⟩ := h _ (Option.mem_toList.1 hw)
  rw [List.append_assoc]
  exact Span.reads_append _ _ _

/-- The words of a text stand in it. -/
theorem wordsFrom_standIn (before : List Char) (word : Option (Nat × List Char)) (cs : List Char)
    (hword : Begun before word) :
    WordsStandIn (before ++ cs) (wordsFrom (byteLength before) word cs) := by
  induction cs generalizing before word with
  | nil =>
    simp only [wordsFrom]
    exact hword.standIn []
  | cons c cs ih =>
    have hnext : byteLength before + c.utf8Size = byteLength (before ++ [c]) := by simp
    have hcs : before ++ c :: cs = (before ++ [c]) ++ cs := by simp
    simp only [wordsFrom, hnext]
    split
    · intro w hw
      rcases List.mem_append.1 hw with hw | hw
      · exact hword.standIn (c :: cs) w hw
      · rw [hcs]
        exact ih (before ++ [c]) none (by simp [Begun]) w hw
    · rw [hcs]
      split
      · refine ih (before ++ [c]) _ ?_
        rintro w ⟨⟩
        exact ⟨before, rfl, rfl⟩
      next start taken =>
        obtain ⟨front, hfront, hstart⟩ := hword _ rfl
        refine ih (before ++ [c]) _ ?_
        rintro w ⟨⟩
        exact ⟨front, by simp [hfront], hstart⟩

/-- A word of a value stands in the template. -/
theorem word_bounds {source : List Char} {v : AttrValue} (hv : v.span.Reads source v.content.toList)
    {offset : Nat} {word : List Char} (h : (offset, word) ∈ wordsFrom 0 none v.content.toList) :
    Bounds source ⟨v.span.start + offset, v.span.start + offset + byteLength word⟩ := by
  have hword := (wordsFrom_standIn [] none v.content.toList (by simp [Begun]) _ h).trans hv
  have hspan : Span.shift ⟨offset, offset + byteLength word⟩ v.span.start =
      ⟨v.span.start + offset, v.span.start + offset + byteLength word⟩ := by
    simp only [Span.shift, Span.mk.injEq]
    omega
  rw [hspan] at hword
  exact bounds_of_reads hword

/-! ## 2. Grounds -/

/-- What the statements of an element may lead to. -/
structure Ground where
  /-- Code that may be copied. -/
  copied : Expression → Prop
  /-- Values of attributes that may be referred to. -/
  referred : AttrValue → Prop
  /-- Places where names may stand. -/
  named : Span → Prop
  /-- A word of a value is a name. -/
  words : ∀ v : AttrValue, referred v → ∀ offset word, (offset, word) ∈ wordsFrom 0 none v.content.toList →
    named ⟨v.span.start + offset, v.span.start + offset + byteLength word⟩

namespace Ground

/-- The code, the value and the places of a part lie on the ground. -/
def Holds (g : Ground) : Part → Prop
  | .name s => g.named s
  | .prop (.plain a) => g.named a.span ∧ g.named a.nameSpan ∧ ∀ v ∈ a.value, g.referred v
  | .prop (.directive d) => g.named d.span ∧ (∀ arg ∈ d.arg, g.named arg.span) ∧ ∀ e ∈ d.exp, g.copied e
  | .code e => g.copied e

/-- All that stands in a template. -/
def template (source : List Char) : Ground where
  copied e := e.StandsIn source
  referred v := v.span.Reads source v.content.toList
  named := Bounds source
  words _ hv _ _ hword := word_bounds hv hword

theorem template_holds {source : List Char} {part : Part} (h : Placed source part) :
    (template source).Holds part := by
  unfold Placed at h
  split at h
  next => exact h
  next => exact h
  next =>
    obtain ⟨hspan, hargs, hexp⟩ := h
    exact ⟨hspan, fun arg harg => bounds_of_reads (hargs arg harg), hexp⟩
  next => exact h

variable {g : Ground} {tag : Tag}

/-- The argument of a directive, where it is a name, lies on the ground. -/
theorem staticArg?_named {d : Directive} {arg : DirectiveArg} (hd : g.Holds (.prop (.directive d)))
    (harg : staticArg? d = some arg) : g.named arg.span :=
  hd.2.1 arg (Option.filter_eq_some_iff.1 harg).1

/-- The place of an option is that of the attribute name or of the argument. -/
theorem optionNames_named {prop : TagProp} (h : g.Holds (.prop prop)) {inputs events : List String}
    {span : Span} (hnames : optionNames prop = some (inputs, events, span)) : g.named span := by
  unfold optionNames at hnames
  split at hnames
  next a =>
    split at hnames
    · cases hnames
    · cases hnames
      exact h.2.1
  next d =>
    split at hnames
    · cases hnames
    next arg harg =>
      have hspan := staticArg?_named h harg
      dsimp only at hnames
      split at hnames
      · cases hnames
        exact hspan
      · split at hnames
        · cases hnames
          exact hspan
        · cases hnames

end Ground

/-- The property is closed, and holds of the pieces that an element is written with. -/
structure ElementClosed (g : Ground) (Q : Code → Prop) : Prop extends MappedText.Closed Q where
  copied : ∀ e : Expression, g.copied e → Q (expression e)
  referred : ∀ v : AttrValue, g.referred v → Q (expression ⟨v.content, v.span⟩ .referencesOnly)
  /-- A name serves no semantic tokens, for it may be spelled in another way. -/
  bare : ∀ use : NameUse, use.capabilities.has .semanticTokens = false → g.named use.source → Q use.bare
  gate : ∀ (code : String) (span : Span) (data : CodeData), data.region = .template → g.named span →
    Q (.mapped code span .gate data)
  ahead : ∀ (code : String) (span : Span) (data : CodeData), data.region = .template → g.named span →
    Q (.ahead code span .gate data)
  covering : ∀ (code : Code) (span : Span) (data : CodeData), Q code → data.region = .template →
    g.named span → Q (code.covering span .gate data)

/-! ## 3. Names -/

namespace ElementClosed

variable {g : Ground} {Q : Code → Prop} (hQ : ElementClosed g Q)
include hQ

theorem raw (text : String) : Q (raw text) := hQ.plain text

theorem ignoreNext : Q ignoreNext := hQ.plain _

section

variable (name : String) {span : Span} (capabilities : Capabilities) (keepsHyphens : Bool)
  (h : capabilities.has .semanticTokens = false) (hspan : g.named span)
include h hspan

theorem quoted : Q (NameUse.mk name span capabilities keepsHyphens).quoted := by
  have hahead := fun code data hdata => hQ.ahead code span data hdata hspan
  have hbare := hQ.bare ⟨name, span, capabilities, keepsHyphens⟩ h hspan
  refine hQ.concat _ ?_
  show AllCode Q _
  simp only [allCode_cons, allCode_nil, hQ.plain, hbare, and_true]
  exact hahead _ _ rfl

theorem key : Q (NameUse.mk name span capabilities keepsHyphens).key := by
  unfold NameUse.key
  split
  · exact hQ.bare _ h hspan
  · exact hQ.quoted name capabilities keepsHyphens h hspan

theorem access : Q (NameUse.mk name span capabilities keepsHyphens).access := by
  have hbare := hQ.bare ⟨name, span, capabilities, keepsHyphens⟩ h hspan
  have hquoted := hQ.quoted name capabilities keepsHyphens h hspan
  unfold NameUse.access
  split
  · refine hQ.concat _ ?_
    show AllCode Q _
    simp only [allCode_cons, allCode_nil, hQ.plain, hbare, and_self]
  · refine hQ.concat _ ?_
    show AllCode Q _
    simp only [allCode_cons, allCode_nil, hQ.plain, hquoted, and_self]

end

theorem tagKey (name : String) {span : Span} (h : g.named span) : Q (tagName name span).key :=
  hQ.key name .tagOrAttribute true (by decide) h

/-! ## 4. Directives and attributes -/

variable {d : Directive} {a : Attribute}

theorem slotContent (scope : TemplateScope) (ancestors : List String)
    (hd : g.Holds (.prop (.directive d))) : AllCode Q (slotContent scope ancestors d) := by
  obtain ⟨hspan, harg, hexp⟩ := hd
  unfold Virtual.slotContent
  split
  · exact allCode_nil
  next parent _ =>
    dsimp only
    refine allCode_append.2 ⟨?_, ?_⟩
    · split
      next e he => simp [hQ.plain, hQ.copied e (hexp e he)]
      next => exact allCode_nil
    · have hplace : g.named ((d.arg.map (·.span)).getD d.span) := by
        cases h : d.arg with
        | none => exact hspan
        | some arg => exact harg arg h
      have hcovering := fun code hcode =>
        hQ.covering code _ (templateData .diagnosticOnly) hcode rfl hplace
      have haccess := fun name => hQ.access name .slotName false (by decide) hplace
      have hslot := hQ.concat ["__VLS_components['" ++ scope.componentName parent ++ "'].__VLS_slots",
        (NameUse.mk ((((staticArg? d).filter (!·.content.isEmpty)).map (·.content)).getD "default")
          ((d.arg.map (·.span)).getD d.span) .slotName false).access]
        (by show AllCode Q _; simp [hQ.plain, haccess])
      simpa [hQ.plain] using hcovering _ hslot

theorem bareDirective (hd : g.Holds (.prop (.directive d))) : AllCode Q (bareDirective d) := by
  unfold Virtual.bareDirective
  split
  next e _ he =>
    split
    · exact allCode_nil
    · simp [hQ.plain, hQ.copied e (hd.2.2 e he)]
  next => exact allCode_nil

theorem elementRef (ha : g.Holds (.prop (.plain a))) : AllCode Q (elementRef a) := by
  unfold Virtual.elementRef
  split
  next value hvalue =>
    split
    · simp [hQ.plain, hQ.ignoreNext, hQ.referred value (ha.2.2 value hvalue)]
    · exact allCode_nil
  next => exact allCode_nil

theorem property (name : String) {nameSpan span : Span} {value : List Code} (shown literal : String)
    (hname : g.named nameSpan) (hspan : g.named span) (hvalue : AllCode Q value) :
    AllCode Q (property name nameSpan span value shown literal) := by
  have hahead := fun code => hQ.ahead code span (templateData .diagnosticOnly) rfl hspan
  unfold Virtual.property
  dsimp only
  refine allCode_append.2 ⟨?_, ?_⟩
  · simp [hahead, hQ.tagKey _ hname, hQ.plain, hQ.raw, hvalue]
  · split
    · exact allCode_nil
    · simp [hQ.tagKey _ hname, hQ.plain]

theorem boundProperty (hd : g.Holds (.prop (.directive d))) : AllCode Q (boundProperty d) := by
  unfold Virtual.boundProperty
  split
  · exact allCode_nil
  next arg harg =>
    refine hQ.property _ _ _ (Ground.staticArg?_named hd harg) hd.1 ?_
    split
    next e he => simp [hQ.plain, hQ.copied e (hd.2.2 e he)]
    next => simp [hQ.plain]

theorem plainProperty (ha : g.Holds (.prop (.plain a))) : AllCode Q (plainProperty a) :=
  hQ.property _ _ _ ha.2.1 ha.1 (by simp [hQ.plain])

theorem classNames (scope : TemplateScope) (ha : g.Holds (.prop (.plain a))) :
    AllCode Q (classNames scope a) := by
  unfold Virtual.classNames
  split
  next value hvalue =>
    split
    · refine allCode_flatMap ?_
      rintro ⟨offset, word⟩ hword
      have hplace := g.words value (ha.2.2 value hvalue) offset word hword
      unfold className
      dsimp only
      have hcapabilities : (if scope.linksScopedClasses && scope.scopedClasses.contains (String.ofList word)
          then .className ||| .displayWithLink else Capabilities.className).has .semanticTokens = false := by
        split <;> decide
      have haccess := hQ.access (String.ofList word) _ false hcapabilities hplace
      simp only [allCode_cons, allCode_nil, hQ.ignoreNext, hQ.plain, haccess, and_self]
    · exact allCode_nil
  next => exact allCode_nil

theorem eventHandler (component variable_ : String) {arg : DirectiveArg} {e : Expression}
    (harg : g.named arg.span) (he : g.copied e) :
    AllCode Q (eventHandler component variable_ arg e) := by
  have hquoted := fun name => hQ.quoted name .tagOrAttribute false (by decide) harg
  have hkey := fun name => hQ.key name .tagOrAttribute false (by decide) harg
  unfold Virtual.eventHandler
  simp [hQ.plain, hquoted, hkey, hQ.copied e he]

theorem optionReferences (component : String) {prop : TagProp} (h : g.Holds (.prop prop)) :
    AllCode Q (optionReferences component prop) := by
  have huses : ∀ option keepsHyphens span names, g.named span →
      AllCode Q (optionUses component option keepsHyphens span names) := by
    intro option keepsHyphens span names hspan
    refine allCode_flatMap ?_
    intro name _
    have haccess := hQ.access name (Capabilities.tagOrAttribute.without .basic) keepsHyphens (by decide) hspan
    simp [hQ.plain, hQ.ignoreNext, haccess]
  unfold Virtual.optionReferences
  split
  · exact allCode_nil
  next inputs events span hnames =>
    have hspan : g.named span := Ground.optionNames_named h hnames
    exact allCode_append.2 ⟨huses _ _ _ _ hspan, huses _ _ _ _ hspan⟩

theorem slotBinding {prop : TagProp} (h : g.Holds (.prop prop)) : AllCode Q (slotBinding prop) := by
  unfold Virtual.slotBinding
  split
  next d =>
    split
    next arg e harg he =>
      simp [hQ.plain, hQ.tagKey _ (Ground.staticArg?_named h harg), hQ.copied e (h.2.2 e he)]
    next => exact allCode_nil
  next a =>
    split
    · exact allCode_nil
    · simp [hQ.plain, hQ.tagKey _ h.2.1]

/-! ## 5. Elements -/

variable {tag : Tag} (htag : AllParts g.Holds tag.parts)
include htag

theorem slotDeclaration (n : Nat) : AllCode Q (slotDeclaration n tag).1 := by
  obtain ⟨-, -, hprops⟩ := allParts_tag.1 htag
  have hbindings : AllCode Q (tag.props.flatMap Virtual.slotBinding) :=
    allCode_flatMap fun prop hprop => hQ.slotBinding (hprops prop hprop)
  have hwhole : ∀ e ∈ (tag.directives.find? fun d => d.arg.isNone && d.exp.isSome).bind (·.exp),
      g.copied e := by
    intro e he
    obtain ⟨d, hd, he⟩ := Option.bind_eq_some_iff.1 he
    exact (allParts_directive htag (List.mem_of_find?_eq_some hd)).2.2 e he
  unfold Virtual.slotDeclaration
  dsimp only
  simp only [allCode_append, allCode_cons, allCode_nil, MappedText.plain_append, hQ.raw, hQ.plain, and_true]
  refine ⟨?_, hbindings⟩
  split
  next e he => simp [hQ.plain, hQ.copied e (hwhole e he)]
  next => exact allCode_nil

theorem checkedObject (component variable_ : String) :
    AllCode Q (checkedObject tag component variable_) := by
  obtain ⟨hname, hend, hprops⟩ := allParts_tag.1 htag
  have hproperties : AllCode Q (checkedProperties tag) := by
    refine allCode_flatMap ?_
    intro prop hprop
    split
    next d =>
      split
      · exact hQ.boundProperty (hprops _ hprop)
      · exact allCode_nil
    next a =>
      split
      · exact allCode_nil
      · exact hQ.plainProperty (hprops _ hprop)
  have htags : ∀ span ∈ tag.nameSpan :: (if tag.isSelfClosing then [] else tag.endNameSpan.toList),
      g.named span := by
    intro span hspan
    rcases List.mem_cons.1 hspan with rfl | hspan
    · exact hname
    · split at hspan
      · cases hspan
      · exact hend span (Option.mem_toList.1 hspan)
  have haccess : ∀ span, g.named span → Q (tagName component span).access := fun span hspan =>
    hQ.access component .tagOrAttribute true (by decide) hspan
  have hvariable := hQ.gate variable_ tag.nameSpan (templateData .diagnosticOnly) rfl hname
  unfold Virtual.checkedObject
  dsimp only
  simp only [allCode_append, allCode_cons, allCode_nil, hQ.raw, hvariable, MappedText.plain_append,
    hQ.plain, and_true, hproperties]
  exact allCode_flatMap fun span hspan => by simp [hQ.plain, haccess span (htags span hspan)]

theorem uncheckedObject (component : String) : AllCode Q (uncheckedObject tag component) := by
  unfold Virtual.uncheckedObject
  split
  · have hproperties : AllCode Q (uncheckedProperties tag) :=
      allCode_flatMap fun a ha => hQ.plainProperty (allParts_attribute htag (List.mem_filter.1 ha).1)
    simp [hQ.plain, hQ.raw, hQ.ignoreNext, hproperties]
  · exact allCode_nil

theorem eventHandlers (component : String) (next : Nat) :
    AllCode Q (((Tag.events tag).zipIdx next).flatMap fun ((arg, exp), n) =>
      Virtual.eventHandler component (helperVar n) arg exp) := by
  refine allCode_flatMap ?_
  rintro ⟨⟨arg, exp⟩, n⟩ hmem
  obtain ⟨d, hd, harg, hexp⟩ := exists_directive_of_event (List.fst_mem_of_mem_zipIdx hmem)
  have hplaced := allParts_directive htag hd
  exact hQ.eventHandler _ _ (Ground.staticArg?_named hplaced harg) (hplaced.2.2 _ hexp)

/-- The statements of an element.  A slot that it declares is named at its tag. -/
theorem elementStatements (scope : TemplateScope) (ancestors : List String) (next : Nat) :
    AllCode Q (elementStatements scope ancestors next tag).pieces ∧
      ∀ slot ∈ (Virtual.elementStatements scope ancestors next tag).slots, g.named slot.tagSpan := by
  obtain ⟨hname, -, hprops⟩ := allParts_tag.1 htag
  have hslots : AllCode Q
      ((tag.directives.filter (·.name == "slot")).flatMap (Virtual.slotContent scope ancestors)) :=
    allCode_flatMap fun d hd =>
      hQ.slotContent scope ancestors (allParts_directive htag (List.mem_filter.1 hd).1)
  have hbare : AllCode Q (tag.directives.flatMap Virtual.bareDirective) :=
    allCode_flatMap fun d hd => hQ.bareDirective (allParts_directive htag hd)
  have hrefs : AllCode Q (tag.attributes.flatMap Virtual.elementRef) :=
    allCode_flatMap fun a ha => hQ.elementRef (allParts_attribute htag ha)
  have hclasses : AllCode Q (tag.attributes.flatMap (Virtual.classNames scope)) :=
    allCode_flatMap fun a ha => hQ.classNames scope (allParts_attribute htag ha)
  have hoptions : AllCode Q
      (tag.props.flatMap (Virtual.optionReferences (scope.componentName tag.name))) :=
    allCode_flatMap fun prop hprop => hQ.optionReferences _ (hprops prop hprop)
  have hhandlers := hQ.eventHandlers htag (scope.componentName tag.name) (next + 2)
  have hchecked := hQ.checkedObject htag (scope.componentName tag.name) (helperVar next)
  have hunchecked := hQ.uncheckedObject htag (scope.componentName tag.name)
  unfold Virtual.elementStatements
  dsimp only
  split
  · constructor
    · simp [hslots, hbare, hrefs, hclasses, hoptions, hhandlers, hchecked, hunchecked,
        hQ.slotDeclaration htag]
    · intro slot hslot
      obtain rfl := List.mem_singleton.1 hslot
      exact hname
  · constructor
    · simp [hslots, hbare, hrefs, hclasses, hoptions, hhandlers, hchecked, hunchecked]
    · simp

end ElementClosed

/-! ## 6. The walk -/

namespace BodyClosed

variable {source : List Char} {Q : Code → Prop} (hQ : BodyClosed source Q)
include hQ

theorem raw (text : String) : Q (raw text) := hQ.plain text

/-- What holds of the pieces of a body holds of the pieces of its elements. -/
theorem element : ElementClosed (.template source) Q where
  toClosed := hQ.toClosed
  copied e := hQ.expression e .expression
  referred v := hQ.expression ⟨v.content, v.span⟩ .referencesOnly
  bare := hQ.bare
  gate := hQ.gate
  ahead := hQ.ahead
  covering := hQ.covering

theorem elementStatements {tag : Tag} (htag : AllParts (Placed source) tag.parts) (scope : TemplateScope)
    (ancestors : List String) (next : Nat) : (elementStatements scope ancestors next tag).Holds source Q := by
  have hholds : AllParts (Ground.template source).Holds tag.parts := fun part hpart =>
    Ground.template_holds (htag part hpart)
  obtain ⟨hpieces, hslots⟩ := hQ.element.elementStatements hholds scope ancestors next
  exact ⟨hpieces, hslots⟩

theorem loopHead {parts : Loop} {value : Expression} (variable_ : String)
    (hparts : ∀ e ∈ parts.expressions, e.StandsIn source) (hvalue : parts.value = some value) :
    AllCode Q (loopHead parts value variable_) := by
  have hsource : parts.source.StandsIn source := hparts _ (by simp [Loop.expressions])
  have hvalue : value.StandsIn source := hparts _ (by simp [Loop.expressions, hvalue])
  have hkey : ∀ e ∈ parts.key, e.StandsIn source := fun e he =>
    hparts e (by simp [Loop.expressions, Option.mem_def.1 he])
  have hindex : ∀ e ∈ parts.index, e.StandsIn source := fun e he =>
    hparts e (by simp [Loop.expressions, Option.mem_def.1 he])
  have hgate := hQ.gate variable_ parts.source.span (templateData .diagnosticOnly) rfl
    (bounds_of_reads hsource)
  unfold Virtual.loopHead
  dsimp only
  refine allCode_append.2 ⟨allCode_append.2 ⟨?_, ?_⟩, ?_⟩
  · simp [hQ.plain, hQ.raw, hgate, hQ.expression _ _ hsource, hQ.expression _ _ hvalue]
  · split
    next e he => simp [hQ.plain, hQ.expression e _ (hkey e he)]
    next => exact allCode_nil
  · split
    next e he => simp [hQ.plain, hQ.expression e _ (hindex e he)]
    next => exact allCode_nil

end BodyClosed

section

variable {source : List Char} {Q : Code → Prop}

theorem Walk.Holds.nil (next : Nat) : (Walk.mk [] next []).Holds source Q := ⟨by simp, by simp⟩

mutual

theorem BodyClosed.walkNode (hQ : BodyClosed source Q) (scope : TemplateScope) :
    ∀ (ancestors : List String) (next : Nat) (node : Node), AllParts (Placed source) node.parts →
      (walkNode scope ancestors next node).Holds source Q
  | ancestors, next, .element tag children, h => by
    simp only [Node.parts, allParts_append] at h
    have hown := hQ.elementStatements h.1 scope (tag.name :: ancestors) next
    have hinside := BodyClosed.walkNodes hQ scope (tag.name :: ancestors)
      (Virtual.elementStatements scope (tag.name :: ancestors) next tag).next children h.2
    rw [Virtual.walkNode]
    constructor
    · simp [hQ.raw, hown.pieces, hinside.pieces]
    · intro slot hslot
      rcases List.mem_append.1 hslot with hslot | hslot
      · exact hown.slots slot hslot
      · exact hinside.slots slot hslot
  | ancestors, next, .interpolation e _, h => by
    simp only [Node.parts, allParts_cons] at h
    rw [Virtual.walkNode]
    exact ⟨by simp [hQ.plain, hQ.expression e _ h.1], by simp⟩
  | ancestors, next, .chain branches _, h => by
    rw [Virtual.walkNode]
    exact BodyClosed.walkBranches hQ scope ancestors next true branches h
  | ancestors, next, .loop parts children _, h => by
    simp only [Node.parts, allParts_append, allParts_map] at h
    rw [Virtual.walkNode]
    split
    · exact .nil next
    next value hvalue =>
      have hhead := hQ.loopHead (helperVar next) h.1 hvalue
      have hinside := BodyClosed.walkNodes hQ scope ancestors (next + 1) children h.2
      exact ⟨by simp [hQ.raw, hhead, hinside.pieces], hinside.slots⟩
  | _, next, .text _ _, _ => by
    rw [Virtual.walkNode]
    exact .nil next
  | _, next, .comment _ _, _ => by
    rw [Virtual.walkNode]
    exact .nil next

theorem BodyClosed.walkNodes (hQ : BodyClosed source Q) (scope : TemplateScope) :
    ∀ (ancestors : List String) (next : Nat) (nodes : List Node),
      AllParts (Placed source) (nodeParts nodes) → (walkNodes scope ancestors next nodes).Holds source Q
  | _, next, [], _ => by
    rw [Virtual.walkNodes]
    exact .nil next
  | ancestors, next, node :: rest, h => by
    simp only [nodeParts, allParts_append] at h
    have hhead := BodyClosed.walkNode hQ scope ancestors next node h.1
    have htail := BodyClosed.walkNodes hQ scope ancestors (Virtual.walkNode scope ancestors next node).next
      rest h.2
    rw [Virtual.walkNodes]
    constructor
    · simp [hhead.pieces, htail.pieces]
    · intro slot hslot
      rcases List.mem_append.1 hslot with hslot | hslot
      · exact hhead.slots slot hslot
      · exact htail.slots slot hslot

theorem BodyClosed.walkBranches (hQ : BodyClosed source Q) (scope : TemplateScope) :
    ∀ (ancestors : List String) (next : Nat) (first : Bool) (branches : List Branch),
      AllParts (Placed source) (branchParts branches) →
      (walkBranches scope ancestors next first branches).Holds source Q
  | _, next, _, [], _ => by
    rw [Virtual.walkBranches]
    exact .nil next
  | ancestors, next, first, .mk condition children _ :: rest, h => by
    simp only [branchParts, allParts_append, allParts_map] at h
    obtain ⟨⟨hcondition, hchildren⟩, hrest⟩ := h
    have hinside := BodyClosed.walkNodes hQ scope ancestors next children hchildren
    have htail := BodyClosed.walkBranches hQ scope ancestors
      (Virtual.walkNodes scope ancestors next children).next (first && condition.isNone) rest hrest
    constructor
    · cases condition with
      | none => simpa [Virtual.walkBranches, hQ.plain, hQ.raw, hinside.pieces] using htail.pieces
      | some e =>
        have hopening : Q (if first then "if (\n(" else "else if (\n(") := by split <;> exact hQ.plain _
        have he := hQ.expression e .expression (hcondition e (by simp))
        simpa [Virtual.walkBranches, hQ.plain, hQ.raw, hinside.pieces, hopening, he] using htail.pieces
    · simp only [Virtual.walkBranches]
      intro slot hslot
      rcases List.mem_append.1 hslot with hslot | hslot
      · exact hinside.slots slot hslot
      · exact htail.slots slot hslot

end

end

/-! ## 7. The body -/

/-- Slots of one name are merged into one of them. -/
theorem mem_mergeSlots {slots : List SlotExport} {slot : SlotExport} (h : slot ∈ mergeSlots slots) :
    slot ∈ slots := by
  have hfold : ∀ (more merged : List SlotExport), (∀ s ∈ merged, s ∈ slots) → (∀ s ∈ more, s ∈ slots) →
      ∀ s ∈ more.foldl (fun merged slot =>
        if merged.any (·.name == slot.name) then
          merged.map fun other => if other.name == slot.name then slot else other
        else merged ++ [slot]) merged, s ∈ slots := by
    intro more
    induction more with
    | nil => exact fun merged hmerged _ => hmerged
    | cons slot more ih =>
      intro merged hmerged hmore
      have hslot := hmore slot (by simp)
      refine ih _ ?_ fun s hs => hmore s (by simp [hs])
      intro s hs
      dsimp only at hs
      split at hs
      · obtain ⟨other, hother, rfl⟩ := List.mem_map.1 hs
        split
        · exact hslot
        · exact hmerged other hother
      · rcases List.mem_append.1 hs with hs | hs
        · exact hmerged s hs
        · obtain rfl := List.mem_singleton.1 hs
          exact hslot
  exact hfold slots [] (by simp) (fun _ hs => hs) slot h

/-- The export of the slots names each of them at its tag. -/
theorem ElementClosed.slotExports {g : Ground} {Q : Code → Prop} (hQ : ElementClosed g Q)
    {slots : List SlotExport} (h : ∀ slot ∈ slots, g.named slot.tagSpan) : AllCode Q (slotExports slots) := by
  have hentries : AllCode Q ((mergeSlots slots).flatMap fun slot =>
      [(NameUse.mk slot.name slot.tagSpan .slotNameExport false).key, ": " ++ slot.variable_ ++ ",\n"]) := by
    refine allCode_flatMap ?_
    intro slot hslot
    have hkey := hQ.key slot.name .slotNameExport false (by decide) (h slot (mem_mergeSlots hslot))
    simp [hQ.plain, hkey]
  unfold Virtual.slotExports
  simp only [allCode_append, allCode_cons, allCode_nil, hQ.raw, hentries, and_self]

namespace BodyClosed

variable {source : List Char} {Q : Code → Prop} (hQ : BodyClosed source Q)
include hQ

theorem walkRoots (scope : TemplateScope) (next : Nat) {nodes : List Node}
    (h : AllParts (Placed source) (nodeParts nodes)) : (walkRoots scope next nodes).Holds source Q := by
  induction nodes generalizing next with
  | nil => exact .nil next
  | cons node rest ih =>
    simp only [nodeParts, allParts_append] at h
    have hhead := hQ.walkNode scope [] next node h.1
    have htail := ih (Virtual.walkNode scope [] next node).next h.2
    rw [Virtual.walkRoots]
    constructor
    · simp [hQ.raw, hhead.pieces, htail.pieces]
    · intro slot hslot
      rcases List.mem_append.1 hslot with hslot | hslot
      · exact hhead.slots slot hslot
      · exact htail.slots slot hslot

/-- **The body.**  Whatever holds of the pieces holds of the body of every tree whose parts stand in the
template. -/
theorem templateBody (scope : TemplateScope) {nodes : List Node}
    (h : AllParts (Placed source) (nodeParts nodes)) : Q (templateBody scope nodes) := by
  have hwalk := hQ.walkRoots scope 0 h
  exact hQ.concat _ (allCode_append.2 ⟨hwalk.pieces, hQ.element.slotExports hwalk.slots⟩)

end BodyClosed

/-! ## 8. The document -/

/-- A declaration of a name is mapped nowhere. -/
theorem nameDeclaration_closed {Q : LinkedText → Prop} (hQ : LinkedText.Closed Q) (isProp : Bool)
    (name : String) : Q (nameDeclaration isProp name) := by
  have hname := hQ.mark (hQ.plain name)
  refine hQ.relabel (hQ.concat _ ?_) rfl
  cases isProp <;> simp [hQ.plain, hname]

/-- **The template document.**  A property that joining keeps holds of it as soon as it holds of the classes in
front, of the declarations of names, and of the body, moved to its block. -/
theorem templateProgram_joined {Q : LinkedText → Prop} (hQ : LinkedText.Joined Q) (base : Uri)
    {input : TemplateInput}
    (hclasses : ∀ (title name : String) (p : StyleDocument → Bool),
      Q (.ofMapped (classObject title name (input.styles.filter p))))
    (hname : ∀ (isProp : Bool) (name : String), Q (nameDeclaration isProp name))
    (hbody : Q (.ofMapped ((templateBody input.scope input.nodes).shiftSource input.block.span.start))) :
    Q (templateProgram base input) := by
  refine hQ.concat _ ?_
  intro t ht
  simp only [List.mem_append, List.mem_cons, List.not_mem_nil, or_false, List.mem_map] at ht
  rcases ht with ((rfl | rfl | rfl | rfl) | ⟨name, -, rfl⟩) | rfl | rfl
  · exact hQ.plain _
  · exact hclasses _ _ _
  · exact hclasses _ _ _
  · exact hQ.plain _
  · exact hname _ _
  · exact hQ.plain _
  · exact hbody

theorem templateProgram_closed {Q : LinkedText → Prop} (hQ : LinkedText.Closed Q) (base : Uri)
    {input : TemplateInput}
    (hclasses : ∀ (title name : String) (p : StyleDocument → Bool),
      Q (.ofMapped (classObject title name (input.styles.filter p))))
    (hbody : Q (.ofMapped ((templateBody input.scope input.nodes).shiftSource input.block.span.start))) :
    Q (templateProgram base input) :=
  templateProgram_joined hQ.toJoined base hclasses (nameDeclaration_closed hQ) hbody

/-! ## 8. The elements

Code is written for the elements of the tree in order, and for none of them twice. -/

mutual

theorem nodeTags_parts : ∀ nodes : List Node, ((nodeTags nodes).flatMap Tag.parts).Sublist (nodeParts nodes)
  | [] => .refl _
  | node :: rest => by
    rw [nodeTags, nodeParts, List.flatMap_append]
    exact (tags_parts node).append (nodeTags_parts rest)

theorem tags_parts : ∀ node : Node, ((Node.tags node).flatMap Tag.parts).Sublist node.parts
  | .element tag children => by
    rw [Node.tags, Node.parts, List.flatMap_cons]
    exact (List.Sublist.refl _).append (nodeTags_parts children)
  | .text _ _ => List.nil_sublist _
  | .comment _ _ => List.nil_sublist _
  | .interpolation _ _ => List.nil_sublist _
  | .chain branches _ => by
    rw [Node.tags, Node.parts]
    exact branchTags_parts branches
  | .loop parts children _ => by
    rw [Node.tags, Node.parts]
    refine List.Sublist.trans ?_ (List.sublist_append_right ..)
    -- a loop without a name for its turns is left out
    split
    · exact nodeTags_parts children
    · exact List.nil_sublist _

theorem branchTags_parts : ∀ branches : List Branch,
    ((branchTags branches).flatMap Tag.parts).Sublist (branchParts branches)
  | [] => .refl _
  | .mk condition children _ :: rest => by
    rw [branchTags, branchParts, List.flatMap_append]
    exact ((nodeTags_parts children).trans (List.sublist_append_right ..)).append (branchTags_parts rest)

end

/-- The parts of an element are parts of the tree. -/
theorem allParts_of_mem_nodeTags {P : Part → Prop} {nodes : List Node} (h : AllParts P (nodeParts nodes))
    {tag : Tag} (htag : tag ∈ nodeTags nodes) : AllParts P tag.parts := by
  intro part hpart
  exact h part ((nodeTags_parts nodes).subset (List.mem_flatMap.2 ⟨tag, htag, hpart⟩))

end ComponentLens.Virtual
