/-
# The parts of a tree stand where the tree says

A template tree keeps the place of everything that it holds: the names of tags, the attributes and directives
with their names and arguments, and the code.  Every request about a template goes through these places.
`parse_placed` says that none of them leaves the template or cuts a character, and that code, values and
arguments stand exactly at theirs.

Reading has three stages.  A piece reads its parts off the text in front (section 3).  Nesting the pieces
moves no part (section 4), and lifting takes parts over, or cuts loops into parts of their own (section 5).
The last two stages know nothing of places.  So they are stated for any property of parts that goes over from
a directive to its code and from a loop to its parts (`Inherited`).
-/
import ComponentLens.Markup.Parse
import ComponentLens.Proofs.Markup.Loops

namespace ComponentLens.Markup

/-! ## 1. Parts -/

/-- A part of a tree with a place of its own. -/
inductive Part where
  /-- The name of a tag. -/
  | name (span : Span)
  | prop (prop : TagProp)
  | code (e : Expression)

/-- The parts of a tag: its names, and its attributes and directives. -/
def Tag.parts (tag : Tag) : List Part :=
  .name tag.nameSpan :: (tag.endNameSpan.toList.map .name ++ tag.props.map .prop)

mutual

/-- The parts of a node. -/
def Node.parts : Node → List Part
  | .element tag children => tag.parts ++ nodeParts children
  | .text _ _ => []
  | .comment _ _ => []
  | .interpolation e _ => [.code e]
  | .chain branches _ => branchParts branches
  | .loop parts children _ => parts.expressions.map .code ++ nodeParts children

/-- The parts of siblings. -/
def nodeParts : List Node → List Part
  | [] => []
  | node :: rest => node.parts ++ nodeParts rest

/-- The parts of the branches of a chain. -/
def branchParts : List Branch → List Part
  | [] => []
  | .mk condition children _ :: rest =>
    condition.toList.map .code ++ nodeParts children ++ branchParts rest

end

theorem branchParts_append (xs ys : List Branch) : branchParts (xs ++ ys) = branchParts xs ++ branchParts ys := by
  induction xs with
  | nil => rfl
  | cons x xs ih =>
    obtain ⟨condition, children, span⟩ := x
    simp [branchParts, ih]

/-- Every part of the list has the property. -/
def AllParts (P : Part → Prop) (parts : List Part) : Prop := ∀ part ∈ parts, P part

section

variable {P : Part → Prop}

@[simp] theorem allParts_nil : AllParts P [] := by simp [AllParts]

@[simp] theorem allParts_cons {part : Part} {parts : List Part} :
    AllParts P (part :: parts) ↔ P part ∧ AllParts P parts := by simp [AllParts]

@[simp] theorem allParts_append {parts more : List Part} :
    AllParts P (parts ++ more) ↔ AllParts P parts ∧ AllParts P more := by
  simp [AllParts, or_imp, forall_and]

@[simp] theorem allParts_map {β : Type} {f : β → Part} {xs : List β} :
    AllParts P (xs.map f) ↔ ∀ x ∈ xs, P (f x) := by simp [AllParts]

theorem allParts_tag {tag : Tag} : AllParts P tag.parts ↔
    P (.name tag.nameSpan) ∧ (∀ s ∈ tag.endNameSpan, P (.name s)) ∧ ∀ prop ∈ tag.props, P (.prop prop) := by
  simp [Tag.parts]

theorem allParts_directive {tag : Tag} (htag : AllParts P tag.parts) {d : Directive}
    (hd : d ∈ tag.directives) : P (.prop (.directive d)) := by
  obtain ⟨prop, hprop, hsome⟩ := List.mem_filterMap.1 hd
  cases prop with
  | plain a => cases hsome
  | directive d' =>
    cases hsome
    exact (allParts_tag.1 htag).2.2 _ hprop

theorem allParts_attribute {tag : Tag} (htag : AllParts P tag.parts) {a : Attribute}
    (ha : a ∈ tag.attributes) : P (.prop (.plain a)) := by
  obtain ⟨prop, hprop, hsome⟩ := List.mem_filterMap.1 ha
  cases prop with
  | directive d => cases hsome
  | plain a' =>
    cases hsome
    exact (allParts_tag.1 htag).2.2 _ hprop

theorem allParts_nodes {nodes : List Node} :
    AllParts P (nodeParts nodes) ↔ ∀ node ∈ nodes, AllParts P node.parts := by
  induction nodes with
  | nil => simp [nodeParts]
  | cons node rest ih => simp [nodeParts, ih]

/-- The order of siblings does not matter. -/
theorem allParts_reverse {nodes : List Node} :
    AllParts P (nodeParts nodes.reverse) ↔ AllParts P (nodeParts nodes) := by
  simp [allParts_nodes]

end

/-! ## 2. Places -/

/-- Both ends of the span lie between characters of the text. -/
def Bounds (source : List Char) (s : Span) : Prop := s.EndsAt (IsBoundary source)

/-- The part stands in the text where it says. -/
def Placed (source : List Char) : Part → Prop
  | .name s => Bounds source s
  | .prop (.plain a) => Bounds source a.span ∧ Bounds source a.nameSpan ∧
      ∀ v ∈ a.value, v.span.Reads source v.content.toList
  | .prop (.directive d) => Bounds source d.span ∧
      (∀ arg ∈ d.arg, arg.span.Reads source arg.content.toList) ∧ ∀ e ∈ d.exp, e.StandsIn source
  | .code e => e.StandsIn source

theorem bounds_of_reads {source inside : List Char} {s : Span} (h : s.Reads source inside) : Bounds source s :=
  ⟨h.isBoundary_start, h.isBoundary_stop⟩

theorem bounds_append (before inside after : List Char) :
    Bounds (before ++ (inside ++ after)) ⟨byteLength before, byteLength before + byteLength inside⟩ :=
  bounds_of_reads (Span.reads_append before inside after)

/-! ## 3. Pieces -/

/-- The parts of a piece. -/
def Piece.parts : Piece → List Part
  | .interpolation e _ => [.code e]
  | .openTag tag => tag.parts
  | .closeTag _ nameSpan _ => [.name nameSpan]
  | _ => []

/-- The mark and the rest make up the name of a directive with an argument. -/
theorem DirectiveStart.read_append {raw : List Char} (h : (DirectiveStart.read raw).hasArg = true) :
    (DirectiveStart.read raw).mark ++ (DirectiveStart.read raw).rest = raw := by
  unfold DirectiveStart.read at h ⊢
  revert h
  split
  · exact fun _ => rfl
  · exact fun _ => rfl
  · exact fun _ => rfl
  · exact fun _ => rfl
  next =>
    have hname := List.takeWhile_append_dropWhile (p := isDirectiveNamePart) (l := raw.drop 2)
    dsimp only
    split
    next rest hrest =>
      intro _
      rw [hrest] at hname
      simp [hname]
    next =>
      intro h
      cases h

/-- The argument of a directive stands in the text that it is read from. -/
theorem readArg_reads (before cs after : List Char) :
    ∀ arg ∈ (readArg (byteLength before) cs).1,
      arg.span.Reads (before ++ (cs ++ after)) arg.content.toList := by
  intro arg harg
  unfold readArg at harg
  split at harg
  next rest =>
    have hbracket : '['.utf8Size = 1 := rfl
    have hcs := List.takeWhile_append_dropWhile (p := fun c => c != ']') (l := rest)
    have hreads := Span.reads_append (before ++ ['[']) (rest.takeWhile (· != ']'))
      (rest.dropWhile (· != ']') ++ after)
    cases harg
    rw [← List.append_assoc (rest.takeWhile (· != ']')), hcs] at hreads
    simpa [hbracket] using hreads
  next =>
    have hcs := List.takeWhile_append_dropWhile (p := fun c => c != '.') (l := cs)
    have hreads := Span.reads_append before (cs.takeWhile (· != '.')) (cs.dropWhile (· != '.') ++ after)
    dsimp only at harg
    split at harg
    · cases harg
    · cases harg
      rw [← List.append_assoc (cs.takeWhile (· != '.')), hcs] at hreads
      simpa using hreads

theorem Directive.ofName_arg (before raw after : List Char) (exp : Option Expression) (span : Span) :
    ∀ arg ∈ (Directive.ofName (byteLength before) raw exp span).arg,
      arg.span.Reads (before ++ (raw ++ after)) arg.content.toList := by
  intro arg harg
  unfold Directive.ofName at harg
  dsimp only at harg
  split at harg
  next hasArg =>
    have hraw := DirectiveStart.read_append hasArg
    have harg' := readArg_reads (before ++ (DirectiveStart.read raw).mark) (DirectiveStart.read raw).rest
      after arg (by simpa using harg)
    rw [List.append_assoc, ← List.append_assoc _ _ after, hraw] at harg'
    exact harg'
  · cases harg

/-- An attribute or directive stands in the text that it is read from. -/
theorem TagProp.ofReading_placed (before name rest : List Char) (value : Option ValueReading) :
    Placed (before ++ (name ++ ((value.map (·.passed)).getD [] ++ rest)))
      (.prop (TagProp.ofReading (byteLength before) name value)) := by
  have hspan := bounds_append before (name ++ (value.map (·.passed)).getD []) rest
  have hname := bounds_append before name ((value.map (·.passed)).getD [] ++ rest)
  have hvalue : ∀ v ∈ value, (v.span (byteLength before + byteLength name)).Reads
      (before ++ (name ++ ((value.map (·.passed)).getD [] ++ rest))) v.value := by
    intro v hv
    have hreads := v.reads_span (before ++ name) rest
    rw [Option.mem_def.1 hv]
    simpa using hreads
  have hlength : byteLength ((value.map (·.passed)).getD []) = (value.map (byteLength ·.passed)).getD 0 := by
    cases value <;> rfl
  rw [byteLength_append, hlength, ← Nat.add_assoc, List.append_assoc] at hspan
  unfold TagProp.ofReading
  dsimp only
  split
  next =>
    refine ⟨hspan, Directive.ofName_arg before name _ _ _, fun e he => ?_⟩
    obtain ⟨v, hv, rfl⟩ := Option.map_eq_some_iff.1 he
    simpa [Expression.StandsIn] using hvalue v hv
  next =>
    refine ⟨hspan, hname, fun a ha => ?_⟩
    obtain ⟨v, hv, rfl⟩ := Option.map_eq_some_iff.1 ha
    simpa using hvalue v hv

/-- **The properties of a tag.**  The text in front of them is named because their places count from the
start of the template. -/
theorem readProps_placed (pos : Nat) (cs before : List Char) (hpos : byteLength before = pos) :
    ∀ prop ∈ (readProps pos cs).props, Placed (before ++ cs) (.prop prop) := by
  fun_induction readProps pos cs generalizing before with
  | case1 => simp
  | case2 => simp
  | case3 => simp
  | case4 pos c cs _ _ _ ih =>
    have := ih (before ++ [c]) (by simp [hpos])
    simpa [PropsReading.prepend] using this
  | case5 pos c cs _ _ _ tail name _ v h _ ih =>
    have hcs : c :: cs = name ++ (v.passed ++ v.rest) := by
      rw [readValue?_append h, List.cons_append, nameTail_append]
    have hhead := TagProp.ofReading_placed before name v.rest (some v)
    have htail := ih (before ++ (name ++ v.passed)) (by simp [hpos]; omega)
    simp only [Option.map_some, Option.getD_some] at hhead
    rw [hpos, ← hcs] at hhead
    rw [List.append_assoc, List.append_assoc, ← hcs] at htail
    simpa [PropsReading.cons, PropsReading.prepend] using ⟨hhead, htail⟩
  | case6 pos c cs _ _ _ tail name _ h ih =>
    have hcs : c :: cs = name ++ tail.2 := by rw [List.cons_append, nameTail_append]
    have hhead := TagProp.ofReading_placed before name tail.2 none
    have htail := ih (before ++ name) (by simp [hpos])
    simp only [Option.map_none, Option.getD_none, List.nil_append] at hhead
    rw [hpos, ← hcs] at hhead
    rw [List.append_assoc, ← hcs] at htail
    simpa [PropsReading.cons, PropsReading.prepend] using ⟨hhead, htail⟩

theorem readOpenTag_placed (before cs : List Char) :
    AllParts (Placed (before ++ '<' :: cs)) (readOpenTag (byteLength before) cs).piece.parts := by
  have hlt : '<'.utf8Size = 1 := rfl
  have hname := bounds_append (before ++ ['<']) (cs.takeWhile isElementNamePart)
    (cs.dropWhile isElementNamePart)
  have hprops := readProps_placed _ (cs.dropWhile isElementNamePart)
    (before ++ '<' :: cs.takeWhile isElementNamePart) rfl
  rw [List.takeWhile_append_dropWhile] at hname
  rw [List.append_assoc, List.cons_append, List.takeWhile_append_dropWhile] at hprops
  refine allParts_tag.2 ⟨?_, by simp, ?_⟩
  · simpa [Placed, hlt] using hname
  · simpa [hlt, Nat.add_assoc] using hprops

theorem readCloseTag_placed (before cs : List Char) :
    AllParts (Placed (before ++ '<' :: '/' :: cs)) (readCloseTag (byteLength before) cs).piece.parts := by
  have hlt : '<'.utf8Size = 1 := rfl
  have hslash : '/'.utf8Size = 1 := rfl
  have hname := bounds_append (before ++ ['<', '/']) (cs.takeWhile isElementNamePart)
    (cs.dropWhile isElementNamePart)
  rw [List.takeWhile_append_dropWhile] at hname
  simpa [readCloseTag, Piece.parts, Placed, hlt, hslash] using hname

theorem readInterpolation_placed (before cs : List Char) :
    AllParts (Placed (before ++ '\x7b' :: '\x7b' :: cs))
      (readInterpolation (byteLength before) cs).piece.parts := by
  have hbrace : '\x7b'.utf8Size = 1 := rfl
  by_cases hclosed : (breakOn ['\x7d', '\x7d'] cs).2.isEmpty
  · simp [readInterpolation, hclosed, Piece.parts]
  · simp only [readInterpolation, hclosed, Bool.false_eq_true, if_false, Piece.parts, allParts_cons,
      allParts_nil, and_true]
    refine ⟨before ++ ['\x7b', '\x7b'], (breakOn ['\x7d', '\x7d'] cs).2, ?_, ?_⟩
    · simp [breakOn_append]
    · simp [hbrace]

/-- The parts of a piece stand in the text that the piece is read from. -/
theorem readPiece_placed (before : List Char) (c : Char) (cs : List Char) :
    AllParts (Placed (before ++ c :: cs)) (readPiece (byteLength before) c cs).piece.parts := by
  unfold readPiece
  split
  · simp [readComment, Piece.parts]
  split
  next h =>
    simp only [Bool.and_eq_true, beq_iff_eq, List.head?_eq_some_iff] at h
    obtain ⟨⟨rfl, rest, rfl⟩, -⟩ := h
    exact readCloseTag_placed before rest
  split
  next h =>
    simp only [Bool.and_eq_true, beq_iff_eq] at h
    obtain ⟨rfl, -⟩ := h
    exact readOpenTag_placed before cs
  split
  next h =>
    simp only [Bool.and_eq_true, beq_iff_eq, List.head?_eq_some_iff] at h
    obtain ⟨rfl, rest, rfl⟩ := h
    exact readInterpolation_placed before rest
  · simp [Piece.parts]

/-- Every piece of a text holds parts that stand in the text. -/
theorem pieces_placed (pos : Nat) (cs before : List Char) (hpos : byteLength before = pos) :
    ∀ piece ∈ pieces pos cs, AllParts (Placed (before ++ cs)) piece.parts := by
  fun_induction pieces pos cs generalizing before with
  | case1 => simp
  | case2 pos c cs _ ih =>
    intro piece hmem
    rcases List.mem_cons.1 hmem with rfl | hmem
    · exact hpos ▸ readPiece_placed before c cs
    · have := ih (before ++ (readPiece pos c cs).passed) (by simp [hpos]) piece hmem
      rwa [List.append_assoc, readPiece_append] at this

/-! ## 4. Nesting -/

variable {P : Part → Prop}

/-- What holds of all that a builder has taken in: the nodes that are complete, and the elements that are
still open. -/
structure Builder.Holds (P : Part → Prop) (b : Builder) : Prop where
  here : AllParts P (nodeParts b.here)
  opened : ∀ o ∈ b.opened, AllParts P o.tag.parts ∧ AllParts P (nodeParts o.siblings)

namespace Builder.Holds

variable {b : Builder}

theorem report (h : b.Holds P) (fault : Fault) : (b.report fault).Holds P := ⟨h.here, h.opened⟩

theorem add (h : b.Holds P) {node : Node} (hnode : AllParts P node.parts) : (b.add node).Holds P :=
  ⟨by simpa [Builder.add, nodeParts] using ⟨hnode, h.here⟩, h.opened⟩

/-- Ending the innermost element moves its children into it and keeps their parts. -/
theorem closeElement (h : b.Holds P) {o : OpenElement} {outer : List OpenElement}
    (hopened : b.opened = o :: outer) {endName : Option Span} (hend : ∀ s ∈ endName, P (.name s))
    (stop : Nat) : AllParts P (nodeParts (b.closeElement o endName stop)) := by
  obtain ⟨htag, hsiblings⟩ := h.opened o (by simp [hopened])
  obtain ⟨hname, -, hprops⟩ := allParts_tag.1 htag
  simp only [Builder.closeElement, nodeParts, Node.parts, allParts_append, allParts_reverse]
  exact ⟨⟨allParts_tag.2 ⟨hname, hend, hprops⟩, h.here⟩, hsiblings⟩

theorem abandon (h : b.Holds P) (stop count : Nat) : (b.abandon stop count).Holds P := by
  induction count generalizing b with
  | zero => exact h
  | succ count ih =>
    rw [Builder.abandon]
    split
    · exact h
    next o outer hopened =>
      refine ih ⟨?_, fun other hmem => h.opened other (by simp [hopened, hmem])⟩
      exact (h.report _).closeElement hopened (by simp) stop

theorem closeInnermost (h : b.Holds P) {endName : Span} (hend : P (.name endName)) (stop : Nat) :
    (b.closeInnermost endName stop).Holds P := by
  rw [Builder.closeInnermost]
  split
  · exact h
  next o outer hopened =>
    refine ⟨h.closeElement hopened (by simpa using hend) stop, fun other hmem => ?_⟩
    exact h.opened other (by simp [hopened, hmem])

/-- One more piece. -/
theorem addPiece (h : b.Holds P) {piece : Piece} (hpiece : AllParts P piece.parts) :
    (b.addPiece piece).Holds P := by
  have hb : ((piece.fault?.map b.report).getD b).Holds P := by
    cases piece.fault? with
    | none => exact h
    | some fault => exact h.report fault
  unfold Builder.addPiece
  dsimp only
  generalize (piece.fault?.map b.report).getD b = b' at hb
  cases piece with
  | comment => exact hb.add (by simp [Node.parts])
  | text => exact hb.add (by simp [Node.parts])
  | interpolation => exact hb.add (by simpa [Node.parts, Piece.parts] using hpiece)
  | unclosedInterpolation => exact hb.add (by simp [Node.parts])
  | openTag tag =>
    simp only
    split
    · exact hb.add (by simpa [Node.parts, nodeParts, Piece.parts] using hpiece)
    · refine ⟨by simp [nodeParts], fun o hmem => ?_⟩
      rcases List.mem_cons.1 hmem with rfl | hmem
      · exact ⟨hpiece, hb.here⟩
      · exact hb.opened o hmem
  | closeTag name nameSpan span =>
    simp only
    split
    · exact hb.report _
    · exact (hb.abandon _ _).closeInnermost (by simpa [Piece.parts] using hpiece) _

end Builder.Holds

/-- Nesting finds no part that is not a part of a piece. -/
theorem build_parts {source : List Char} (h : ∀ piece ∈ pieces 0 source, AllParts P piece.parts) :
    AllParts P (nodeParts (build source).1) := by
  have hfold : ∀ (ps : List Piece) (b : Builder), (∀ p ∈ ps, AllParts P p.parts) →
      b.Holds P → (ps.foldl Builder.addPiece b).Holds P := by
    intro ps
    induction ps with
    | nil => exact fun b _ hb => hb
    | cons p ps ih =>
      intro b hps hb
      exact ih _ (fun q hq => hps q (by simp [hq])) (hb.addPiece (hps p (by simp)))
  have hb := hfold _ {} h ⟨by simp [nodeParts], by simp⟩
  exact allParts_reverse.2 (hb.abandon _ _).here

/-! ## 5. Lifting -/

/-- The property goes over from a directive to its code, and from a loop to the parts that it is cut into. -/
structure Inherited (P : Part → Prop) : Prop where
  exp : ∀ d : Directive, P (.prop (.directive d)) → ∀ e ∈ d.exp, P (.code e)
  loop : ∀ (e : Expression) (parts : Loop), Loop.ofExpression? e = some parts → P (.code e) →
    ∀ part ∈ parts.expressions, P (.code part)

/-- A directive taken out of a tag, and the properties that are left, are properties of the tag. -/
theorem takeDirective?_mem {name : String} {props rest : List TagProp} {d : Directive}
    (h : takeDirective? name props = some (d, rest)) : .directive d ∈ props ∧ rest ⊆ props := by
  induction props generalizing rest d with
  | nil => simp [takeDirective?] at h
  | cons prop props ih =>
    have hnext : ∀ {d rest},
        (takeDirective? name props).map (fun taken => (taken.1, prop :: taken.2)) = some (d, rest) →
        .directive d ∈ prop :: props ∧ rest ⊆ prop :: props := by
      intro d rest hmap
      obtain ⟨⟨d', rest'⟩, htake, heq⟩ := Option.map_eq_some_iff.1 hmap
      cases heq
      obtain ⟨hd, hrest⟩ := ih htake
      exact ⟨List.mem_cons_of_mem _ hd, List.cons_subset_cons _ hrest⟩
    unfold takeDirective? at h
    cases prop with
    | plain a => exact hnext h
    | directive d' =>
      dsimp only at h
      split at h
      · cases h
        exact ⟨List.mem_cons_self .., List.subset_cons_self ..⟩
      · exact hnext h

section

variable (hP : Inherited P) {tag : Tag} {children : List Node}
include hP

theorem Inherited.take? {tag' : Tag} {name : String} {d : Directive} (h : tag.take? name = some (d, tag'))
    (htag : AllParts P tag.parts) : (∀ e ∈ d.exp, P (.code e)) ∧ AllParts P tag'.parts := by
  obtain ⟨⟨d', rest⟩, htake, heq⟩ := Option.map_eq_some_iff.1 h
  cases heq
  obtain ⟨hname, hend, hprops⟩ := allParts_tag.1 htag
  obtain ⟨hd, hrest⟩ := takeDirective?_mem htake
  exact ⟨hP.exp d (hprops _ hd), allParts_tag.2 ⟨hname, hend, fun prop hprop => hprops _ (hrest hprop)⟩⟩

theorem Inherited.takeElse? {tag' : Tag} {condition : Option Expression}
    (h : tag.takeElse? = some (condition, tag')) (htag : AllParts P tag.parts) :
    (∀ e ∈ condition, P (.code e)) ∧ AllParts P tag'.parts := by
  unfold Tag.takeElse? at h
  split at h
  next d tag'' htake =>
    cases h
    exact hP.take? htake htag
  · obtain ⟨⟨d, tag''⟩, htake, heq⟩ := Option.map_eq_some_iff.1 h
    cases heq
    exact ⟨by simp, (hP.take? htake htag).2⟩

theorem Inherited.liftLoop (htag : AllParts P tag.parts) (hchildren : AllParts P (nodeParts children)) :
    AllParts P (liftLoop tag children).1.parts := by
  unfold Markup.liftLoop
  split
  · simpa [Node.parts] using ⟨htag, hchildren⟩
  next d tag' htake =>
    obtain ⟨hd, htag'⟩ := hP.take? htake htag
    split
    · simpa [Node.parts] using ⟨htag', hchildren⟩
    next parts hparts =>
      obtain ⟨exp, hexp, hloop⟩ := Option.bind_eq_some_iff.1 hparts
      simp only [Node.parts, allParts_append, allParts_map]
      refine ⟨hP.loop exp parts hloop (hd exp hexp), ?_⟩
      split
      · exact hchildren
      · simpa [nodeParts, Node.parts] using ⟨htag', hchildren⟩

theorem Inherited.branchChildren (htag : AllParts P tag.parts)
    (hchildren : AllParts P (nodeParts children)) :
    AllParts P (nodeParts (branchChildren tag children).1) := by
  unfold Markup.branchChildren
  split
  · exact hchildren
  · simpa [nodeParts] using hP.liftLoop htag hchildren

end

/-- What holds of the siblings lifted so far. -/
structure Lifting.Holds (P : Part → Prop) (s : Lifting) : Prop where
  done : AllParts P (nodeParts s.done)
  gap : AllParts P (nodeParts s.gap)

namespace Lifting.Holds

variable {s : Lifting} {tag : Tag} {children : List Node}

theorem nodes (h : s.Holds P) : AllParts P (nodeParts s.nodes) := by
  rw [Lifting.nodes, allParts_reverse, allParts_nodes]
  intro node hmem
  rcases List.mem_append.1 hmem with hmem | hmem
  · exact allParts_nodes.1 h.gap node hmem
  · exact allParts_nodes.1 h.done node hmem

theorem add (h : s.Holds P) {node : Node} (hnode : AllParts P node.parts) (faults : List Fault) :
    (s.add node faults).Holds P := by
  have hall := h.nodes
  rw [Lifting.nodes, allParts_reverse] at hall
  exact ⟨by simpa [Lifting.add, nodeParts] using ⟨hnode, hall⟩, by simp [Lifting.add, nodeParts]⟩

theorem addElement (hP : Inherited P) (h : s.Holds P) (htag : AllParts P tag.parts)
    (hchildren : AllParts P (nodeParts children)) : (s.addElement tag children).Holds P := by
  unfold Lifting.addElement
  split
  next d tag' htake =>
    obtain ⟨hd, htag'⟩ := hP.take? htake htag
    have hinside := hP.branchChildren htag' hchildren
    exact h.add (by simpa [Node.parts, branchParts] using ⟨hd, hinside⟩) _
  · exact h.add (hP.liftLoop htag hchildren) _

/-- A later branch joins the chain in front; any other node is added behind. -/
theorem addSibling (hP : Inherited P) (h : s.Holds P) {node : Node} (hnode : AllParts P node.parts) :
    (s.addSibling node).Holds P := by
  unfold Lifting.addSibling
  split
  next tag children =>
    obtain ⟨htag, hchildren⟩ : AllParts P tag.parts ∧ AllParts P (nodeParts children) := by
      simpa [Node.parts] using hnode
    split
    · exact h.addElement hP htag hchildren
    next condition tag' htake =>
      obtain ⟨hcondition, htag'⟩ := hP.takeElse? htake htag
      split
      next branches span before hdone =>
        have hbefore := h.done
        rw [hdone] at hbefore
        simp only [nodeParts, Node.parts, allParts_append] at hbefore
        have hinside := hP.branchChildren htag' hchildren
        refine ⟨?_, by simp [nodeParts]⟩
        simp only [nodeParts, Node.parts, branchParts_append, branchParts, allParts_append, allParts_map,
          allParts_nil, Option.mem_toList]
        exact ⟨⟨hbefore.1, ⟨⟨hcondition, hinside⟩, trivial⟩⟩, hbefore.2⟩
      · exact h.addElement hP htag' hchildren
  next node _ =>
    split
    · exact ⟨h.done, by simpa [nodeParts] using ⟨hnode, h.gap⟩⟩
    · exact h.add hnode []

end Lifting.Holds

mutual

theorem Inherited.liftInside (hP : Inherited P) : ∀ node : Node, AllParts P node.parts →
    AllParts P node.liftInside.1.parts
  | .element tag children, h => by
    simp only [Node.parts, allParts_append] at h
    have hs := Inherited.liftFrom hP {} children ⟨by simp [nodeParts], by simp [nodeParts]⟩ h.2
    simpa [Node.liftInside, Node.parts] using ⟨h.1, hs.nodes⟩
  | .text _ _, h => h
  | .comment _ _, h => h
  | .interpolation _ _, h => h
  | .chain _ _, h => h
  | .loop _ _ _, h => h

theorem Inherited.liftFrom (hP : Inherited P) : ∀ (s : Lifting) (nodes : List Node), s.Holds P →
    AllParts P (nodeParts nodes) → (liftFrom s nodes).Holds P
  | s, [], hs, _ => hs
  | s, node :: rest, hs, h => by
    simp only [nodeParts, allParts_append] at h
    rw [Markup.liftFrom]
    refine Inherited.liftFrom hP _ rest ?_ h.2
    have hs' : Lifting.Holds P { s with faults := s.faults ++ node.liftInside.2 } := ⟨hs.done, hs.gap⟩
    exact hs'.addSibling hP (Inherited.liftInside hP node h.1)

end

/-- The code of a directive stands where the directive says, and the parts of a loop stand in its code. -/
theorem inherited_placed (source : List Char) : Inherited (Placed source) where
  exp := fun _ h => h.2.2
  loop := fun _ _ hloop he => Loop.ofExpression?_expressions he hloop

/-- **Every part of a template stands where it says.** -/
theorem parse_placed (source : String) :
    AllParts (Placed source.toList) (nodeParts (parse source).nodes) := by
  have hpieces := pieces_placed 0 source.toList [] rfl
  simp only [List.nil_append] at hpieces
  have hempty : ({} : Lifting).Holds (Placed source.toList) := ⟨by simp [nodeParts], by simp [nodeParts]⟩
  exact ((inherited_placed source.toList).liftFrom {} _ hempty (build_parts hpieces)).nodes

end ComponentLens.Markup
