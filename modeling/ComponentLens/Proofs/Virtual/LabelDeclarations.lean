/-
# Where the variables of labels are declared

A variable of a labelled statement is declared twice in the script document, under its own name and, with a dollar
sign in front, as its handle.  Both declarations are mapped to the place of the variable, and a link leads from
the one to the other (`Declares`).

`build_declares` finds the two declarations of every variable of every label in the script document of a build.
A piece is found in whatever it is joined to (`exists_standsIn`), with its mappings and links moved along.
-/
import ComponentLens.Proofs.Mapping.Pieces
import ComponentLens.Proofs.Virtual.Provenance
import ComponentLens.Proofs.Virtual.ScriptLinks

namespace ComponentLens

/-! ## 1. Pieces in what they are joined to -/

namespace LinkedText

/-- The piece stands in the whole, behind the text `before`. -/
structure StandsIn (t whole : LinkedText) (before : List Char) : Prop where
  chars : ∃ after, whole.chars = before ++ (t.chars ++ after)
  mappings : ∀ m ∈ t.body.mappings, m.shiftTarget (byteLength before) ∈ whole.body.mappings
  links : ∀ link ∈ t.links, link.move (byteLength before) ∈ whole.links

theorem mappingsFrom_append (pos : Nat) (ts us : List LinkedText) :
    MappedText.mappingsFrom pos ((ts ++ us).map (·.body)) =
      MappedText.mappingsFrom pos (ts.map (·.body)) ++
        MappedText.mappingsFrom (pos + byteLength (ts.flatMap chars)) (us.map (·.body)) := by
  have hchars : MappedText.textOf (ts.map (·.body)) = ts.flatMap chars := List.flatMap_map ..
  rw [List.map_append, MappedText.mappingsFrom_append, hchars]

theorem linksFrom_append (pos : Nat) (ts us : List LinkedText) :
    linksFrom pos (ts ++ us) = linksFrom pos ts ++ linksFrom (pos + byteLength (ts.flatMap chars)) us := by
  induction ts generalizing pos with
  | nil => simp [linksFrom]
  | cons t ts ih =>
    simp only [List.cons_append, linksFrom, ih, List.append_assoc, List.flatMap_cons, byteLength_append,
      size_eq, Nat.add_assoc]

/-- Every piece stands somewhere in what the pieces are joined to. -/
theorem exists_standsIn {t : LinkedText} {ts : List LinkedText} (h : t ∈ ts) :
    ∃ before, t.StandsIn (concat ts) before := by
  obtain ⟨front, back, rfl⟩ := List.append_of_mem h
  refine ⟨front.flatMap chars, ⟨back.flatMap chars, ?_⟩, ?_, ?_⟩
  · rw [chars_concat, List.flatMap_append, List.flatMap_cons]
  · intro m hm
    show _ ∈ MappedText.mappingsFrom 0 _
    rw [mappingsFrom_append, Nat.zero_add]
    exact List.mem_append_right _ (List.mem_append_left _ (List.mem_map_of_mem hm))
  · intro link hlink
    show _ ∈ linksFrom 0 _
    rw [linksFrom_append, Nat.zero_add]
    exact List.mem_append_right _ (List.mem_append_left _ (List.mem_map_of_mem hlink))

end LinkedText

/-! ## 2. Declarations -/

/-- The mapping of the variable itself. -/
def variableMapping (place target : Span) : Mapping CodeData :=
  ⟨{ region := .scriptSetup, capabilities := .basic ||| .references ||| .diagnostic }, .offset, place, target, []⟩

/-- The mapping of the handle. A new name that is given to the handle loses its dollar sign. -/
def handleMapping (place target : Span) : Mapping CodeData :=
  ⟨{ region := .scriptSetup, capabilities := .basic ||| .diagnostic, beforeRename := some .stripDollar },
    .offset, place, target, []⟩

/-- The link from a variable to its handle. -/
def handleLink (variable_ handle : Span) : Mapping LinkData :=
  ⟨{ direction := .sibling, capabilities := .references ||| .rename
     nameToTarget := some .addDollar, nameToSource := some .stripDollar },
    .gate, variable_, handle, [⟨.offset, variable_, ⟨handle.start + 1, handle.stop⟩⟩]⟩

/-- A text with mappings and links declares a variable and its handle. The name of the variable stands at a
place of the source. -/
structure Declares (text : List Char) (mappings : List (Mapping CodeData)) (links : List (Mapping LinkData))
    (place : Span) (name : List Char) (variable_ handle : Span) : Prop where
  variableMapped : variableMapping place variable_ ∈ mappings
  handleMapped : handleMapping place handle ∈ mappings
  linked : handleLink variable_ handle ∈ links
  readsVariable : variable_.Reads text name
  readsHandle : handle.Reads text ('$' :: name)

theorem handleLink_move (variable_ handle : Span) (base : Nat) :
    (handleLink variable_ handle).move base = handleLink (variable_.shift base) (handle.shift base) := by
  simp [Mapping.move, Mapping.shiftSource, Mapping.shiftTarget, handleLink, Span.shift, Nat.add_right_comm]

namespace LinkedText

/-- The piece declares a variable and its handle. -/
abbrev Declares (t : LinkedText) : Span → List Char → Span → Span → Prop :=
  ComponentLens.Declares t.chars t.body.mappings t.links

variable {t whole : LinkedText} {place variable_ handle : Span} {name : List Char}

/-- What a piece declares is declared wherever the piece stands. -/
theorem Declares.standsIn {before : List Char} (h : t.Declares place name variable_ handle)
    (hin : t.StandsIn whole before) : whole.Declares place name (variable_.shift (byteLength before))
      (handle.shift (byteLength before)) := by
  obtain ⟨after, hchars⟩ := hin.chars
  have hplace := Span.reads_append before t.chars after
  constructor
  · exact hin.mappings _ h.variableMapped
  · exact hin.mappings _ h.handleMapped
  · rw [← handleLink_move]
    exact hin.links _ h.linked
  · rw [hchars]
    exact h.readsVariable.trans hplace
  · rw [hchars]
    exact h.readsHandle.trans hplace

theorem exists_declares_concat {ts : List LinkedText} (ht : t ∈ ts)
    (h : ∃ variable_ handle, t.Declares place name variable_ handle) :
    ∃ variable_ handle, (concat ts).Declares place name variable_ handle := by
  obtain ⟨variable_, handle, h⟩ := h
  obtain ⟨before, hin⟩ := exists_standsIn ht
  exact ⟨_, _, h.standsIn hin⟩

end LinkedText

namespace Virtual

open Script

/-! ## 3. The declarations of a label -/

/-- The marks of a variable stand where it and its handle are declared. -/
theorem labelVariable_declares (right : Option Span) (v : LabelVar) : ∃ variable_ handle,
    (labelVariable right v).marks = [variable_, handle] ∧
      variableMapping v.span variable_ ∈ (labelVariable right v).body.mappings ∧
      handleMapping v.span handle ∈ (labelVariable right v).body.mappings := by
  rw [labelVariable_eq]
  cases right with
  | none =>
    refine ⟨_, _, rfl, ?_, ?_⟩
    · exact List.mem_cons_self
    · exact List.mem_cons_of_mem _ List.mem_cons_self
  -- the value that the handle is made from is mapped as well, in between
  | some s =>
    refine ⟨_, _, rfl, ?_, ?_⟩
    · exact List.mem_cons_self
    · exact List.mem_cons_of_mem _ (List.mem_cons_of_mem _ List.mem_cons_self)

/-- **The variables of a label.**  Where every variable has a declaration in the scope, the marks behind a text are
made into links that lead from every variable to its handle. -/
theorem variables_declare {pieces : List (Option Span × LabelVar)} {declarations : List Span}
    (hlength : pieces.length = declarations.length) (before : List Char) {right : Option Span} {v : LabelVar}
    (h : (right, v) ∈ pieces) :
    let ts := pieces.map fun piece => labelVariable piece.1 piece.2
    ∃ variable_ handle, Declares (before ++ ts.flatMap LinkedText.chars)
      (MappedText.mappingsFrom (byteLength before) (ts.map (·.body)))
      (linkVariables declarations (LinkedText.marksFrom (byteLength before) ts)) v.span v.name.toList
      variable_ handle := by
  induction pieces generalizing declarations before with
  | nil => cases h
  | cons piece pieces ih =>
    cases declarations with
    | nil => simp at hlength
    | cons declaration declarations =>
    obtain ⟨x, y, hmarks, hvariable, hhandle⟩ := labelVariable_declares piece.1 piece.2
    have hnames := labelVariable_marks piece.1 piece.2
    simp only [List.map_cons, List.flatMap_cons, MappedText.mappingsFrom, LinkedText.marksFrom, hmarks,
      List.map_nil, List.cons_append, List.nil_append, linkVariables]
    rcases List.mem_cons.1 h with rfl | h
    · have hplace := Span.reads_append before (labelVariable right v).chars
        ((pieces.map fun piece => labelVariable piece.1 piece.2).flatMap LinkedText.chars)
      rw [LinkedText.Marks, hmarks] at hnames
      obtain ⟨hx, hnames⟩ := List.forall₂_cons.1 hnames
      obtain ⟨hy, -⟩ := List.forall₂_cons.1 hnames
      refine ⟨x.shift (byteLength before), y.shift (byteLength before), ?_, ?_, ?_, hx.trans hplace,
        hy.trans hplace⟩
      · exact List.mem_append_left _ (List.mem_map_of_mem hvariable)
      · exact List.mem_append_left _ (List.mem_map_of_mem hhandle)
      · exact List.mem_append_left _ (List.mem_cons_of_mem _ List.mem_cons_self)
    · obtain ⟨variable_, handle, hdeclares⟩ :=
        ih (Nat.succ.inj hlength) (before ++ (labelVariable piece.1 piece.2).chars) h
      rw [byteLength_append, ← LinkedText.size_eq, List.append_assoc] at hdeclares
      refine ⟨variable_, handle, ?_, ?_, ?_, hdeclares.readsVariable, hdeclares.readsHandle⟩
      · exact List.mem_append_right _ hdeclares.variableMapped
      · exact List.mem_append_right _ hdeclares.handleMapped
      · exact List.mem_append_right _ hdeclares.linked

/-- The variables of a label, each with the value of its binding. -/
def valuedVars (label : RefLabel) : List (Option Span × LabelVar) :=
  label.bindings.flatMap fun b => b.vars.map (b.right, ·)

theorem variablePieces_eq (label : RefLabel) :
    variablePieces label = (valuedVars label).map fun piece => labelVariable piece.1 piece.2 := by
  simp [variablePieces, valuedVars, List.map_flatMap, List.map_map, Function.comp_def]

theorem length_valuedVars (label : RefLabel) : (valuedVars label).length = (varNames label.bindings).length := by
  simp [valuedVars, varNames, List.length_flatMap]

/-- An expanded label declares each of its variables. -/
theorem expandLabel_declares {content : String} (body : String) {label : RefLabel}
    (h : BindingsRead content label.bindings) {right : Option Span} {v : LabelVar}
    (hv : (right, v) ∈ valuedVars label) :
    ∃ variable_ handle,
      (expandLabel content body label).Declares v.span v.name.toList variable_ handle := by
  have hscope := labelScope_marks h
  have hlength : (valuedVars label).length = (labelScope content label.bindings).marks.length := by
    rw [length_valuedVars, hscope.length_eq]
  obtain ⟨variable_, handle, hdeclares⟩ := variables_declare hlength
    ((labelScope content label.bindings).chars ++ (labelHandles content body label.bindings).chars) hv
  simp only [← variablePieces_eq] at hdeclares
  -- the two pieces in front of the variables
  have hmappings := LinkedText.mappingsFrom_append 0
    [labelScope content label.bindings, labelHandles content body label.bindings] (variablePieces label)
  have hmarks := label_marks_eq (labelScope content label.bindings) content body label
  have hsize : (labelScope content label.bindings).body.size +
      (labelHandles content body label.bindings).body.size =
        byteLength ((labelScope content label.bindings).chars ++
          (labelHandles content body label.bindings).chars) := by
    rw [byteLength_append, LinkedText.size_eq, LinkedText.size_eq]
  have hchars : (expandLabel content body label).chars = (labelScope content label.bindings).chars ++
      (labelHandles content body label.bindings).chars ++ (variablePieces label).flatMap LinkedText.chars := by
    rw [List.append_assoc]
    exact LinkedText.chars_concat _
  refine ⟨variable_, handle, ?_, ?_, ?_, ?_, ?_⟩
  · show _ ∈ MappedText.mappingsFrom 0 _
    exact hmappings ▸ List.mem_append_right _ (by simpa using hdeclares.variableMapped)
  · show _ ∈ MappedText.mappingsFrom 0 _
    exact hmappings ▸ List.mem_append_right _ (by simpa using hdeclares.handleMapped)
  · rw [expandLabel_eq]
    refine List.mem_append_right _ ?_
    simp only [hmarks, List.take_left, List.drop_left, hsize]
    exact hdeclares.linked
  · rw [hchars]
    exact hdeclares.readsVariable
  · rw [hchars]
    exact hdeclares.readsHandle

/-! ## 4. The declarations of a document -/

theorem expandLabel_mem_bodyFrom (content body : String) {label : RefLabel} {labels : List RefLabel}
    (h : label ∈ labels) (pos : Nat) : expandLabel content body label ∈ bodyFrom content body pos labels := by
  induction labels generalizing pos with
  | nil => cases h
  | cons first labels ih =>
    rcases List.mem_cons.1 h with rfl | h
    · exact List.mem_cons_of_mem _ List.mem_cons_self
    · exact List.mem_cons_of_mem _ (List.mem_cons_of_mem _ (ih h _))

/-- The setup function declares every variable of every label. -/
theorem setupProgram_declares {block : Block} {facts : SetupFacts} (hfacts : analyzeSetup block.content = .ok facts)
    {label : RefLabel} (hlabel : label ∈ facts.labels) {right : Option Span} {v : LabelVar}
    (hv : (right, v) ∈ valuedVars label) :
    ∃ variable_ handle, (setupProgram block facts).Declares v.span v.name.toList variable_ handle := by
  have hread := bindingsRead_of_analyzeSetup hfacts label hlabel
  refine LinkedText.exists_declares_concat ?_
    (expandLabel_declares (withoutImports block.content facts) hread hv)
  have hmem := expandLabel_mem_bodyFrom block.content (withoutImports block.content facts)
    (List.mem_mergeSort.2 hlabel : label ∈ facts.labels.mergeSort fun a b => a.span.start ≤ b.span.start) 0
  simp [hmem]

/-- Moving the sources to the block moves the place of a variable. -/
theorem declares_inBlock {t : LinkedText} {place variable_ handle : Span} {name : List Char}
    (h : t.Declares place name variable_ handle) (block : Block) :
    (LinkedText.inBlock t block).Declares (place.shift block.span.start) name variable_ handle where
  variableMapped := List.mem_map_of_mem h.variableMapped
  handleMapped := List.mem_map_of_mem h.handleMapped
  linked := h.linked
  readsVariable := h.readsVariable
  readsHandle := h.readsHandle

variable (uri : Uri) (text : String) (options : BuildOptions)

/-- **Every variable of a label is declared**, with its handle, in the script document of a build. -/
theorem build_declares {d : CodeDocument} (hd : (build uri text options).script = some d) {block : Block}
    {facts : SetupFacts} (hsetup : (logicBlocks text).setup = some (block, facts)) {label : RefLabel}
    (hlabel : label ∈ facts.labels) {b : LabelBinding} (hb : b ∈ label.bindings) {v : LabelVar}
    (hv : v ∈ b.vars) :
    ∃ variable_ handle, Declares d.document.text.toList d.map.mappings d.links.map.mappings
      (v.span.shift block.span.start) v.name.toList variable_ handle := by
  obtain ⟨-, hfacts⟩ := (logicBlocks_fromFile text).setup block facts hsetup
  have hvalued : (b.right, v) ∈ valuedVars label := List.mem_flatMap.2 ⟨b, hb, List.mem_map_of_mem hv⟩
  obtain ⟨variable_, handle, hdeclares⟩ := setupProgram_declares hfacts hlabel hvalued
  rw [build_script_eq uri text options hd]
  refine LinkedText.exists_declares_concat (t := LinkedText.inBlock (setupProgram block facts) block) ?_
    ⟨variable_, handle, declares_inBlock hdeclares block⟩
  simp [hsetup]

end Virtual

end ComponentLens
