/-
# The links of the script document

Two kinds of pieces of the script document carry links: expanded labels, and the entries of the object that the
setup function returns.  Everything else is bare (`bare_pieces`).

An entry links the name behind the colon to the same name in front of it.  An expanded label marks every one of
its variables three times: where the scope in front declares it, where it is declared again, and, with a dollar
sign in front, where its handle is declared (`labelScope_marks`, `labelVariable_marks`).  The marks stand over
the name of the variable because that name stands in the block at the place of the variable, and the scope copies
the left side of the binding that the variable stands in.  So the links that are made of the marks join what
they say (`sound_linkVariables`).
-/
import ComponentLens.Proofs.Mapping.Links
import ComponentLens.Proofs.Script.Order
import ComponentLens.Proofs.Virtual.ScriptCopies

namespace ComponentLens.Virtual

open Script

/-! ## 1. Bare pieces -/

/-- The pieces of a setup block are bare, and so is what is joined of them. -/
theorem bare_pieces (allowed : Span → Prop) (content body : String) :
    PiecesJoined allowed content body LinkedText.Bare where
  toJoined := LinkedText.bare_joined
  side := fun _ _ _ _ _ _ _ => LinkedText.bare_mapped _ _ _ _
  copy := fun _ _ _ => LinkedText.bare_mapped _ _ _ _
  bodyCopy := fun _ _ _ => LinkedText.bare_mapped _ _ _ _

theorem bare_labelHandles (content body : String) (bindings : List LabelBinding) :
    LinkedText.Bare (labelHandles content body bindings) :=
  (bare_pieces (fun _ => True) content body).labelHandles fun _ _ _ _ => trivial

/-! ## 2. The marks of a label -/

/-- The names of the variables of labelled bindings. -/
def varNames (bindings : List LabelBinding) : List (List Char) :=
  bindings.flatMap fun b => b.vars.map (·.name.toList)

/-- The left sides of bindings can be copied, and the variables stand in them under their names. -/
structure BindingsRead (content : String) (bindings : List LabelBinding) : Prop where
  left : ∀ b ∈ bindings, b.left.EndsAt (IsBoundary content.toList)
  inOrder : ∀ b ∈ bindings, b.InOrder
  vars : ∀ b ∈ bindings, ∀ v ∈ b.vars, v.span.Reads content.toList v.name.toList

/-- What the scope holds of one binding. -/
def scopePieces (content : String) (b : LabelBinding) (index : Nat) : List LinkedText :=
  [.plain (if index == 0 then "let " else ", "),
    { copyOf content b.left (.completion ||| .definitions ||| .semanticTokens ||| .rename) with
      marks := b.vars.map fun v => Span.mk (v.span.start - b.left.start) (v.span.stop - b.left.start) },
    .plain (match b.right with
      | some right => " = " ++ right.slice content
      | none => "")]

theorem labelScope_eq (content : String) (bindings : List LabelBinding) :
    labelScope content bindings = .concat (.plain "\x7b " ::
      bindings.zipIdx.flatMap (fun (b, index) => scopePieces content b index) ++ [.plain "; \x7d\n"]) := rfl

/-- The marks of a copied left side stand over the variables. -/
theorem scopePieces_marks {content : String} {b : LabelBinding} (index : Nat)
    (hleft : b.left.EndsAt (IsBoundary content.toList)) (horder : b.InOrder)
    (hvars : ∀ v ∈ b.vars, v.span.Reads content.toList v.name.toList) :
    List.Forall₂ LinkedText.Marks (scopePieces content b index) [[], b.vars.map (·.name.toList), []] := by
  obtain ⟨inside, hinside⟩ := Span.exists_reads hleft.1 hleft.2
    (horder.forward b.left (by simp [LabelBinding.spans]))
  have hchars : (b.left.slice content).toList = inside := by rw [hinside.slice, String.toList_ofList]
  have hplain := fun text => (LinkedText.bare_plain text).toMarks
  refine .cons (hplain _) (.cons ?_ (.cons (hplain _) .nil))
  refine List.forall₂_map_left_iff.2 (List.forall₂_map_right_iff.2 (List.forall₂_same.2 ?_))
  intro v hv
  obtain ⟨-, hstart, hstop⟩ := horder.vars v hv
  have hreads := (hvars v hv).within hinside hstart hstop
  rwa [← hchars] at hreads

/-- **The scope marks every variable** where it copies the left side of its binding. -/
theorem labelScope_marks {content : String} {bindings : List LabelBinding} (h : BindingsRead content bindings) :
    (labelScope content bindings).Marks (varNames bindings) := by
  have hbindings : ∀ n, List.Forall₂ LinkedText.Marks
      ((bindings.zipIdx n).flatMap fun (b, index) => scopePieces content b index)
      (bindings.flatMap fun b => [[], b.vars.map (·.name.toList), []]) := by
    obtain ⟨hleft, horder, hvars⟩ := h
    induction bindings with
    | nil => exact fun n => .nil
    | cons b rest ih =>
      intro n
      rw [List.zipIdx_cons, List.flatMap_cons, List.flatMap_cons]
      refine List.rel_append ?_ ?_
      · exact scopePieces_marks n (hleft b (by simp)) (horder b (by simp)) (hvars b (by simp))
      · exact ih (fun b hb => hleft b (by simp [hb])) (fun b hb => horder b (by simp [hb]))
          (fun b hb => hvars b (by simp [hb])) (n + 1)
  have hnames : (bindings.flatMap fun b => [[], b.vars.map (·.name.toList), []]).flatten =
      varNames bindings := by
    clear h hbindings
    induction bindings with
    | nil => rfl
    | cons b rest ih => simpa [varNames, List.flatMap_cons] using ih
  have hplain := fun text => (LinkedText.bare_plain text).toMarks
  have hwhole := LinkedText.marks_concat
    (.cons (hplain "\x7b ") (List.rel_append (hbindings 0) (.cons (hplain "; \x7d\n") .nil)))
  rw [labelScope_eq]
  simpa [hnames] using hwhole

theorem labelScope_links (content : String) (bindings : List LabelBinding) :
    (labelScope content bindings).links = [] := by
  refine LinkedText.linksFrom_eq_nil ?_
  intro t ht
  simp only [List.mem_append, List.mem_cons, List.mem_flatMap, List.not_mem_nil, or_false] at ht
  rcases ht with (rfl | ⟨⟨b, index⟩, -, rfl | rfl | rfl⟩) | rfl
  all_goals rfl

/-- The name that holds the reactive value, where a variable is declared. -/
def labelHandle (right : Option Span) (v : LabelVar) : LinkedText :=
  match right with
  | some right => setupCode (handleName v) right .none
  | none => .plain (handleName v)

theorem bare_labelHandle (right : Option Span) (v : LabelVar) : (labelHandle right v).Bare := by
  cases right with
  | none => exact LinkedText.bare_plain _
  | some s => exact LinkedText.bare_mapped _ _ _ _

theorem labelVariable_eq (right : Option Span) (v : LabelVar) :
    labelVariable right v = .concat
      [.plain "let ", (setupCode v.name v.span (.basic ||| .references ||| .diagnostic)).mark,
        .plain " = (await import('__VLS_vue')).unref(", labelHandle right v, .plain ("); " ++ v.name ++ ";\n"),
        .plain "const ", (LinkedText.mapped ("$" ++ v.name) v.span .offset
          { region := .scriptSetup, capabilities := .basic ||| .diagnostic
            beforeRename := some .stripDollar }).mark,
        .plain " = (await import('__VLS_vue')).ref(", labelHandle right v,
        .plain ("); $" ++ v.name ++ ";\n")] := by
  cases right <;> rfl

/-- **A variable is marked twice**, the second time with a dollar sign in front. -/
theorem labelVariable_marks (right : Option Span) (v : LabelVar) :
    (labelVariable right v).Marks [v.name.toList, '$' :: v.name.toList] := by
  have hplain := fun text => (LinkedText.bare_plain text).toMarks
  have hhandle := (bare_labelHandle right v).toMarks
  have hvariable := (LinkedText.bare_mapped v.name v.span .offset
    { region := .scriptSetup, capabilities := .basic ||| .references ||| .diagnostic }).marks_mark
  have hdollar := (LinkedText.bare_mapped ("$" ++ v.name) v.span .offset
    { region := .scriptSetup, capabilities := .basic ||| .diagnostic
      beforeRename := some .stripDollar }).marks_mark
  have hchars : (LinkedText.mapped ("$" ++ v.name) v.span .offset
      { region := .scriptSetup, capabilities := .basic ||| .diagnostic
        beforeRename := some .stripDollar }).chars = '$' :: v.name.toList := by
    change ("$" ++ v.name).toList = '$' :: v.name.toList
    simp
  rw [hchars] at hdollar
  rw [labelVariable_eq]
  exact LinkedText.marks_concat (.cons (hplain _) (.cons hvariable (.cons (hplain _) (.cons hhandle
    (.cons (hplain _) (.cons (hplain _) (.cons hdollar (.cons (hplain _) (.cons hhandle
      (.cons (hplain _) .nil))))))))))

theorem labelVariable_links (right : Option Span) (v : LabelVar) : (labelVariable right v).links = [] := by
  rw [labelVariable_eq]
  cases right <;> rfl

/-- The second mark of a variable stands behind the first. -/
theorem labelVariable_apart (right : Option Span) (v : LabelVar) :
    (labelVariable right v).marks.Pairwise fun a b => a.stop ≤ b.start := by
  have hplain := fun text => (LinkedText.bare_plain text).markedWhole
  have hmarked := fun code data => (LinkedText.bare_mapped code v.span .offset data).markedWhole_mark
  have hhandle := (bare_labelHandle right v).markedWhole
  rw [labelVariable_eq]
  refine LinkedText.marks_apart_of_whole ?_
  simp only [List.forall_mem_cons, List.not_mem_nil, false_implies, implies_true, and_true]
  exact ⟨hplain _, hmarked _ _, hplain _, hhandle, hplain _, hplain _, hmarked _ _, hplain _, hhandle, hplain _⟩

/-! ## 3. The links of a label -/

/-- A link of a variable ends at its marks. -/
theorem ends_linkVariables {declarations marks : List Span} {link : Mapping LinkData}
    (h : link ∈ linkVariables declarations marks) :
    (link.source ∈ declarations ∨ link.source ∈ marks) ∧ link.target ∈ marks := by
  fun_induction linkVariables declarations marks with
  | case1 declaration declarations variable_ dollar rest ih =>
    rcases List.mem_append.1 h with h | h
    · simp only [variableLinks, List.mem_cons, List.not_mem_nil, or_false] at h
      rcases h with rfl | rfl
      · simp
      · simp
    · obtain ⟨hsource, htarget⟩ := ih h
      constructor
      · exact hsource.imp (List.mem_cons_of_mem _) fun h => List.mem_cons_of_mem _ (List.mem_cons_of_mem _ h)
      · exact List.mem_cons_of_mem _ (List.mem_cons_of_mem _ htarget)
  | case2 => simp at h

/-- **Marks made into links.**  The marks of the declarations stand over names, those of the variables and of
their handles over the same names, one behind the other and behind all declarations. -/
theorem sound_linkVariables {text : List Char} {names : List (List Char)} {declarations marks : List Span}
    (hdeclarations : List.Forall₂ (fun mark name => mark.Reads text name) declarations names)
    (hmarks : List.Forall₂ (fun mark name => mark.Reads text name) marks
      (names.flatMap fun name => [name, '$' :: name]))
    (hapart : marks.Pairwise fun a b => a.stop ≤ b.start)
    (hahead : ∀ declaration ∈ declarations, ∀ mark ∈ marks, declaration.stop ≤ mark.start) :
    (∀ link ∈ linkVariables declarations marks, Joins text link) ∧
      Separate (linkVariables declarations marks) := by
  induction hdeclarations generalizing marks with
  | nil => simp [linkVariables, Separate]
  | @cons declaration name declarations names hdeclaration hrest ih =>
    simp only [List.flatMap_cons, List.cons_append, List.nil_append] at hmarks
    cases hmarks with
    | @cons variable_ _ marks _ hvariable hmarks =>
    cases hmarks with
    | @cons dollar _ marks _ hdollar hmarks =>
    obtain ⟨hvariableApart, hapart⟩ := List.pairwise_cons.1 hapart
    obtain ⟨hdollarApart, hapart⟩ := List.pairwise_cons.1 hapart
    obtain ⟨hjoins, hseparate⟩ := ih hmarks hapart fun d hd m hm =>
      hahead d (List.mem_cons_of_mem _ hd) m (by simp [hm])
    have hvariableDollar := hvariableApart dollar (by simp)
    have hhead : ∀ link ∈ variableLinks declaration variable_ dollar, Joins text link := by
      simp only [variableLinks, List.forall_mem_cons, List.not_mem_nil, false_implies, implies_true, and_true]
      exact ⟨.same name ⟨rfl, rfl, rfl, rfl⟩ hdeclaration hvariable,
        .dollar name ⟨rfl, rfl, rfl, rfl⟩ hvariable hdollar⟩
    have hall : ∀ link ∈ linkVariables (declaration :: declarations) (variable_ :: dollar :: marks),
        Joins text link := List.forall_mem_append.2 ⟨hhead, hjoins⟩
    refine ⟨hall, ?_⟩
    intro link hlink hrespells other hother hne
    have hroom := (hall link hlink).room hrespells
    rcases List.mem_append.1 hlink with hlink | hlink
    · -- the handle of the first variable
      simp only [variableLinks, List.mem_cons, List.not_mem_nil, or_false] at hlink
      rcases hlink with rfl | rfl
      · cases hrespells
      rcases List.mem_append.1 hother with hother | hother
      · simp only [variableLinks, List.mem_cons, List.not_mem_nil, or_false] at hother
        rcases hother with rfl | rfl
        · have hdeclarationDollar := hahead declaration (by simp) dollar (by simp)
          exact ⟨ne_of_stop_le hdeclarationDollar (.inr hroom), ne_of_stop_le hvariableDollar (.inr hroom)⟩
        · exact absurd rfl hne
      · obtain ⟨hsource, htarget⟩ := ends_linkVariables hother
        refine ⟨?_, (ne_of_stop_le (hdollarApart _ htarget) (.inl hroom)).symm⟩
        rcases hsource with hsource | hsource
        · exact ne_of_stop_le (hahead _ (List.mem_cons_of_mem _ hsource) dollar (by simp)) (.inr hroom)
        · exact (ne_of_stop_le (hdollarApart _ hsource) (.inl hroom)).symm
    · -- a handle further behind
      have hmem := (ends_linkVariables hlink).2
      rcases List.mem_append.1 hother with hother | hother
      · have hends : other.source.stop ≤ link.target.start ∧ other.target.stop ≤ link.target.start := by
          have hdeclarationApart := hahead declaration (by simp) link.target (by simp [hmem])
          have hvariableTarget := hvariableApart link.target (by simp [hmem])
          have hdollarTarget := hdollarApart link.target hmem
          simp only [variableLinks, List.mem_cons, List.not_mem_nil, or_false] at hother
          rcases hother with rfl | rfl
          · exact ⟨hdeclarationApart, hvariableTarget⟩
          · exact ⟨hvariableTarget, hdollarTarget⟩
        exact ⟨ne_of_stop_le hends.1 (.inr hroom), ne_of_stop_le hends.2 (.inr hroom)⟩
      · exact hseparate link hlink hrespells other hother hne

/-- The declarations of all variables of a label. -/
def variablePieces (label : RefLabel) : List LinkedText :=
  label.bindings.flatMap fun b => b.vars.map (labelVariable b.right)

theorem variablePieces_marks (label : RefLabel) : List.Forall₂ LinkedText.Marks (variablePieces label)
    (label.bindings.flatMap fun b => b.vars.map fun v => [v.name.toList, '$' :: v.name.toList]) := by
  refine List.rel_flatMap (R := Eq) (List.forall₂_same.2 fun _ _ => rfl) ?_
  rintro b _ rfl
  refine List.forall₂_map_left_iff.2 (List.forall₂_map_right_iff.2 (List.forall₂_same.2 ?_))
  exact fun v _ => labelVariable_marks b.right v

theorem flatten_doubledNames (bindings : List LabelBinding) :
    (bindings.flatMap fun b => b.vars.map fun v => [v.name.toList, '$' :: v.name.toList]).flatten =
      (varNames bindings).flatMap fun name => [name, '$' :: name] := by
  simp [varNames, List.flatMap_def, List.map_map, Function.comp_def]

theorem mem_variablePieces {label : RefLabel} {t : LinkedText} (h : t ∈ variablePieces label) :
    ∃ right v, t = labelVariable right v := by
  obtain ⟨b, -, ht⟩ := List.mem_flatMap.1 h
  obtain ⟨v, -, rfl⟩ := List.mem_map.1 ht
  exact ⟨b.right, v, rfl⟩

theorem expandLabel_eq (content body : String) (label : RefLabel) :
    expandLabel content body label =
      (LinkedText.concat (labelScope content label.bindings :: labelHandles content body label.bindings ::
        variablePieces label)).tie fun marks =>
          linkVariables (marks.take (labelScope content label.bindings).marks.length)
            (marks.drop (labelScope content label.bindings).marks.length) := rfl

/-- The marks of an expanded label, before they are made into links: those of the scope, and behind it those of
the variables. -/
theorem label_marks_eq (scope : LinkedText) (content body : String) (label : RefLabel) :
    (LinkedText.concat (scope :: labelHandles content body label.bindings :: variablePieces label)).marks =
      scope.marks ++ LinkedText.marksFrom
        (scope.body.size + (labelHandles content body label.bindings).body.size) (variablePieces label) := by
  have hhandles := bare_labelHandles content body label.bindings
  have hshift : scope.marks.map (·.shift 0) = scope.marks := List.map_id'' (fun _ => rfl) _
  simp [LinkedText.concat, LinkedText.marksFrom, hhandles.marks, hshift]

/-- The marks of the variables stand one behind the other. -/
theorem variables_apart (pos : Nat) (label : RefLabel) :
    (LinkedText.marksFrom pos (variablePieces label)).Pairwise (fun a b => a.stop ≤ b.start) ∧
      ∀ mark ∈ LinkedText.marksFrom pos (variablePieces label), pos ≤ mark.start := by
  refine LinkedText.marksFrom_apart ?_ ?_ pos
  · intro t ht
    obtain ⟨right, v, rfl⟩ := mem_variablePieces ht
    exact (labelVariable_marks right v).stop_le
  · intro t ht
    obtain ⟨right, v, rfl⟩ := mem_variablePieces ht
    exact labelVariable_apart right v

/-- **An expanded label.**  Its links join what they say. -/
theorem expandLabel_sound {content : String} (body : String) {label : RefLabel}
    (h : BindingsRead content label.bindings) : (expandLabel content body label).Sound := by
  have hscope := labelScope_marks h
  have hhandles := bare_labelHandles content body label.bindings
  have hpieces := variablePieces_marks label
  have hmarks := LinkedText.marks_concat (.cons hscope (.cons hhandles.toMarks hpieces))
  simp only [List.flatten_cons, List.nil_append, flatten_doubledNames] at hmarks
  have hsplit := label_marks_eq (labelScope content label.bindings) content body label
  obtain ⟨hapart, hbehind⟩ := variables_apart ((labelScope content label.bindings).body.size +
    (labelHandles content body label.bindings).body.size) label
  have hlength := hscope.length_eq
  rw [LinkedText.Marks, hsplit] at hmarks
  have hdeclarations := List.forall₂_take (labelScope content label.bindings).marks.length hmarks
  have hvariables := List.forall₂_drop (labelScope content label.bindings).marks.length hmarks
  rw [List.take_left, hlength, List.take_left] at hdeclarations
  rw [List.drop_left, hlength, List.drop_left] at hvariables
  obtain ⟨hjoins, hseparate⟩ := sound_linkVariables hdeclarations hvariables hapart fun d hd m hm =>
    Nat.le_trans (hscope.stop_le d hd) (Nat.le_trans (Nat.le_add_right _ _) (hbehind m hm))
  rw [expandLabel_eq]
  refine LinkedText.sound_tie (LinkedText.linksFrom_eq_nil ?_) ?_ ?_
  · simp only [List.forall_mem_cons]
    refine ⟨labelScope_links content label.bindings, hhandles.links, fun t ht => ?_⟩
    obtain ⟨right, v, rfl⟩ := mem_variablePieces ht
    exact labelVariable_links right v
  · rw [hsplit, List.take_left, List.drop_left]
    exact hjoins
  · rw [hsplit, List.take_left, List.drop_left]
    exact hseparate

/-! ## 4. The document -/

theorem returnEntry_eq (name : String) (span : Span) (separator : String) :
    returnEntry name span separator =
      (LinkedText.concat [(setupCode name span .none).mark, .plain ": ", (setupCode name span .none).mark,
        .plain separator]).tie fun
        | [key, value] => [bindingLink value key]
        | _ => [] := rfl

/-- **An entry of the returned object.**  It holds its name twice, and links the one to the other. -/
theorem returnEntry_sound (name : String) (span : Span) (separator : String) :
    (returnEntry name span separator).Sound := by
  have hside : (setupCode name span .none).Bare := LinkedText.bare_mapped _ _ _ _
  have hplain := fun text => (LinkedText.bare_plain text).toMarks
  have hmarks := LinkedText.marks_concat (.cons hside.marks_mark (.cons (hplain ": ")
    (.cons hside.marks_mark (.cons (hplain separator) .nil))))
  rw [returnEntry_eq]
  refine LinkedText.sound_tie_plain hmarks name.toList ?_ rfl ?_
  · intro n hn
    have hchars : (setupCode name span .none).chars = name.toList := rfl
    simpa [hchars] using hn
  · intro link hlink
    split at hlink
    next key value hsplit =>
      obtain rfl := List.mem_singleton.1 hlink
      exact ⟨⟨rfl, rfl, rfl, rfl⟩, by simp [hsplit, bindingLink], by simp [hsplit, bindingLink]⟩
    · cases hlink

theorem sound_pieces (allowed : Span → Prop) (content body : String) :
    PiecesJoined allowed content body LinkedText.Sound where
  toJoined := LinkedText.sound_joined
  side := fun _ _ _ _ _ _ _ => (LinkedText.bare_mapped _ _ _ _).sound
  copy := fun _ _ _ => (LinkedText.bare_mapped _ _ _ _).sound
  bodyCopy := fun _ _ _ => (LinkedText.bare_mapped _ _ _ _).sound

/-- What the analysis of a block tells of the bindings of its labels. -/
theorem bindingsRead_of_analyzeSetup {content : String} {facts : SetupFacts}
    (h : analyzeSetup content = .ok facts) :
    ∀ label ∈ facts.labels, BindingsRead content label.bindings := by
  intro label hlabel
  constructor
  · intro b hb
    exact analyzeSetup_endsAt h b.left
      (label_mem_spans hlabel (binding_mem_spans hb (by simp [LabelBinding.spans])))
  · exact ((analyzeSetup_labels h).2 label hlabel).bindings
  · exact analyzeSetup_varReads h label hlabel

theorem setupProgram_sound {block : Block} {facts : SetupFacts} (h : analyzeSetup block.content = .ok facts) :
    (setupProgram block facts).Sound :=
  SetupJoined.setupProgram (sound_pieces _ _ _) (isBoundary_withoutImports _ _) (analyzeSetup_endsAt h)
    (fun label hlabel => expandLabel_sound _ (bindingsRead_of_analyzeSetup h label hlabel))
    fun s _ name separator => returnEntry_sound name s separator

/-- Links stay where they are when the sources of a piece move to its block. -/
theorem sound_inBlock {t : LinkedText} (h : t.Sound) (block : Block) : (LinkedText.inBlock t block).Sound :=
  ⟨h.joins, h.separate⟩

/-- **The links of the script document** join what they say. -/
theorem scriptProgram_sound {input : ScriptInput} {file : List Char} (hinput : input.FromFile file) :
    (scriptProgram input).Sound := by
  refine scriptProgram_joined LinkedText.sound_joined ?_ ?_
  · intro block facts _
    refine ⟨?_, sound_inBlock (LinkedText.bare_mapped _ _ _ _).sound block, sound_inBlock ?_ block⟩
    · unfold sourceExport
      split
      · refine LinkedText.sound_joined.concat _ ?_
        intro t ht
        simp only [List.mem_cons, List.not_mem_nil, or_false] at ht
        rcases ht with rfl | rfl | rfl | rfl | rfl
        all_goals exact LinkedText.sound_of_links_nil rfl
      · exact LinkedText.sound_of_links_nil rfl
    · unfold scriptOptions
      split
      · exact (LinkedText.bare_mapped _ _ _ _).sound
      · exact (LinkedText.bare_plain _).sound
  · intro block facts hsetup
    obtain ⟨-, hfacts⟩ := hinput.setup block facts hsetup
    have hoptions : (setupOptions block.content facts).Sound :=
      SetupJoined.setupOptions (sound_pieces _ _ block.content) (analyzeSetup_endsAt hfacts)
    exact ⟨sound_inBlock (setupProgram_sound hfacts) block, sound_inBlock hoptions block⟩

end ComponentLens.Virtual
