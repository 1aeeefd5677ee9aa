/-
# Links can be followed both ways

Every link of a generated document joins two spellings of one symbol, and what it leads to leads back.
`build_links` says this of all builds: of the links of the setup function and its labels, which the script
document holds (`scriptProgram_sound`), and of those between the uses of a name and its declaration, which the
template document holds (`templateProgram_sound`).

Offsets take 32 bits.  A look-up keeps its result within them, so what is said of ranges holds of documents whose
length fits.
-/
import ComponentLens.Proofs.Virtual.Provenance
import ComponentLens.Proofs.Virtual.ScriptLinks

namespace ComponentLens.Virtual

/-! ## 1. The template document -/

/-- The links of a declared name, made of the marks over it. -/
def nameLinks : List Span → List (Mapping LinkData)
  | declaration :: use :: uses => nameLink false use declaration :: uses.map (nameLink true · declaration)
  | _ => []

theorem mem_nameLinks {marks : List Span} {link : Mapping LinkData} (h : link ∈ nameLinks marks) :
    IsPlain link ∧ link.source ∈ marks ∧ link.target ∈ marks := by
  unfold nameLinks at h
  split at h
  next declaration use uses =>
    rcases List.mem_cons.1 h with rfl | h
    · exact ⟨⟨rfl, rfl, rfl, rfl⟩, by simp [nameLink], by simp [nameLink]⟩
    · obtain ⟨later, hlater, rfl⟩ := List.mem_map.1 h
      exact ⟨⟨rfl, rfl, rfl, rfl⟩, by simp [nameLink, hlater], by simp [nameLink]⟩
  · cases h

/-- What a declaration of a name is put together from. -/
def namePieces (isProp : Bool) (name : String) : List LinkedText :=
  [.plain "declare var ", (LinkedText.plain name).mark, .plain ": typeof __VLS_ctx.",
    (LinkedText.plain name).mark, .plain ";"] ++
  (if isProp then [.plain " __VLS_options.props.", (LinkedText.plain name).mark, .plain ";"] else []) ++
  [.plain "\n"]

theorem nameDeclaration_eq (isProp : Bool) (name : String) :
    nameDeclaration isProp name = (LinkedText.concat (namePieces isProp name)).tie nameLinks := rfl

/-- **A declaration of a name.**  It holds the name several times, and links the uses to the declaration. -/
theorem nameDeclaration_sound (isProp : Bool) (name : String) : (nameDeclaration isProp name).Sound := by
  have hname := (LinkedText.bare_plain name).marks_mark
  have hplain := fun text => (LinkedText.bare_plain text).toMarks
  rw [nameDeclaration_eq]
  cases isProp with
  | false =>
    have hmarks := LinkedText.marks_concat (.cons (hplain "declare var ") (.cons hname
      (.cons (hplain ": typeof __VLS_ctx.") (.cons hname (.cons (hplain ";") (.cons (hplain "\n") .nil))))))
    exact LinkedText.sound_tie_plain hmarks name.toList (by simp) rfl
      fun link hlink => mem_nameLinks hlink
  | true =>
    have hmarks := LinkedText.marks_concat (.cons (hplain "declare var ") (.cons hname
      (.cons (hplain ": typeof __VLS_ctx.") (.cons hname (.cons (hplain ";")
        (.cons (hplain " __VLS_options.props.") (.cons hname (.cons (hplain ";")
          (.cons (hplain "\n") .nil)))))))))
    exact LinkedText.sound_tie_plain hmarks name.toList (by simp) rfl
      fun link hlink => mem_nameLinks hlink

/-- **The links of the template document** join what they say. -/
theorem templateProgram_sound (base : Uri) (input : TemplateInput) : (templateProgram base input).Sound :=
  templateProgram_joined LinkedText.sound_joined base (fun _ _ _ => LinkedText.sound_of_links_nil rfl)
    nameDeclaration_sound (LinkedText.sound_of_links_nil rfl)

/-! ## 2. Builds -/

variable (uri : Uri) (text : String) (options : BuildOptions)

/-- The links of every document of a build join what they say, and keep apart. -/
theorem build_links_sound {d : CodeDocument} (hd : d ∈ (build uri text options).codeDocuments) :
    (∀ link ∈ d.links.map.mappings, Joins d.document.text.toList link) ∧ Separate d.links.map.mappings := by
  rcases List.mem_append.1 hd with hd | hd
  · rw [build_script_eq uri text options (Option.mem_toList.1 hd)]
    have hsound := scriptProgram_sound (logicBlocks_fromFile text)
    exact ⟨hsound.joins, hsound.separate⟩
  · obtain ⟨input, rfl, -⟩ := build_template uri text options (Option.mem_toList.1 hd)
    have hsound := templateProgram_sound uri input
    simp only [templateDocument, CodeDocument.ofText]
    exact ⟨hsound.joins, hsound.separate⟩

/-! ## 3. Following links of a build -/

/-- The text at the ends of a link, and at the ends of the pair that it tries second. -/
theorem cut_of_joins {text : List Char} {link : Mapping LinkData} (h : Joins text link) :
    (link.data.nameToTarget = none ∧ link.data.nameToSource = none ∧ link.alternates = [] ∧
      ∃ name, link.source.cut? text = some name ∧ link.target.cut? text = some name) ∨
    (link.data.nameToTarget = some .addDollar ∧ link.data.nameToSource = some .stripDollar ∧
      ∃ name near far, link.source.cut? text = some name ∧ link.target.cut? text = some ('$' :: name) ∧
        link.alternates = [⟨.offset, near, far⟩] ∧ near.cut? text = some name ∧
        far.cut? text = some name) := by
  cases h with
  | same name kind source target =>
    exact .inl ⟨kind.toTarget, kind.toSource, kind.alternates, name, source.cut?, target.cut?⟩
  | dollar name kind source target =>
    exact .inr ⟨kind.toTarget, kind.toSource, name, _, _, source.cut?, target.cut?, kind.alternates,
      source.cut?, target.tail.cut?⟩

/-- **Links can be followed both ways.**  A link without a transformation joins two places of one text.  A link
that adds a dollar sign on the way forward, and drops it on the way back, joins a text to the same text behind a
dollar sign, and the pair that it tries second joins equal texts.  What a range leads to on the way forward leads
back to the range along the same link, whoever may go back along it, and a new name is respelled back to itself.
What a range leads to on the way back leads forward along the same link to a range around it. -/
theorem build_links {d : CodeDocument} (hd : d ∈ (build uri text options).codeDocuments)
    (hsize : d.document.size ≤ maxOffset) :
    (∀ link ∈ d.links.map.mappings,
      (link.data.nameToTarget = none ∧ link.data.nameToSource = none ∧ link.alternates = [] ∧
        ∃ name, link.source.cut? d.document.text.toList = some name ∧
          link.target.cut? d.document.text.toList = some name) ∨
      (link.data.nameToTarget = some .addDollar ∧ link.data.nameToSource = some .stripDollar ∧
        ∃ name near far, link.source.cut? d.document.text.toList = some name ∧
          link.target.cut? d.document.text.toList = some ('$' :: name) ∧
          link.alternates = [⟨.offset, near, far⟩] ∧ near.cut? d.document.text.toList = some name ∧
          far.cut? d.document.text.toList = some name)) ∧
    (∀ r origin, r.start ≤ r.stop → ∀ e ∈ d.links.forward r origin,
      ∃ link ∈ d.links.map.mappings, link.carry .toTarget r = some e.range ∧ e.data = link.data ∧
        e.nameTransform = link.data.nameToTarget ∧
        (∀ o, link.data.direction = .sibling ∨ o = .template → link.carry .toSource e.range = some r ∧
          ⟨r, link.data, link.data.nameToSource⟩ ∈ d.links.backward e.range o) ∧
        ∀ name, respell link.data.nameToSource (respell e.nameTransform name) = name) ∧
    (∀ t o, t.start ≤ t.stop → ∀ e ∈ d.links.backward t o,
      ∃ link ∈ d.links.map.mappings, link.carry .toSource t = some e.range ∧ e.data = link.data ∧
        ∃ t', t'.contains t = true ∧ link.carry .toTarget e.range = some t' ∧
          ∀ origin, link.data.allowsForward origin = true →
            ⟨t', link.data, link.data.nameToTarget⟩ ∈ d.links.forward e.range origin) := by
  obtain ⟨hjoins, -⟩ := build_links_sound uri text options hd
  rw [Document.size, ← byteLength_toList] at hsize
  refine ⟨fun link hlink => cut_of_joins (hjoins link hlink), ?_, ?_⟩
  · intro r origin hr e he
    obtain ⟨link, hlink, -, hcarry, hdata, htransform⟩ := LinkMap.mem_forward.1 he
    refine ⟨link, hlink, hcarry, hdata, htransform, fun o ho => ?_, fun name => ?_⟩
    · have hback := (hjoins link hlink).carry_back hsize hr hcarry
      have hallowed : link.data.allowsBackward o = true := by
        rcases ho with hsibling | rfl
        · simp [LinkData.allowsBackward, hsibling]
        · cases hdirection : link.data.direction <;> simp [LinkData.allowsBackward, hdirection]
      exact ⟨hback, LinkMap.mem_backward.2 ⟨link, hlink, hallowed, hback, rfl, rfl⟩⟩
    · rw [htransform]
      exact (hjoins link hlink).respell_back name
  · intro t o ht e he
    obtain ⟨link, hlink, -, hcarry, hdata, -⟩ := LinkMap.mem_backward.1 he
    obtain ⟨t', hforth, hcontains⟩ := (hjoins link hlink).carry_forth hsize ht hcarry
    refine ⟨link, hlink, hcarry, hdata, t', hcontains, hforth, fun origin hallowed => ?_⟩
    exact LinkMap.mem_forward.2 ⟨link, hlink, hallowed, hforth, rfl, rfl⟩

/-- The theorem at the build of a label: in the script document the variable is linked to its handle. -/
theorem build_links_label :
    ∃ d, (build ⟨"file:///A.vue"⟩ "<script setup>ref: a = 1</script>" {}).script = some d ∧
      ∃ link ∈ d.links.map.mappings, link.data.nameToTarget = some .addDollar ∧
        ∃ name, link.source.cut? d.document.text.toList = some name ∧
          link.target.cut? d.document.text.toList = some ('$' :: name) := by
  have hsome : (build ⟨"file:///A.vue"⟩ "<script setup>ref: a = 1</script>" {}).script.isSome = true := by
    decide +kernel
  have hsize : ∀ d ∈ (build ⟨"file:///A.vue"⟩ "<script setup>ref: a = 1</script>" {}).codeDocuments,
      d.document.size ≤ maxOffset := by decide +kernel
  have hlink : ∀ d ∈ (build ⟨"file:///A.vue"⟩ "<script setup>ref: a = 1</script>" {}).codeDocuments,
      ∃ link ∈ d.links.map.mappings, link.data.nameToTarget = some .addDollar := by decide +kernel
  obtain ⟨d, hd⟩ := Option.isSome_iff_exists.1 hsome
  have hmem : d ∈ (build ⟨"file:///A.vue"⟩ "<script setup>ref: a = 1</script>" {}).codeDocuments :=
    List.mem_append_left _ (Option.mem_toList.2 hd)
  obtain ⟨link, hlink, hrespells⟩ := hlink d hmem
  refine ⟨d, hd, link, hlink, hrespells, ?_⟩
  rcases (build_links _ _ _ hmem (hsize d hmem)).1 link hlink with
    ⟨hplain, -⟩ | ⟨-, -, name, near, far, hsource, htarget, -⟩
  · rw [hplain] at hrespells
    cases hrespells
  · exact ⟨name, hsource, htarget⟩

end ComponentLens.Virtual
