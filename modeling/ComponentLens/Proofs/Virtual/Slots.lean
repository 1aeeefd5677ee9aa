/-
# Which document an address is that of

Six families of documents are generated for a component, and each puts a suffix of its own behind the address of
the component.  A suffix has two points, and neither what stands between them nor what stands behind them has
one.  So an address can be cut at its last two points, and there is only one way to do it (`concat_point_inj`):
what is in front is the component, and what is behind tells the family and the index (`suffix_injective`).

It does not matter that the address of one component may begin like an address generated for another.
-/
import ComponentLens.Proofs.Text.UriSuffix
import ComponentLens.Proofs.Virtual.BlockCopies
import ComponentLens.Proofs.Virtual.Provenance
import Mathlib.Data.List.Nodup

namespace ComponentLens.Virtual

/-! ## 1. Slots -/

/-- The places that a build has for documents. -/
inductive Slot where
  | script
  | template
  | style (index : Nat)
  | inlineStyle
  | markup
  | data (index : Nat)
  deriving DecidableEq, Repr

namespace Slot

/-- What stands between the points of a suffix. -/
def stem : Slot → String
  | script => "__VLS_script"
  | template => "__VLS_template"
  | style index => "__VLS_style_" ++ toString index
  | inlineStyle => "template"
  | markup => "template"
  | data index => toString index

/-- The suffix of a document in a language. -/
def suffix (slot : Slot) (lang : String) : String := "." ++ slot.stem ++ "." ++ lang

/-- Whether a document of the slot can be in a language.  A stylesheet is in the one that its block asks for. -/
def Takes : Slot → String → Prop
  | script, lang => lang ∈ ["js", "jsx", "ts", "tsx"]
  | template, lang => lang = "ts"
  | style _, lang => ∀ c ∈ lang.toList, c.isAlphanum = true
  | inlineStyle, lang => lang = "css"
  | markup, lang => lang = "html"
  | data _, lang => lang ∈ ["json", "jsonc"]

/-- The name under which an analysis tool knows the language. -/
def languageId : Slot → String → String
  | script, lang => codeLanguage lang
  | template, _ => "typescript"
  | _, lang => lang

/-- Every language is a word. -/
theorem Takes.isAlphanum {slot : Slot} {lang : String} (h : slot.Takes lang) :
    ∀ c ∈ lang.toList, c.isAlphanum = true := by
  cases slot with
  | script =>
    simp only [Takes, List.mem_cons, List.not_mem_nil, or_false] at h
    rcases h with rfl | rfl | rfl | rfl <;> exact List.all_eq_true.1 (by decide)
  | template =>
    cases h
    exact List.all_eq_true.1 (by decide)
  | style index => exact h
  | inlineStyle =>
    cases h
    exact List.all_eq_true.1 (by decide)
  | markup =>
    cases h
    exact List.all_eq_true.1 (by decide)
  | data index =>
    simp only [Takes, List.mem_cons, List.not_mem_nil, or_false] at h
    rcases h with rfl | rfl <;> exact List.all_eq_true.1 (by decide)

/-! ## 2. Numbers -/

theorem toList_toString (n : Nat) : (toString n).toList = Nat.toDigits 10 n := by
  rw [Nat.toString_eq_ofList_toDigits, String.toList_ofList]

theorem toString_injective {m n : Nat} (h : toString m = toString n) : m = n := by
  have hdigits := congrArg String.toList h
  rw [toList_toString, toList_toString] at hdigits
  simpa using congrArg (Nat.ofDigitChars 10 · 0) hdigits

theorem isDigit_of_mem_toString {n : Nat} {c : Char} (h : c ∈ (toString n).toList) : c.isDigit = true :=
  Nat.isDigit_of_mem_toDigits (by decide) (by decide) (toList_toString n ▸ h)

/-! ## 3. Stems -/

/-- A stem is made of letters, digits and underscores. -/
theorem stem_word (slot : Slot) : ∀ c ∈ slot.stem.toList, c.isAlphanum = true ∨ c = '_' := by
  have hword : ∀ {text : String}, text.toList.all (fun c => c.isAlphanum || c == '_') = true →
      ∀ c ∈ text.toList, c.isAlphanum = true ∨ c = '_' := fun h c hc => by simpa using List.all_eq_true.1 h c hc
  have hdigits : ∀ n : Nat, ∀ c ∈ (toString n).toList, c.isAlphanum = true ∨ c = '_' := fun n c hc => by
    simp [Char.isAlphanum, isDigit_of_mem_toString hc]
  cases slot with
  | script => exact hword (by decide)
  | template => exact hword (by decide)
  | style index =>
    intro c hc
    rw [stem, String.toList_append] at hc
    rcases List.mem_append.1 hc with hc | hc
    · exact hword (by decide) c hc
    · exact hdigits index c hc
  | inlineStyle => exact hword (by decide)
  | markup => exact hword (by decide)
  | data index => exact hdigits index

theorem not_point_of_mem_stem (slot : Slot) : '.' ∉ slot.stem.toList := by
  intro h
  have := slot.stem_word _ h
  revert this
  decide

/-- A number is no text with another character. -/
theorem toString_ne {n : Nat} {text : String} (h : text.toList.all Char.isDigit = false) : text ≠ toString n := by
  rintro rfl
  rw [List.all_eq_true.2 fun c hc => isDigit_of_mem_toString hc] at h
  cases h

theorem eq_data_of_stem {slot : Slot} {n : Nat} (h : slot.stem = toString n) : slot = data n := by
  cases slot with
  | data index => rw [toString_injective h]
  | style index => exact absurd h (toString_ne (List.all_eq_false.2 ⟨'_', by simp [stem], by decide⟩))
  | script | template | inlineStyle | markup => exact absurd h (toString_ne (by decide))

theorem eq_style_of_stem {slot : Slot} {n : Nat} (h : slot.stem = "__VLS_style_" ++ toString n) :
    slot = style n := by
  have hfront : "__VLS_style_".toList <+: slot.stem.toList := by
    rw [h, String.toList_append]
    exact List.prefix_append _ _
  cases slot with
  | data index => exact absurd h.symm (toString_ne (List.all_eq_false.2 ⟨'_', by simp, by decide⟩))
  | style index => rw [toString_injective (String.append_right_inj _ |>.1 h)]
  | script | template | inlineStyle | markup => exact absurd hfront (by decide)

/-- **A stem and a language tell the slot.** -/
theorem eq_of_stem {slot slot' : Slot} {lang : String} (hstem : slot.stem = slot'.stem) (h : slot.Takes lang)
    (h' : slot'.Takes lang) : slot = slot' := by
  cases slot' with
  | data index => exact eq_data_of_stem hstem
  | style index => exact eq_style_of_stem hstem
  | script | template | inlineStyle | markup =>
    cases slot with
    | data index => exact (eq_data_of_stem hstem.symm).symm
    | style index => exact (eq_style_of_stem hstem.symm).symm
    -- two slots have one stem, and then the language tells them apart
    | script | template | inlineStyle | markup => simp_all [stem, Takes]

/-! ## 4. Suffixes -/

/-- A text is cut at its last point in one way. -/
theorem concat_point_inj {xs ys word word' : List Char} (hword : '.' ∉ word) (hword' : '.' ∉ word')
    (h : xs ++ '.' :: word = ys ++ '.' :: word') : xs = ys ∧ word = word' := by
  rcases List.append_eq_append_iff.1 h with ⟨between, hys, hrest⟩ | ⟨between, hxs, hrest⟩
  · cases between with
    | nil =>
      rw [List.nil_append, List.cons.injEq] at hrest
      exact ⟨by simpa using hys.symm, hrest.2⟩
    | cons c between =>
      rw [List.cons_append, List.cons.injEq] at hrest
      exact absurd (hrest.2 ▸ List.mem_append_right between List.mem_cons_self) hword
  · cases between with
    | nil =>
      rw [List.nil_append, List.cons.injEq] at hrest
      exact ⟨by simpa using hxs, hrest.2.symm⟩
    | cons c between =>
      rw [List.cons_append, List.cons.injEq] at hrest
      exact absurd (hrest.2 ▸ List.mem_append_right between List.mem_cons_self) hword'

theorem not_point_of_mem_lang {slot : Slot} {lang : String} (h : slot.Takes lang) : '.' ∉ lang.toList :=
  fun hc => absurd (h.isAlphanum _ hc) (by decide)

theorem toList_suffix (slot : Slot) (lang : String) :
    (slot.suffix lang).toList = '.' :: (slot.stem.toList ++ '.' :: lang.toList) := by
  simp [suffix]

/-- **A text with a suffix is so in one way.** -/
theorem append_suffix_inj {text text' : String} {slot slot' : Slot} {lang lang' : String} (h : slot.Takes lang)
    (h' : slot'.Takes lang') (heq : text ++ slot.suffix lang = text' ++ slot'.suffix lang') :
    text = text' ∧ slot = slot' ∧ lang = lang' := by
  have hlist := congrArg String.toList heq
  rw [String.toList_append, String.toList_append, toList_suffix, toList_suffix, ← List.cons_append,
    ← List.cons_append, ← List.append_assoc, ← List.append_assoc] at hlist
  obtain ⟨hfront, hlang⟩ := concat_point_inj (not_point_of_mem_lang h) (not_point_of_mem_lang h') hlist
  obtain ⟨htext, hstem⟩ := concat_point_inj slot.not_point_of_mem_stem slot'.not_point_of_mem_stem hfront
  obtain rfl : lang = lang' := String.toList_injective hlang
  exact ⟨String.toList_injective htext, eq_of_stem (String.toList_injective hstem) h h', rfl⟩

/-- No suffix can make a step of what it is put behind. -/
theorem exists_not_step {slot : Slot} {lang : String} (h : slot.Takes lang) :
    ∃ c ∈ (slot.suffix lang).toList, c.toLower ∉ ['.', '%', '2', 'e'] := by
  rw [toList_suffix]
  cases slot with
  | script => exact ⟨'_', by simp [stem], by decide⟩
  | template => exact ⟨'_', by simp [stem], by decide⟩
  | style index => exact ⟨'_', by simp [stem], by decide⟩
  | inlineStyle => exact ⟨'t', by simp [stem], by decide⟩
  | markup => exact ⟨'t', by simp [stem], by decide⟩
  | data index =>
    refine ⟨'j', ?_, by decide⟩
    simp only [Takes, List.mem_cons, List.not_mem_nil, or_false] at h
    rcases h with rfl | rfl
    · simp
    · simp

/-- **Every suffix is kept as it is written.** -/
theorem append_suffix_text {u : Uri} (hu : u.IsNormal) {slot : Slot} {lang : String} (h : slot.Takes lang) :
    (u.append (slot.suffix lang)).text = u.text ++ slot.suffix lang := by
  refine hu.append_text (fun c hc => ?_) (exists_not_step h)
  rw [toList_suffix, List.mem_cons, List.mem_append, List.mem_cons] at hc
  rcases hc with rfl | hc | rfl | hc
  · decide
  · rcases slot.stem_word c hc with hc | rfl
    · simp [Uri.isPlain, hc]
    · decide
  · decide
  · simp [Uri.isPlain, h.isAlphanum c hc]

end Slot

/-! ## 5. The documents of a build -/

/-- The documents of a build, each with its slot. -/
def Build.slotted (b : Build) : List (Slot × Document) :=
  b.script.toList.map (.script, ·.document) ++ b.template.toList.map (.template, ·.document) ++
    (b.styles.zipIdx.map fun (d, index) => (.style index, d.document)) ++
    b.inlineStyle.toList.map (.inlineStyle, ·.document) ++ b.markup.toList.map (.markup, ·.document) ++
    b.data.map fun d => (.data d.index, d.document)

/-- Every document has a slot. -/
theorem Build.documents_eq_slotted (b : Build) : b.documents = b.slotted.map (·.2) := by
  have hstyles : b.styles.zipIdx.map (fun e => e.1.document) = b.styles.map (·.document) := by
    rw [← Function.comp_def, ← List.map_map, List.zipIdx_map_fst]
  simp [Build.documents, Build.codeDocuments, Build.styleDocuments, Build.slotted, Function.comp_def, hstyles]

/-- The component can be built without a surprise in its addresses: its own address is in normal form, and its
stylesheets are in languages whose names are words. -/
structure PlainFile (uri : Uri) (text : String) : Prop where
  normal : uri.IsNormal
  langs : ∀ block ∈ (Component.split text).styles, block.lang?.all (·.toList.all Char.isAlphanum) = true

instance (uri : Uri) (text : String) : Decidable (PlainFile uri text) :=
  decidable_of_iff (uri.IsNormal ∧ ∀ block ∈ (Component.split text).styles,
    block.lang?.all (·.toList.all Char.isAlphanum) = true) ⟨fun h => ⟨h.1, h.2⟩, fun h => ⟨h.1, h.2⟩⟩

section

variable {uri : Uri} {text : String} {options : BuildOptions}

/-- **No slot is taken twice.** -/
theorem nodup_slots : ((build uri text options).slotted.map (·.1)).Nodup := by
  have hstyles : ((build uri text options).styles.zipIdx.map fun e => Slot.style e.2).Nodup := by
    rw [← Function.comp_def, ← List.map_map, List.zipIdx_map_snd]
    exact List.Nodup.map (fun _ _ h => Slot.style.inj h) (List.nodup_range' ..)
  have hdata : ((build uri text options).data.map fun d => Slot.data d.index).Nodup := by
    have hblocks : (Component.split text).customBlocks.zipIdx.Pairwise fun a b => a.2 ≠ b.2 := by
      rw [← List.pairwise_map, List.zipIdx_map_snd]
      exact List.nodup_range' ..
    refine List.pairwise_map.2 (List.pairwise_filterMap.2 (hblocks.imp ?_))
    intro a b hne x hx y hy heq
    rw [(ofBlock?_eq_some hx).1, (ofBlock?_eq_some hy).1] at heq
    exact hne (Slot.data.inj heq)
  have hone : ∀ {α : Type} (o : Option α) (slot : Slot), (o.toList.map fun _ => slot).Nodup := by
    intro α o slot
    cases o with
    | none => exact List.nodup_nil
    | some x => exact List.nodup_singleton slot
  -- the families are apart, since their slots are
  simp only [Build.slotted, List.map_append, List.map_map, Function.comp_def, List.nodup_append, hone, hstyles,
    hdata, List.mem_append, List.mem_map]
  grind

/-- The language of the program is one of four. -/
theorem lang_mem (input : ScriptInput) : input.lang ∈ ["js", "jsx", "ts", "tsx"] := by
  unfold ScriptInput.lang
  dsimp only
  split
  next h => exact List.contains_iff_mem.1 h
  next => exact List.mem_cons_self

theorem style_of_mem {d : StyleDocument} {index : Nat} (h : (d, index) ∈ (build uri text options).styles.zipIdx) :
    ∃ block ∈ (Component.split text).styles, d = .ofBlock uri index block := by
  have hget := List.mem_zipIdx_iff_getElem?.1 h
  simp only [build, List.getElem?_map, List.getElem?_zipIdx, Option.map_map] at hget
  obtain ⟨block, hblock, rfl⟩ := Option.map_eq_some_iff.1 hget
  exact ⟨block, List.mem_of_getElem? hblock, by simp⟩

/-- **What is written in a slot** has the suffix of the slot, in a language that the slot takes. -/
theorem uri_of_mem_slotted (h : PlainFile uri text) {slot : Slot} {d : Document}
    (hd : (slot, d) ∈ (build uri text options).slotted) :
    ∃ lang, slot.Takes lang ∧ d.uri = uri.append (slot.suffix lang) ∧ d.languageId = slot.languageId lang := by
  simp only [Build.slotted, List.mem_append, List.mem_map, Option.mem_toList, Prod.mk.injEq, Prod.exists] at hd
  rcases hd with ((((⟨c, hc, rfl, rfl⟩ | ⟨c, hc, rfl, rfl⟩) | ⟨c, index, hc, rfl, rfl⟩) | ⟨c, hc, rfl, rfl⟩) |
    ⟨c, hc, rfl, rfl⟩) | ⟨c, hc, rfl, rfl⟩
  · rw [build_script_eq uri text options hc]
    exact ⟨_, lang_mem _, rfl, rfl⟩
  · obtain ⟨input, rfl, -⟩ := build_template uri text options hc
    exact ⟨"ts", rfl, rfl, rfl⟩
  · obtain ⟨block, hblock, rfl⟩ := style_of_mem hc
    have htakes : (Slot.style index).Takes (block.lang?.getD "css") := by
      cases hlang : block.lang? with
      | none =>
        show ∀ c ∈ "css".toList, c.isAlphanum = true
        exact List.all_eq_true.1 (by decide)
      | some lang =>
        have hall := h.langs block hblock
        rw [hlang] at hall
        exact List.all_eq_true.1 hall
    have hstem : "." ++ "__VLS_style_" ++ toString index = "." ++ (Slot.style index).stem :=
      String.append_assoc
    refine ⟨_, htakes, ?_, rfl⟩
    rw [Slot.suffix, ← hstem]
    rfl
  · obtain ⟨input, -, rfl⟩ := Option.map_eq_some_iff.1 hc
    exact ⟨"css", rfl, rfl, rfl⟩
  · obtain ⟨block, -, rfl⟩ := build_markup uri text options hc
    exact ⟨"html", rfl, rfl, rfl⟩
  · obtain ⟨block, -, hblock⟩ := build_data uri text options hc
    obtain ⟨lang, hlang, hc⟩ := Option.map_eq_some_iff.1 hblock
    have hjson := (Option.filter_eq_some_iff.1 hlang).2
    exact ⟨lang, by simpa [Slot.Takes] using hjson, congrArg (fun x => x.document.uri) hc.symm,
      congrArg (fun x => x.document.languageId) hc.symm⟩

/-- **The address of a document tells the component and the slot**, and so the language. -/
theorem slotted_injective {other : Uri} {text' : String} {options' : BuildOptions} (h : PlainFile uri text)
    (h' : PlainFile other text') {slot slot' : Slot} {d d' : Document}
    (hd : (slot, d) ∈ (build uri text options).slotted) (hd' : (slot', d') ∈ (build other text' options').slotted)
    (heq : d.uri = d'.uri) : uri = other ∧ slot = slot' ∧ d.languageId = d'.languageId := by
  obtain ⟨lang, htakes, huri, hlang⟩ := uri_of_mem_slotted h hd
  obtain ⟨lang', htakes', huri', hlang'⟩ := uri_of_mem_slotted h' hd'
  have htext := congrArg Uri.text heq
  rw [huri, huri', Slot.append_suffix_text h.normal htakes, Slot.append_suffix_text h'.normal htakes'] at htext
  obtain ⟨hbase, rfl, rfl⟩ := Slot.append_suffix_inj htakes htakes' htext
  refine ⟨?_, rfl, by rw [hlang, hlang']⟩
  cases uri
  cases other
  exact congrArg Uri.mk hbase

/-! ## 6. Looking documents up -/

/-- No two documents of a build have one address. -/
theorem nodup_uris (h : PlainFile uri text) : ((build uri text options).documents.map (·.uri)).Nodup := by
  have hslots := List.pairwise_map.1 (@nodup_slots uri text options)
  rw [Build.documents_eq_slotted, List.map_map]
  refine List.pairwise_map.2 (hslots.imp_of_mem ?_)
  intro a b ha hb hne heq
  exact hne (slotted_injective h h ha hb heq).2.1

/-- Where no two entries have one key, looking a key up finds the entry that has it. -/
theorem find?_eq_some_iff_of_nodup {α β : Type} [BEq β] [LawfulBEq β] {key : α → β} {entries : List α}
    (h : (entries.map key).Nodup) {k : β} {x : α} :
    entries.find? (key · == k) = some x ↔ x ∈ entries ∧ key x = k := by
  constructor
  · intro hfind
    have hkey := List.find?_some (p := (key · == k)) hfind
    exact ⟨List.mem_of_find?_eq_some hfind, beq_iff_eq.1 hkey⟩
  · rintro ⟨hx, rfl⟩
    have hsome : (entries.find? (key · == key x)).isSome = true := by
      rw [List.find?_isSome]
      exact ⟨x, hx, beq_self_eq_true (key x)⟩
    obtain ⟨y, hfind⟩ := Option.isSome_iff_exists.1 hsome
    have hkey := List.find?_some (p := (key · == key x)) hfind
    rw [hfind, List.inj_on_of_nodup_map h (List.mem_of_find?_eq_some hfind) hx (beq_iff_eq.1 hkey)]

/-- **A build finds each of its documents by its address**, and finds nothing else. -/
theorem lookups (h : PlainFile uri text) (u : Uri) :
    (∀ d, (build uri text options).codeDocument? u = some d ↔
      d ∈ (build uri text options).codeDocuments ∧ d.document.uri = u) ∧
    (∀ d, (build uri text options).styleDocument? u = some d ↔
      d ∈ (build uri text options).styleDocuments ∧ d.document.uri = u) ∧
    (∀ d, (build uri text options).dataDocument? u = some d ↔
      d ∈ (build uri text options).data ∧ d.document.uri = u) := by
  have hall := @nodup_uris uri text options h
  simp only [Build.documents, List.map_append, List.map_map, List.nodup_append] at hall
  obtain ⟨⟨⟨hcode, hstyle, -⟩, -⟩, hdata, -⟩ := hall
  exact ⟨fun _ => find?_eq_some_iff_of_nodup hcode, fun _ => find?_eq_some_iff_of_nodup hstyle,
    fun _ => find?_eq_some_iff_of_nodup hdata⟩

end

end ComponentLens.Virtual
