/-
# The script document copies its blocks

A rename goes out from a place of a logic block and comes back to places of it, so a mapping that serves
renames must lead to a copy.  The script document blanks statements in its copies: what the document holds
at the target of such a mapping agrees with what its source holds, byte by byte, except where a statement is
blanked (`ShowsPart`).

The mappings that count are those of `copyOf` and of the two copies of the script block.  What is copied is
a span of the facts about the block, and the facts cut no character, so the copy reads what the source
reads.  A span may also be inverted, as between nested labels; then both sides are empty.
-/
import ComponentLens.Proofs.Mapping.Shows
import ComponentLens.Proofs.Virtual.Blanking
import ComponentLens.Proofs.Virtual.ScriptPieces

namespace ComponentLens.Virtual

open Script

/-! ## 1. Copies -/

/-- Whether a mapping serves renames in a logic block. -/
def ServesRename (data : CodeData) (_mode : MatchMode) : Prop :=
  data.region.isScript = true ∧ data.capabilities.has .rename = true

/-- The characters shown are those that the text holds at the span, but for erased offsets.  An inverted span
shows nothing. -/
def ShowsPart (erased : Nat → Prop) (text : List Char) (s : Span) (shown : List Char) : Prop :=
  (s.stop < s.start ∧ shown = []) ∨
    ∃ written, s.Reads text written ∧ AgreeOutside erased s.start written shown

/-- What stands in a block stands in the file that the block stands in. -/
theorem ShowsPart.shift {erased more : Nat → Prop} {content file : List Char} {place s : Span}
    {shown : List Char} (h : ShowsPart erased content s shown) (hplace : place.Reads file content)
    (hmore : ∀ n, erased n → more (n + place.start)) :
    ShowsPart more file (s.shift place.start) shown := by
  rcases h with ⟨hinverted, hshown⟩ | ⟨written, hreads, hagree⟩
  · exact .inl ⟨by simp only [Span.shift]; omega, hshown⟩
  · exact .inr ⟨written, hreads.trans hplace, hagree.shift place.start hmore⟩

/-- The linked text copies what it maps for renames. -/
def Faithful (erased : Nat → Prop) (content : List Char) (t : LinkedText) : Prop :=
  t.Shows ServesRename (ShowsPart erased content)

section

variable {erased : Nat → Prop} {content : List Char}

@[simp] theorem faithful_plain (text : String) : Faithful erased content (.plain text) :=
  LinkedText.shows_plain text

/-- A mapping that serves no renames may show anything. -/
theorem faithful_mapped {code : String} {s : Span} {mode : MatchMode} {data : CodeData}
    (h : data.capabilities.has .rename = false) : Faithful erased content (.mapped code s mode data) :=
  LinkedText.shows_mapped fun hserves => absurd (hserves.2.symm.trans h) (by decide)

/-- **A part of a blanked text, copied.**  It agrees with the same part of the text. -/
theorem faithful_slice {text : String} (hblanked : BlankedTo erased content text.toList) {s : Span}
    (hs : s.EndsAt (IsBoundary content)) (mode : MatchMode) (data : CodeData) :
    Faithful erased content (.mapped (s.slice text) s mode data) := by
  refine LinkedText.shows_mapped fun _ => ?_
  by_cases hle : s.start ≤ s.stop
  · obtain ⟨written, hwritten⟩ := Span.exists_reads hs.1 hs.2 hle
    obtain ⟨shown, hshown, hagree⟩ := hblanked.reads hwritten
    rw [hshown.slice, String.toList_ofList]
    exact .inr ⟨written, hwritten, hagree⟩
  · exact .inl ⟨by omega, by simp [Span.slice, Span.cut?, hle]⟩

theorem faithful_copyOf {text : String} (hblanked : BlankedTo erased content text.toList) {s : Span}
    (hs : s.EndsAt (IsBoundary content)) (capabilities : Capabilities) :
    Faithful erased content (copyOf text s capabilities) := faithful_slice hblanked hs _ _

/-! ## 2. The script block -/

/-- The blanked default export of a block. -/
def InDefaultExport (facts : ScriptFacts) (n : Nat) : Prop := ∃ e ∈ facts.exportDefault, InSpan e.span n

/-- The file that a block takes its content from is no code of the component. -/
theorem shows_sourceExport (block : Block) (rel : Span → List Char → Prop) :
    (sourceExport block).Shows ServesRename rel := by
  unfold sourceExport
  split
  next src quoted _ _ =>
    refine LinkedText.shows_closed.concat _ ?_
    have hmapped : (LinkedText.mapped ("'" ++ src ++ "'") quoted .offset
        { region := .scriptSource, capabilities := .script }).Shows ServesRename rel :=
      LinkedText.shows_mapped fun hserves => absurd hserves.1 (by decide)
    simpa using hmapped
  · exact LinkedText.shows_closed.toJoined.empty

/-- The script block is copied as it is, or with its default export blanked. -/
theorem faithful_scriptCopy (block : Block) (facts : ScriptFacts) (hasSetup : Bool) :
    Faithful (fun n => hasSetup = true ∧ InDefaultExport facts n) block.content.toList
      (scriptCopy block facts hasSetup) := by
  have hcopy : ∀ text : String,
      BlankedTo (fun n => hasSetup = true ∧ InDefaultExport facts n) block.content.toList text.toList →
      ShowsPart (fun n => hasSetup = true ∧ InDefaultExport facts n) block.content.toList
        ⟨0, text.utf8ByteSize⟩ text.toList := by
    intro text h
    have hsize : text.utf8ByteSize = block.content.utf8ByteSize := by
      rw [← byteLength_toList, ← byteLength_toList, h.agree.1]
    rw [hsize]
    exact .inr ⟨_, MappedText.reads_size block.content, h.agree⟩
  refine LinkedText.shows_mapped fun _ => hcopy _ ?_
  split
  next e he =>
    have hblank := blankedTo_blankSpan block.content e.span
    exact ⟨hblank.agree.mono fun n hn => ⟨rfl, e, he, hn⟩, hblank.isBoundary⟩
  · exact .refl _

theorem faithful_scriptOptions (block : Block) {facts : ScriptFacts}
    (hfacts : ∀ s ∈ facts.spans, s.EndsAt (IsBoundary block.content.toList)) :
    Faithful erased block.content.toList (scriptOptions block facts) := by
  unfold scriptOptions
  split
  next s hs =>
    obtain ⟨e, he, hs⟩ := Option.bind_eq_some_iff.1 hs
    refine faithful_slice (.refl _) (hfacts s ?_) _ _
    simp [ScriptFacts.spans, he, hs]
  · exact faithful_plain _

/-! ## 3. The setup block -/

/-- The imports of a block. -/
def InImport (facts : SetupFacts) (n : Nat) : Prop := ∃ s ∈ facts.imports, InSpan s n

theorem mem_of_mem_keptImports {pos : Nat} {spans : List Span} {s : Span}
    (h : s ∈ keptImports pos spans) : s ∈ spans := by
  induction spans generalizing pos with
  | nil => simp [keptImports] at h
  | cons span rest ih =>
    rw [keptImports] at h
    split at h
    · exact List.mem_cons_of_mem _ (ih h)
    · rcases List.mem_cons.1 h with rfl | h
      · exact List.mem_cons_self
      · exact List.mem_cons_of_mem _ (ih h)

/-- The body that is copied into the function is the block with its imports blanked. -/
theorem blankedTo_withoutImports (content : String) (facts : SetupFacts) :
    BlankedTo (InImport facts) content.toList (withoutImports content facts).toList :=
  blankedTo_foldl _ content fun s hs _ hn =>
    ⟨s, mem_sortedImports.1 (mem_of_mem_keptImports hs), hn⟩

/-- The body is as long as the block. -/
theorem isBoundary_withoutImports (content : String) (facts : SetupFacts) :
    IsBoundary content.toList (withoutImports content facts).utf8ByteSize := by
  have hagree := (blankedTo_withoutImports content facts).agree.1
  rw [byteLength_toList, byteLength_toList] at hagree
  rw [← hagree]
  exact isBoundary_utf8ByteSize content

/-- Parts of the block, and parts of a text that is the block blanked, are copies. -/
theorem faithful_closed {content body : String} (hbody : BlankedTo erased content.toList body.toList) :
    SetupClosed content body (Faithful erased content.toList) where
  toClosed := LinkedText.shows_closed
  side := fun _ _ _ _ _ h _ => faithful_mapped h
  copy := fun _ capabilities hs => faithful_copyOf (.refl _) hs capabilities
  bodyCopy := fun _ capabilities hs => faithful_copyOf hbody hs capabilities

theorem faithful_setupOptions {content : String} {facts : SetupFacts}
    (h : ∀ s ∈ facts.spans, s.EndsAt (IsBoundary content.toList)) :
    Faithful erased content.toList (setupOptions content facts) :=
  SetupJoined.setupOptions (faithful_closed (.refl content.toList)).toPiecesJoined h

/-- **The setup block.**  Its copies agree with the block but for the imports. -/
theorem faithful_setupProgram (block : Block) {facts : SetupFacts}
    (h : ∀ s ∈ facts.spans, s.EndsAt (IsBoundary block.content.toList)) :
    Faithful (InImport facts) block.content.toList (setupProgram block facts) :=
  (faithful_closed (blankedTo_withoutImports block.content facts)).setupProgram
    (isBoundary_withoutImports block.content facts) h

end

/-! ## 4. The document -/

/-- The blocks of the input stand in the file, and their facts are about them. -/
structure ScriptInput.FromFile (input : ScriptInput) (file : List Char) : Prop where
  script : ∀ block facts, input.script = some (block, facts) →
    block.span.Reads file block.content.toList ∧ analyzeScript block.content = .ok facts
  setup : ∀ block facts, input.setup = some (block, facts) →
    block.span.Reads file block.content.toList ∧ analyzeSetup block.content = .ok facts

/-- The offset of the file lies in an import of the setup block. -/
def ScriptInput.InImport (input : ScriptInput) (n : Nat) : Prop :=
  ∃ block facts, input.setup = some (block, facts) ∧
    ∃ s ∈ facts.imports, InSpan (s.shift block.span.start) n

/-- The offset of the file lies in the default export of the script block, which is blanked when there is a
setup block. -/
def ScriptInput.InDefaultExport (input : ScriptInput) (n : Nat) : Prop :=
  input.setup.isSome = true ∧ ∃ block facts, input.script = some (block, facts) ∧
    ∃ e ∈ facts.exportDefault, InSpan (e.span.shift block.span.start) n

theorem InSpan.shift {s : Span} {n : Nat} (h : InSpan s n) (base : Nat) :
    InSpan (s.shift base) (n + base) := by
  simp only [InSpan, Span.shift] at *
  omega

/-- What copies a block copies the file, at the place of the block. -/
theorem shows_inBlock {erased more : Nat → Prop} {file : List Char} {t : LinkedText} {block : Block}
    (hblock : block.span.Reads file block.content.toList) (ht : Faithful erased block.content.toList t)
    (hmore : ∀ n, erased n → more (n + block.span.start)) :
    (LinkedText.inBlock t block).Shows ServesRename (ShowsPart more file) :=
  MappedText.Shows.shiftSource ht fun _ _ h => h.shift hblock hmore

/-- **The script document copies its blocks.** -/
theorem scriptProgram_shows {input : ScriptInput} {file : List Char} (hinput : input.FromFile file) :
    (scriptProgram input).Shows ServesRename
      (ShowsPart (fun n => input.InImport n ∨ input.InDefaultExport n) file) := by
  refine scriptProgram_joined LinkedText.shows_closed.toJoined ?_ ?_
  · intro block facts hscript
    obtain ⟨hblock, hfacts⟩ := hinput.script block facts hscript
    have hoptions : Faithful (fun _ => False) block.content.toList _ :=
      faithful_scriptOptions block (analyzeScript_endsAt hfacts)
    refine ⟨shows_sourceExport block _, ?_, shows_inBlock hblock hoptions fun n hn => absurd hn id⟩
    refine shows_inBlock hblock (faithful_scriptCopy block facts input.setup.isSome) ?_
    rintro n ⟨hsetup, e, he, hn⟩
    exact .inr ⟨hsetup, block, facts, hscript, e, he, hn.shift _⟩
  · intro block facts hsetup
    obtain ⟨hblock, hfacts⟩ := hinput.setup block facts hsetup
    have hoptions : Faithful (fun _ => False) block.content.toList _ :=
      faithful_setupOptions (analyzeSetup_endsAt hfacts)
    refine ⟨?_, shows_inBlock hblock hoptions fun n hn => absurd hn id⟩
    refine shows_inBlock hblock (faithful_setupProgram block (analyzeSetup_endsAt hfacts)) ?_
    rintro n ⟨s, hs, hn⟩
    exact .inl ⟨block, facts, hsetup, s, hs, hn.shift _⟩

end ComponentLens.Virtual
