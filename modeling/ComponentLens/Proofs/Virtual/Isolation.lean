/-
# A logic block adds what it adds, and nothing else

A build exists for every text, and a logic block that cannot be read takes nothing from it but its own part:
the stylesheets, the data, the inline styles and the copy of the template are the same whatever stands in the
logic blocks, and so are the faults of the template and of the structure of the file (`build_isolated`).

The split is what could be misled, by a comment, a tag or a quote in a logic block.  It is not: two texts
that differ in logic contents only are split alike (`Component.split_alike`).  What is built from the blocks
then uses no logic block, except for the names that the template document sees.
-/
import ComponentLens.Proofs.Component.LogicContents
import ComponentLens.Proofs.Virtual.Provenance

namespace ComponentLens

namespace Virtual

/-! ## 1. Faults -/

/-- The fault is one of the template, or of the structure of the file. -/
def BlockFault.isOutsideLogic (f : BlockFault) : Bool := f.region == none || f.region == some .template

/-- A block that is analyzed is reported under its own region only. -/
theorem region_of_mem_analyzed {α : Type} {region : Region} {analyze : String → Except Fault α}
    {block : Option Block} {f : BlockFault} (h : f ∈ (analyzed region analyze block).2) :
    f.region = some region := by
  unfold analyzed at h
  split at h
  · cases h
  · split at h
    · cases h
    · rw [List.mem_singleton.1 h]

/-- Analysis of a logic block adds no fault outside of it. -/
theorem analyzed_outsideLogic {α : Type} {region : Region} (hregion : region ≠ .template)
    (analyze : String → Except Fault α) (block : Option Block) :
    (analyzed region analyze block).2.filter BlockFault.isOutsideLogic = [] := by
  refine List.filter_eq_nil_iff.2 fun f hf => ?_
  simp [BlockFault.isOutsideLogic, region_of_mem_analyzed hf, hregion]

/-! ## 2. Builds -/

section

variable (uri : Uri) (text : String) (options : BuildOptions)

/-- The template of a component, if it is written in markup. -/
def markupBlock (c : Component) : Option Block := c.template.filter fun block => block.lang?.all (· == "html")

theorem build_markup_eq :
    (build uri text options).markup = (markupBlock (Component.split text)).map (markupDocument uri) := by
  rw [markupBlock]
  unfold build
  dsimp only
  rw [Option.map_map, Option.map_map]
  rfl

/-- The names and the stylesheets that a template sees do not count for its inline styles. -/
theorem build_inlineStyle_eq :
    (build uri text options).inlineStyle = (markupBlock (Component.split text)).map fun block =>
      inlineStyleDocument uri ⟨block, (Markup.parse block.content).nodes, {}, [], false⟩ := by
  rw [markupBlock]
  unfold build
  dsimp only
  rw [Option.map_map, Option.map_map]
  rfl

theorem build_faults_outsideLogic :
    (build uri text options).faults.filter BlockFault.isOutsideLogic =
      (((Component.split text).faults.map (BlockFault.mk none)) ++
        ((markupBlock (Component.split text)).map fun block => (Markup.parse block.content).faults.map fun fault =>
          BlockFault.mk (some .template) (fault.shift block.span.start)).getD []).filter
            BlockFault.isOutsideLogic := by
  rw [markupBlock]
  unfold build
  dsimp only
  rw [List.filter_append, List.filter_append, List.filter_append, analyzed_outsideLogic (by decide),
    analyzed_outsideLogic (by decide), List.append_nil, List.append_nil, List.filter_append, Option.map_map]
  rfl

end

/-- **A logic block adds what it adds, and nothing else.**  Of two texts that agree except in the contents of
logic blocks of both, whether these can be analyzed or not, everything is built alike that does not come from a
logic block: the stylesheets, the data, the inline styles and the copy of the template, and the faults of the
template and of the structure of the file.

A content never holds a closing tag of its block, so nothing else is asked of the contents.  They are the contents
of both texts: with the value of `<a b="<script>x</script>` closed by a quote in the place of `x`, there is no logic
block left. -/
theorem build_isolated (uri : Uri) (options : BuildOptions) {a b : String} (h : AgreeButLogic 0 a.toList b.toList) :
    (build uri a options).styles = (build uri b options).styles ∧
      (build uri a options).data = (build uri b options).data ∧
      (build uri a options).inlineStyle = (build uri b options).inlineStyle ∧
      (build uri a options).markup = (build uri b options).markup ∧
      (build uri a options).faults.filter BlockFault.isOutsideLogic =
        (build uri b options).faults.filter BlockFault.isOutsideLogic := by
  have hsplit := Component.split_alike h
  have hmarkup : markupBlock (Component.split a) = markupBlock (Component.split b) := by
    rw [markupBlock, hsplit.template]
    rfl
  refine ⟨?_, ?_, ?_, ?_, ?_⟩
  · unfold build
    dsimp only
    rw [hsplit.styles]
  · unfold build
    dsimp only
    rw [hsplit.customBlocks]
  · rw [build_inlineStyle_eq, build_inlineStyle_eq, hmarkup]
  · rw [build_markup_eq, build_markup_eq, hmarkup]
  · rw [build_faults_outsideLogic, build_faults_outsideLogic, hsplit.faults, hmarkup]

/-- What stands in front of the content of the setup block in `aroundSetup`. -/
def beforeSetup : String := "<template><p style=\"top:0\"></template><script setup>"

/-- A component around a setup block, with something of everything that a build is made of. -/
def aroundSetup (content : String) : String :=
  beforeSetup ++
    (content ++ "</script><style>.a\x7b\x7d</style><i18n lang=\"json\">\x7b\x7d</i18n><docs>")

/-- A whole setup block. -/
def wholeSetup : String := aroundSetup "let n = [1, 2, 3]"

/-- A setup block whose string is never closed, and holds the start of a comment, a tag and a quote. -/
def brokenSetup : String := aroundSetup "let n = '<!--<p>\""

/-- The content of the setup block stands at the same place, whichever it is. -/
theorem aroundSetup_agree {erased : Nat → Prop} {content content' : String}
    (hsize : byteLength content.toList = byteLength content'.toList)
    (herased : ∀ i, i < byteLength content.toList → erased (52 + i)) :
    AgreeOutside erased 0 (aroundSetup content).toList (aroundSetup content').toList := by
  simp only [aroundSetup, String.toList_append]
  have hbefore : byteLength beforeSetup.toList = 52 := by decide
  refine AgreeOutside.append (.refl _) (AgreeOutside.append (.of_erased hsize ?_) (.refl _))
  rwa [Nat.zero_add, hbefore]

/-- The theorem at a setup block that is broken. -/
theorem build_isolated_brokenSetup :
    AgreeButLogic 0 wholeSetup.toList brokenSetup.toList ∧
      (build ⟨"file:///A.vue"⟩ wholeSetup {}).script.isSome ∧
      (build ⟨"file:///A.vue"⟩ brokenSetup {}).faults.map (·.region) =
        [none, some .scriptSetup, some .template] ∧
      (build ⟨"file:///A.vue"⟩ wholeSetup {}).styles = (build ⟨"file:///A.vue"⟩ brokenSetup {}).styles ∧
      (build ⟨"file:///A.vue"⟩ wholeSetup {}).data = (build ⟨"file:///A.vue"⟩ brokenSetup {}).data ∧
      (build ⟨"file:///A.vue"⟩ wholeSetup {}).inlineStyle =
        (build ⟨"file:///A.vue"⟩ brokenSetup {}).inlineStyle ∧
      (build ⟨"file:///A.vue"⟩ wholeSetup {}).markup = (build ⟨"file:///A.vue"⟩ brokenSetup {}).markup ∧
      (build ⟨"file:///A.vue"⟩ wholeSetup {}).faults.filter BlockFault.isOutsideLogic =
        (build ⟨"file:///A.vue"⟩ brokenSetup {}).faults.filter BlockFault.isOutsideLogic := by
  have hread : (writtenBlocks 0 wholeSetup.toList).any (·.isLogicAt ⟨52, 69⟩) ∧
      (writtenBlocks 0 brokenSetup.toList).any (·.isLogicAt ⟨52, 69⟩) ∧
      (build ⟨"file:///A.vue"⟩ wholeSetup {}).script.isSome ∧
      (build ⟨"file:///A.vue"⟩ brokenSetup {}).faults.map (·.region) =
        [none, some .scriptSetup, some .template] := by decide +kernel
  obtain ⟨hwhole, hbroken, hscript, hregions⟩ := hread
  have hagree : AgreeButLogic 0 wholeSetup.toList brokenSetup.toList :=
    aroundSetup_agree (by decide) fun i hi =>
      have hin : InSpan ⟨52, 69⟩ (52 + i) := ⟨Nat.le_add_right _ _, Nat.add_lt_add_left hi _⟩
      ⟨InLogic.of_isLogicAt hwhole hin, InLogic.of_isLogicAt hbroken hin⟩
  exact ⟨hagree, hscript, hregions, build_isolated _ _ hagree⟩

end Virtual

end ComponentLens
