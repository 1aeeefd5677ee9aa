/-
# Documents that copy a block

A stylesheet and a block of data are copied as they are, so their maps are the identity moved to the place
of the block.
-/
import ComponentLens.Component.Block
import ComponentLens.Virtual.Document

namespace ComponentLens.Virtual

/-- The document of the `index`th stylesheet. -/
def StyleDocument.ofBlock (base : Uri) (index : Nat) (block : Block) : StyleDocument :=
  let lang := block.lang?.getD "css"
  { document :=
      ⟨base.append (".__VLS_style_" ++ toString index ++ "." ++ lang), lang, block.content⟩
    map := copyMap block.content block.span.start
    isScoped := block.isScoped
    moduleName := block.moduleName?
    classNames := (Style.classNames block.content).map fun c =>
      { c with span := c.span.shift block.span.start } }

/-- The document of the `index`th block of another tag, if it holds data. -/
def DataDocument.ofBlock? (base : Uri) (index : Nat) (block : Block) : Option DataDocument :=
  (block.lang?.filter fun lang => lang == "json" || lang == "jsonc").map fun lang =>
    { document := ⟨base.append ("." ++ toString index ++ "." ++ lang), lang, block.content⟩
      map := ⟨[copyMapping block.content block.span.start]⟩
      index }

end ComponentLens.Virtual
