/-
# Splitting a component file

`Component.split` finds the blocks of a file: the tags outside of comments and of other blocks. A block
ends at the first closing tag of its name; a template may hold templates, so there the tags are counted.
-/
import ComponentLens.Component.Tag

namespace ComponentLens

/-! ## 1. The end of a block -/

/-- Whether the name of a tag stands in front and ends there. -/
def isTagAt (tag cs : List Char) : Bool :=
  startsWithWord tag cs &&
    (cs.drop tag.length).head?.all fun c => isTagSpace c || c == '>' || c == '/'

/-- The content of a block, the closing tag, and what follows. -/
structure BodyReading where
  content : List Char
  closing : List Char
  rest : List Char
  isClosed : Bool

/-- The reading with more content in front. -/
def BodyReading.prepend (before : List Char) (r : BodyReading) : BodyReading :=
  { r with content := before ++ r.content }

/-- Reads up to the closing tag of the given name. Where blocks of that name nest, `depth` counts the inner
ones that are open. -/
def readBody (nests : Bool) (tag : List Char) (depth : Nat) : List Char → BodyReading
  | [] => ⟨[], [], [], false⟩
  | c :: cs =>
    if c == '<' && cs.head? == some '/' && isTagAt tag cs.tail then
      let name := cs.take (tag.length + 1)
      let close := cutAfter '>' (cs.drop (tag.length + 1))
      have := length_cutAfter_snd_le '>' (cs.drop (tag.length + 1))
      match depth with
      | 0 => ⟨[], c :: (name ++ close.1), close.2, true⟩
      | depth + 1 => (readBody nests tag depth close.2).prepend (c :: (name ++ close.1))
    else if nests && c == '<' && isTagAt tag cs then
      let name := cs.take tag.length
      let after := cs.drop tag.length
      let head := after.takeWhile (· != '>')
      have := (List.dropWhile_sublist (l := after) (· != '>')).length_le
      let inner := if (name ++ head).getLast? == some '/' then depth else depth + 1
      (readBody nests tag inner (after.dropWhile (· != '>'))).prepend (c :: (name ++ head))
    else (readBody nests tag depth cs).prepend [c]
termination_by cs => cs.length
decreasing_by all_goals simp_all +zetaDelta <;> omega

/-- The three parts make up the text. -/
theorem readBody_append (nests : Bool) (tag : List Char) (depth : Nat) (cs : List Char) :
    (readBody nests tag depth cs).content ++
      ((readBody nests tag depth cs).closing ++ (readBody nests tag depth cs).rest) = cs := by
  fun_induction readBody nests tag depth cs with
  | case1 => rfl
  | case2 c cs h name close =>
    simp [name, close, cutAfter_append]
  | case3 c cs h name close _ depth _ ih =>
    simp only [BodyReading.prepend, List.append_assoc, List.cons_append, ih]
    simp [name, close, cutAfter_append]
  | case4 depth c cs _ h name after head _ inner ih =>
    simp only [BodyReading.prepend, List.append_assoc, List.cons_append, ih]
    simp [name, head, after]
  | case5 depth c cs _ _ ih => simp [BodyReading.prepend, ih]

/-! ## 2. One block -/

/-- A block as it stands in the file: the name of its tag and how its content ends. -/
structure WrittenBlock where
  block : Block
  /-- The name in the opening tag. -/
  tagSpan : Span
  isClosed : Bool

/-- The block with the given name whose attributes are read, and whose content starts at offset `start`
with the given text. The second part is the offset behind the block, and the third the text from there. -/
def WrittenBlock.ofHead (pos : Nat) (name : List Char) (head : HeadReading) (start : Nat)
    (cs : List Char) : WrittenBlock × Nat × List Char :=
  let tag := String.ofList (name.map Char.toLower)
  let tagSpan : Span := ⟨pos, pos + name.length⟩
  if head.passed.getLast? == some '/' then
    (⟨⟨tag, "", .empty start, head.attrs⟩, tagSpan, true⟩, start, cs)
  else
    let body := readBody (tag == "template") name 0 cs
    let stop := start + byteLength body.content
    (⟨⟨tag, String.ofList body.content, ⟨start, stop⟩, head.attrs⟩, tagSpan, body.isClosed⟩,
      stop + byteLength body.closing, body.rest)

theorem WrittenBlock.ofHead_length_le (pos : Nat) (name : List Char) (head : HeadReading) (start : Nat)
    (cs : List Char) : (WrittenBlock.ofHead pos name head start cs).2.2.length ≤ cs.length := by
  simp only [WrittenBlock.ofHead]
  split
  · exact Nat.le_refl _
  · have h := congrArg List.length
      (readBody_append (String.ofList (name.map Char.toLower) == "template") name 0 cs)
    simp only [List.length_append] at h
    simp only
    omega

/-- Reads the block behind a `<`, from offset `pos` on. There is none if no name follows or if the tag is
never closed. -/
def WrittenBlock.read? (pos : Nat) (cs : List Char) : Option (WrittenBlock × Nat × List Char) :=
  let name := cs.takeWhile isTagNamePart
  let head := readHead (pos + name.length) (cs.dropWhile isTagNamePart)
  match head.rest with
  | [] => none
  | _ :: rest =>
    if name.head?.any Char.isAlpha then
      some (WrittenBlock.ofHead pos name head (pos + name.length + byteLength head.passed + 1) rest)
    else none

theorem WrittenBlock.read?_length_lt {pos stop : Nat} {cs rest : List Char} {b : WrittenBlock}
    (h : WrittenBlock.read? pos cs = some (b, stop, rest)) : rest.length < cs.length := by
  have hname := congrArg List.length (List.takeWhile_append_dropWhile (p := isTagNamePart) (l := cs))
  have hhead := congrArg List.length
    (readHead_append (pos + (cs.takeWhile isTagNamePart).length) (cs.dropWhile isTagNamePart))
  simp only [List.length_append] at hname hhead
  simp only [WrittenBlock.read?] at h
  split at h
  · simp at h
  next c after hr =>
    rw [hr, List.length_cons] at hhead
    split at h
    · have hle := WrittenBlock.ofHead_length_le pos (cs.takeWhile isTagNamePart)
        (readHead (pos + (cs.takeWhile isTagNamePart).length) (cs.dropWhile isTagNamePart))
        (pos + (cs.takeWhile isTagNamePart).length +
          byteLength (readHead (pos + (cs.takeWhile isTagNamePart).length)
            (cs.dropWhile isTagNamePart)).passed + 1) after
      rw [Option.some.inj h] at hle
      simp only at hle
      omega
    · simp at h

/-! ## 3. All blocks -/

/-- The blocks of the text from offset `pos` on. -/
def writtenBlocks (pos : Nat) : List Char → List WrittenBlock
  | [] => []
  | c :: cs =>
    if c == '<' then
      if "!--".toList.isPrefixOf cs then
        let body := cs.drop 3
        let comment := (breakOn "-->".toList body).1
        have := congrArg List.length (breakOn_append "-->".toList body)
        writtenBlocks (pos + 7 + byteLength comment) ((breakOn "-->".toList body).2.drop 3)
      else
        match h : WrittenBlock.read? (pos + 1) cs with
        | some (block, stop, rest) =>
          have := WrittenBlock.read?_length_lt h
          block :: writtenBlocks stop rest
        | none => writtenBlocks (pos + 1) cs
    else writtenBlocks (pos + c.utf8Size) cs
termination_by cs => cs.length
decreasing_by all_goals simp_all +zetaDelta <;> omega

/-- Puts a block in its place. The first template, the first logic block and the first setup block count;
another one is a fault. -/
def Component.insert (c : Component) (w : WrittenBlock) : Component :=
  let duplicate (block : UniqueBlock) : Component :=
    { c with faults := c.faults ++ [⟨.duplicateBlock block, w.tagSpan⟩] }
  match w.block.tag with
  | "template" =>
    if c.template.isSome then duplicate .template else { c with template := some w.block }
  | "script" =>
    if w.block.isSetup then
      if c.scriptSetup.isSome then duplicate .scriptSetup else { c with scriptSetup := some w.block }
    else if c.script.isSome then duplicate .script else { c with script := some w.block }
  | "style" => { c with styles := c.styles ++ [w.block] }
  | _ => { c with customBlocks := c.customBlocks ++ [w.block] }

/-- Records that a block has no end, if it has none. -/
def Component.noteEnd (c : Component) (w : WrittenBlock) : Component :=
  if w.isClosed then c
  else { c with faults := c.faults ++ [⟨.unclosedBlock w.block.tag, w.tagSpan⟩] }

/-- Splits a component file into its blocks. -/
def Component.split (source : String) : Component :=
  (writtenBlocks 0 source.toList).foldl (fun c w => (c.noteEnd w).insert w) {}

end ComponentLens
