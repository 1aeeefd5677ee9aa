/-
# Blocks stand where the split says

Everything that is read off a block is placed relative to the content of the block, and every place is moved
into the file by the start of that content.  This is right only when the content stands in the file at the
span of the block, for every block and every file text: `Component.split_reads`.

Reading a block keeps the offset of what is left (`WrittenBlock.read?_spec`); the scan over the file carries
that along (`writtenBlocks_reads`); and putting the blocks in their places changes none of them
(`Component.insert_blocks`).
-/
import ComponentLens.Component.Split
import ComponentLens.Proofs.Text.Reads

namespace ComponentLens

/-! ## 1. Names of tags -/

/-- A tag name holds ASCII characters only. -/
theorem utf8Size_of_isTagNamePart {c : Char} (h : isTagNamePart c = true) : c.utf8Size = 1 := by
  simp only [isTagNamePart, Bool.or_eq_true, beq_iff_eq] at h
  rcases h with (h | rfl) | rfl
  · exact utf8Size_of_isAlphanum h
  · rfl
  · rfl

/-- A tag name takes as many bytes as it has characters. -/
theorem byteLength_tagName (cs : List Char) :
    byteLength (cs.takeWhile isTagNamePart) = (cs.takeWhile isTagNamePart).length := by
  induction cs with
  | nil => rfl
  | cons c cs ih =>
    rw [List.takeWhile_cons]
    split
    next h => simp [utf8Size_of_isTagNamePart h, ih, Nat.add_comm]
    · rfl

/-! ## 2. One block -/

/-- What a block stands for when its content starts behind `before`: the content is read at its span, and the
text left over stands at the offset that is handed on. -/
theorem WrittenBlock.ofHead_spec (pos : Nat) (name : List Char) (head : HeadReading)
    (before cs : List Char) :
    ∃ passed, before ++ cs = passed ++ (WrittenBlock.ofHead pos name head (byteLength before) cs).2.2 ∧
      byteLength passed = (WrittenBlock.ofHead pos name head (byteLength before) cs).2.1 ∧
      (WrittenBlock.ofHead pos name head (byteLength before) cs).1.block.span.Reads (before ++ cs)
        (WrittenBlock.ofHead pos name head (byteLength before) cs).1.block.content.toList := by
  unfold WrittenBlock.ofHead
  dsimp only
  split
  · exact ⟨before, rfl, rfl, before, cs, by simp, by simp [Span.empty]⟩
  · have hbody := readBody_append (String.ofList (name.map Char.toLower) == "template") name 0 cs
    generalize readBody (String.ofList (name.map Char.toLower) == "template") name 0 cs = body at hbody
    subst hbody
    refine ⟨before ++ (body.content ++ body.closing), by simp, by simp [Nat.add_assoc], ?_⟩
    rw [String.toList_ofList]
    exact Span.reads_append before body.content (body.closing ++ body.rest)

/-- An opening tag is read up to its closing bracket. -/
theorem readHead_rest {pos : Nat} {cs rest : List Char} {c : Char}
    (h : (readHead pos cs).rest = c :: rest) : c = '>' := by
  fun_induction readHead pos cs with
  | case1 => simp at h
  | case2 pos d cs hd =>
    cases h
    simpa using hd
  | case3 pos d cs _ _ name after _ v _ _ more ih => exact ih h
  | case4 pos d cs _ _ name after _ _ more ih => exact ih h
  | case5 pos d cs _ _ more ih => exact ih h

/-- **One block.**  The block that is read behind `before` stands in the text, and so does what is left. -/
theorem WrittenBlock.read?_spec {before cs rest : List Char} {w : WrittenBlock} {stop : Nat}
    (h : WrittenBlock.read? (byteLength before) cs = some (w, stop, rest)) :
    ∃ passed, before ++ cs = passed ++ rest ∧ byteLength passed = stop ∧
      w.block.span.Reads (before ++ cs) w.block.content.toList := by
  have hname := List.takeWhile_append_dropWhile (p := isTagNamePart) (l := cs)
  have hlen := byteLength_tagName cs
  have hhead := readHead_append (byteLength before + (cs.takeWhile isTagNamePart).length)
    (cs.dropWhile isTagNamePart)
  unfold WrittenBlock.read? at h
  dsimp only at h
  split at h
  · simp at h
  next c after hrest =>
    obtain rfl := readHead_rest hrest
    split at h
    next =>
      generalize readHead _ _ = head at h hhead hrest
      generalize cs.takeWhile isTagNamePart = name at h hname hlen
      have hgt : '>'.utf8Size = 1 := rfl
      have hstart : byteLength before + name.length + byteLength head.passed + 1 =
          byteLength (before ++ (name ++ (head.passed ++ ['>']))) := by
        simp [hlen, hgt, Nat.add_assoc]
      have hcs : before ++ cs = before ++ (name ++ (head.passed ++ ['>'])) ++ after := by
        rw [← hname, ← hhead, hrest]
        simp
      have hspec := WrittenBlock.ofHead_spec (byteLength before) name head
        (before ++ (name ++ (head.passed ++ ['>']))) after
      rw [← hstart, Option.some.inj h, ← hcs] at hspec
      exact hspec
    · simp at h

/-! ## 3. All blocks -/

/-- The scan goes on behind a comment at the offset of what is left, if anything is left. -/
theorem comment_passed {cs : List Char} (hopen : "!--".toList.isPrefixOf cs = true) (before : List Char) :
    let comment := breakOn "-->".toList (cs.drop 3)
    comment.2.drop 3 = [] ∨
      ∃ passed, before ++ '<' :: cs = passed ++ comment.2.drop 3 ∧
        byteLength passed = byteLength before + 7 + byteLength comment.1 := by
  intro comment
  obtain ⟨body, rfl⟩ := List.isPrefixOf_iff_prefix.1 hopen
  have happ : comment.1 ++ comment.2 = body := breakOn_append "-->".toList body
  rcases breakOn_snd "-->".toList body with hnil | ⟨after, hafter⟩
  · exact .inl (by rw [show comment.2 = [] from hnil]; rfl)
  · have hafter : comment.2 = "-->".toList ++ after := hafter.symm
    refine .inr ⟨before ++ ("<!--".toList ++ (comment.1 ++ "-->".toList)), ?_, ?_⟩
    · rw [← happ, hafter]
      simp
    · have hopening : byteLength "<!--".toList = 4 := rfl
      have hclosing : byteLength "-->".toList = 3 := rfl
      simp only [byteLength_append, hopening, hclosing]
      omega

/-- Every block of a text stands in it. -/
theorem writtenBlocks_reads (pos : Nat) (cs before : List Char) (hpos : byteLength before = pos) :
    ∀ w ∈ writtenBlocks pos cs, w.block.span.Reads (before ++ cs) w.block.content.toList := by
  fun_induction writtenBlocks pos cs generalizing before with
  | case1 => simp
  | case2 pos c cs hlt hopen body comment _ ih =>
    obtain rfl : c = '<' := by simpa using hlt
    rcases comment_passed hopen before with hnil | ⟨passed, hcs, hlength⟩
    · rw [hnil]
      simp [writtenBlocks]
    · rw [hcs]
      exact ih passed (by rw [hlength, hpos])
  | case3 pos c cs hlt _ w stop rest hread _ ih =>
    obtain rfl : c = '<' := by simpa using hlt
    have hstep : byteLength (before ++ ['<']) = pos + 1 := by
      have hsize : '<'.utf8Size = 1 := rfl
      simp [hsize, hpos]
    rw [← hstep] at hread
    obtain ⟨passed, hcs, hstop, hw⟩ := WrittenBlock.read?_spec hread
    rw [List.append_assoc, List.cons_append, List.nil_append] at hcs hw
    intro w' hmem
    rcases List.mem_cons.1 hmem with rfl | hmem
    · exact hw
    · rw [hcs]
      exact ih passed hstop w' hmem
  | case4 pos c cs hlt _ _ ih =>
    obtain rfl : c = '<' := by simpa using hlt
    have hsize : '<'.utf8Size = 1 := rfl
    simpa using ih (before ++ ['<']) (by simp [hsize, hpos])
  | case5 pos c cs _ ih => simpa using ih (before ++ [c]) (by simp [hpos])

theorem Component.mem_blocks {c : Component} {b : Block} :
    b ∈ c.blocks ↔ c.template = some b ∨ c.script = some b ∨ c.scriptSetup = some b ∨ b ∈ c.styles ∨
      b ∈ c.customBlocks := by
  simp [Component.blocks]

/-- Putting a block in its place adds no other block. -/
theorem Component.insert_blocks {c : Component} {w : WrittenBlock} {b : Block}
    (h : b ∈ (c.insert w).blocks) : b ∈ c.blocks ∨ b = w.block := by
  unfold Component.insert at h
  -- one case for each tag, and in it one for a block of its kind that is there already
  split at h
  · split at h
    · exact .inl h
    · grind [Component.mem_blocks]
  · split at h
    · split at h
      · exact .inl h
      · grind [Component.mem_blocks]
    · split at h
      · exact .inl h
      · grind [Component.mem_blocks]
  · grind [Component.mem_blocks]
  · grind [Component.mem_blocks]

theorem Component.noteEnd_blocks (c : Component) (w : WrittenBlock) : (c.noteEnd w).blocks = c.blocks := by
  unfold Component.noteEnd
  split
  · rfl
  · rfl

/-- Putting a block in its place reports nothing but that a block of its kind is there already. -/
theorem Component.insert_faults (c : Component) (w : WrittenBlock) :
    ∀ f ∈ (c.insert w).faults, f ∈ c.faults ∨ ∃ kind, f = ⟨.duplicateBlock kind, w.tagSpan⟩ := by
  intro f hf
  have hduplicate (kind : UniqueBlock) (h : f ∈ c.faults ++ [⟨.duplicateBlock kind, w.tagSpan⟩]) :
      f ∈ c.faults ∨ ∃ kind, f = ⟨.duplicateBlock kind, w.tagSpan⟩ :=
    (List.mem_append.1 h).imp id fun h => ⟨kind, List.mem_singleton.1 h⟩
  unfold Component.insert at hf
  dsimp only at hf
  split at hf
  · split at hf
    · exact hduplicate _ hf
    · exact .inl hf
  · split at hf
    · split at hf
      · exact hduplicate _ hf
      · exact .inl hf
    · split at hf
      · exact hduplicate _ hf
      · exact .inl hf
  · exact .inl hf
  · exact .inl hf

theorem Component.noteEnd_faults (c : Component) (w : WrittenBlock) :
    ∀ f ∈ (c.noteEnd w).faults,
      f ∈ c.faults ∨ w.isClosed = false ∧ ∃ name, f = ⟨.unclosedBlock name, w.tagSpan⟩ := by
  intro f hf
  unfold Component.noteEnd at hf
  split at hf
  next => exact .inl hf
  next hclosed =>
    refine (List.mem_append.1 hf).imp_right fun hf => ⟨by simpa using hclosed, ?_⟩
    exact ⟨_, List.mem_singleton.1 hf⟩

/-- **Faults** are reported at the name of a block, because it has no end or because there is one of its kind. -/
theorem Component.foldl_insert_faults {ws : List WrittenBlock} {c : Component} {f : Fault}
    (h : f ∈ (ws.foldl (fun c w => (c.noteEnd w).insert w) c).faults) :
    f ∈ c.faults ∨ ∃ w ∈ ws, (w.isClosed = false ∧ ∃ name, f = ⟨.unclosedBlock name, w.tagSpan⟩) ∨
      ∃ kind, f = ⟨.duplicateBlock kind, w.tagSpan⟩ := by
  induction ws generalizing c with
  | nil => exact .inl h
  | cons w ws ih =>
    rcases ih h with hinsert | ⟨v, hv, hfault⟩
    · rcases Component.insert_faults _ w f hinsert with hnote | hduplicate
      · exact (Component.noteEnd_faults c w f hnote).imp_right fun hclosed =>
          ⟨w, List.mem_cons_self, .inl hclosed⟩
      · exact .inr ⟨w, List.mem_cons_self, .inr hduplicate⟩
    · exact .inr ⟨v, List.mem_cons_of_mem w hv, hfault⟩

/-- The blocks are those that were there and those that are put in their places. -/
theorem Component.foldl_insert_blocks {ws : List WrittenBlock} {c : Component} {b : Block}
    (h : b ∈ (ws.foldl (fun c w => (c.noteEnd w).insert w) c).blocks) :
    b ∈ c.blocks ∨ ∃ w ∈ ws, b = w.block := by
  induction ws generalizing c with
  | nil => exact .inl h
  | cons w ws ih =>
    rcases ih h with hb | ⟨w', hw', rfl⟩
    · rcases Component.insert_blocks hb with hb | rfl
      · exact .inl (Component.noteEnd_blocks c w ▸ hb)
      · exact .inr ⟨w, List.mem_cons_self, rfl⟩
    · exact .inr ⟨w', List.mem_cons_of_mem w hw', rfl⟩

/-- **Every block stands where the split says.** -/
theorem Component.split_reads (source : String) :
    ∀ b ∈ (Component.split source).blocks, b.span.Reads source.toList b.content.toList := by
  have hwritten := writtenBlocks_reads 0 source.toList [] rfl
  rw [List.nil_append] at hwritten
  intro b hb
  rcases Component.foldl_insert_blocks hb with hb | ⟨w, hw, rfl⟩
  · simp [Component.blocks] at hb
  · exact hwritten w hw

end ComponentLens
