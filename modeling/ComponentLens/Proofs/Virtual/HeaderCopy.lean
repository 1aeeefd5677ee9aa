/-
# The header copy of the setup block

An import has to stand at the top of a module, so the setup block is written once before the exported
component, with its imports as they are and everything else blanked.  What makes a position in this copy as good
as one in the block is that the copy keeps every offset.

The generator walks over the imports, so the copy is a list of parts, by turns blanked and copied.  The spans of
the parts tile the block (`tiles_headerParts`), and each part is written with as many bytes as its span has.
The rest holds of any such list of parts: every part lands where it comes from (`mappingsFrom_of_tiles`), and
the bytes are those of the block, each kept or blanked (`utf8_of_tiles`).
-/
import ComponentLens.Proofs.Mapping.Pieces
import ComponentLens.Proofs.Virtual.SetupBody

namespace ComponentLens

/-! ## 1. Tilings -/

/-- The spans follow one another from `lo` to `hi`, without a gap and without an overlap. -/
def Tiles (lo hi : Nat) : List Span → Prop
  | [] => lo = hi
  | s :: rest => s.start = lo ∧ s.start ≤ s.stop ∧ Tiles s.stop hi rest

namespace Virtual

open Script

instance (s : Span) (n : Nat) : Decidable (InSpan s n) := inferInstanceAs (Decidable (_ ∧ _))

/-! ## 2. Blanking but for line feeds -/

/-- A line feed, or a space for any other byte. -/
def blankByte (b : UInt8) : UInt8 := if b = 10 then 10 else 32

/-- A line feed is no part of another character. -/
theorem ne_lineFeed_of_mem_utf8EncodeChar {c : Char} (hc : c ≠ '\n') {b : UInt8}
    (hb : b ∈ String.utf8EncodeChar c) : b.toNat ≠ 10 := by
  have hval : c.val.toNat ≠ 10 := fun h => hc (Char.ext (UInt32.toNat_inj.1 h))
  -- every byte of a longer character has its high bit set
  simp only [String.utf8EncodeChar] at hb
  split at hb
  · obtain rfl := List.mem_singleton.1 hb
    simp only [UInt8.toNat_ofNat']
    omega
  split at hb
  · simp only [List.mem_cons, List.not_mem_nil, or_false] at hb
    rcases hb with rfl | rfl <;> simp only [UInt8.toNat_ofNat'] <;> omega
  split at hb
  · simp only [List.mem_cons, List.not_mem_nil, or_false] at hb
    rcases hb with rfl | rfl | rfl <;> simp only [UInt8.toNat_ofNat'] <;> omega
  · simp only [List.mem_cons, List.not_mem_nil, or_false] at hb
    rcases hb with rfl | rfl | rfl | rfl <;> simp only [UInt8.toNat_ofNat'] <;> omega

theorem utf8_replicate_space (n : Nat) : utf8 (List.replicate n ' ') = List.replicate n 32 := by
  have hspace : String.utf8EncodeChar ' ' = [32] := by decide
  induction n with
  | zero => rfl
  | succ n ih =>
    rw [utf8] at ih
    rw [List.replicate_succ, utf8, List.flatMap_cons, hspace, ih]
    rfl

/-- **Blanking works byte by byte**, whatever the characters are. -/
theorem utf8_lineFeedsOnly (text : String) :
    utf8 (lineFeedsOnly text).toList = (utf8 text.toList).map blankByte := by
  unfold lineFeedsOnly
  rw [String.toList_ofList]
  induction text.toList with
  | nil => rfl
  | cons c cs ih =>
    have hcons : utf8 (c :: cs) = String.utf8EncodeChar c ++ utf8 cs := rfl
    rw [List.flatMap_cons, utf8_append, ih, hcons, List.map_append]
    congr 1
    by_cases hc : c = '\n'
    · subst hc
      decide
    · rw [if_neg (by simpa using hc), utf8_replicate_space, ← String.length_utf8EncodeChar c, eq_comm]
      refine List.eq_replicate_iff.2 ⟨List.length_map .., ?_⟩
      intro b' hb'
      obtain ⟨b, hb, rfl⟩ := List.mem_map.1 hb'
      exact if_neg fun hten => ne_lineFeed_of_mem_utf8EncodeChar hc hb (congrArg UInt8.toNat hten)

/-! ## 3. Parts -/

/-- A part of the header: an import that is copied, or a text between imports that is blanked. -/
structure HeaderPart where
  span : Span
  isImport : Bool

namespace HeaderPart

/-- What is written for the part. -/
def code (content : String) (part : HeaderPart) : String :=
  if part.isImport then part.span.slice content else lineFeedsOnly (part.span.slice content)

/-- What is known about the part: an import serves every request, a blanked text none. -/
def data (part : HeaderPart) : CodeData where
  region := .scriptSetup
  capabilities := if part.isImport then .scriptSetup else .none

def render (content : String) (part : HeaderPart) : MappedText CodeData :=
  .mapped (part.code content) part.span .offset part.data

end HeaderPart

/-- The parts of a header from offset `pos` on. -/
def headerParts (size pos : Nat) : List Span → List HeaderPart
  | [] => [⟨⟨pos, size⟩, false⟩]
  | s :: rest => ⟨⟨pos, s.start⟩, false⟩ :: ⟨s, true⟩ :: headerParts size s.stop rest

/-- The imports stand one behind the other, from offset `pos` on. -/
structure ImportsAhead (content : String) (pos : Nat) (imports : List Span) : Prop where
  inside : pos ≤ content.utf8ByteSize
  apart : imports.Pairwise fun a b => a.stop ≤ b.start
  room : ∀ s ∈ imports, s.start < s.stop
  behind : ∀ s ∈ imports, pos ≤ s.start
  ends : ∀ s ∈ imports, s.EndsAt (IsBoundary content.toList)

theorem ImportsAhead.tail {content : String} {pos : Nat} {s : Span} {imports : List Span}
    (h : ImportsAhead content pos (s :: imports)) : ImportsAhead content s.stop imports where
  inside := by
    have := (h.ends s (by simp)).2.le_byteLength
    rwa [byteLength_toList] at this
  apart := (List.pairwise_cons.1 h.apart).2
  room s hs := h.room s (List.mem_cons_of_mem _ hs)
  behind := (List.pairwise_cons.1 h.apart).1
  ends s hs := h.ends s (List.mem_cons_of_mem _ hs)

section

variable {content : String} {pos : Nat} {imports : List Span}

/-- Between imports that stand one behind the other, no import is passed over. -/
theorem headerFrom_eq_render (h : ImportsAhead content pos imports) :
    (headerFrom content pos imports).map (·.body) =
      (headerParts content.utf8ByteSize pos imports).map (·.render content) := by
  induction imports generalizing pos with
  | nil => rfl
  | cons s imports ih =>
    have hle := h.behind s (by simp)
    simp only [headerFrom, if_neg (Nat.not_lt.2 hle), headerParts, List.map_cons, ih h.tail]
    rfl

theorem tiles_headerParts (h : ImportsAhead content pos imports) :
    Tiles pos content.utf8ByteSize ((headerParts content.utf8ByteSize pos imports).map (·.span)) := by
  induction imports generalizing pos with
  | nil => exact ⟨rfl, h.inside, rfl⟩
  | cons s imports ih =>
    exact ⟨rfl, h.behind s (by simp), rfl, Nat.le_of_lt (h.room s (by simp)), ih h.tail⟩

theorem filter_headerParts (size pos : Nat) (imports : List Span) :
    ((headerParts size pos imports).filter (·.isImport)).map (·.span) = imports := by
  induction imports generalizing pos with
  | nil => rfl
  | cons s imports ih => simp [headerParts, ih]

theorem endsAt_headerParts (h : ImportsAhead content pos imports) (hpos : IsBoundary content.toList pos) :
    ∀ part ∈ headerParts content.utf8ByteSize pos imports, part.span.EndsAt (IsBoundary content.toList) := by
  induction imports generalizing pos with
  | nil => simpa [headerParts] using ⟨hpos, isBoundary_utf8ByteSize content⟩
  | cons s imports ih =>
    have hs := h.ends s (by simp)
    simp only [headerParts, List.forall_mem_cons]
    exact ⟨⟨hpos, hs.1⟩, hs, ih h.tail hs.2⟩

/-- An offset of a part lies in an import just if the part is one. -/
theorem inImport_headerParts (h : ImportsAhead content pos imports) :
    ∀ part ∈ headerParts content.utf8ByteSize pos imports, pos ≤ part.span.start ∧
      ∀ n, InSpan part.span n → ((∃ s ∈ imports, InSpan s n) ↔ part.isImport = true) := by
  induction imports generalizing pos with
  | nil => simp [headerParts]
  | cons s imports ih =>
    have hle := h.behind s (by simp)
    have hroom := h.room s (by simp)
    simp only [headerParts, List.forall_mem_cons, InSpan, Nat.le_refl, true_and, Bool.false_eq_true, iff_false,
      iff_true]
    refine ⟨?_, ⟨hle, ?_⟩, ?_⟩
    · rintro n hn ⟨t, ht, hin⟩
      rcases List.mem_cons.1 ht with rfl | ht
      · omega
      · have := h.tail.behind t ht
        omega
    · exact fun n hn => ⟨s, by simp, hn⟩
    · intro part hpart
      obtain ⟨hstart, hiff⟩ := ih h.tail part hpart
      refine ⟨by omega, fun n hn => ?_⟩
      rw [← hiff n hn]
      constructor
      · rintro ⟨t, ht, hin⟩
        rcases List.mem_cons.1 ht with rfl | ht
        · omega
        · exact ⟨t, ht, hin⟩
      · rintro ⟨t, ht, hin⟩
        exact ⟨t, List.mem_cons_of_mem _ ht, hin⟩

end

/-! ## 4. Parts that tile a text -/

/-- The byte at an offset of the header, when the block holds `b` there. -/
def headerByte (imports : List Span) (n : Nat) (b : UInt8) : UInt8 :=
  if ∃ s ∈ imports, InSpan s n then b else blankByte b

section

variable {content : String} {imports : List Span} {parts : List HeaderPart} {pos size : Nat}

theorem utf8_code (content : String) (part : HeaderPart) :
    utf8 (part.code content).toList =
      (utf8 (part.span.slice content).toList).map fun b => if part.isImport then b else blankByte b := by
  unfold HeaderPart.code
  split
  · simp
  · rw [utf8_lineFeedsOnly]

/-- A part takes up as much room as its span. -/
theorem utf8ByteSize_code {part : HeaderPart} (hends : part.span.EndsAt (IsBoundary content.toList))
    (hle : part.span.start ≤ part.span.stop) : (part.code content).utf8ByteSize = part.span.length := by
  obtain ⟨inside, hreads⟩ := Span.exists_reads hends.1 hends.2 hle
  have hslice : byteLength (part.span.slice content).toList = byteLength inside := by
    rw [hreads.slice, String.toList_ofList]
  rw [← byteLength_toList, ← length_utf8, utf8_code, List.length_map, length_utf8, hslice]
  exact hreads.length_eq.symm

/-- **Every part lands where it comes from.** -/
theorem mappingsFrom_of_tiles (htiles : Tiles pos size (parts.map (·.span)))
    (hends : ∀ part ∈ parts, part.span.EndsAt (IsBoundary content.toList)) :
    MappedText.mappingsFrom pos (parts.map (·.render content)) =
      parts.map fun part => ⟨part.data, .offset, part.span, part.span, []⟩ := by
  induction parts generalizing pos with
  | nil => rfl
  | cons part parts ih =>
    simp only [List.map_cons, Tiles] at htiles
    obtain ⟨rfl, hle, hrest⟩ := htiles
    have hsize := utf8ByteSize_code (hends part (by simp)) hle
    have hstop : part.span.start + (part.code content).utf8ByteSize = part.span.stop := by
      rw [hsize, Span.length]
      omega
    simp only [List.map_cons, MappedText.mappingsFrom]
    have hnext : part.span.start + (part.render content).size = part.span.stop := hstop
    rw [hnext, ih hrest fun p hp => hends p (List.mem_cons_of_mem _ hp)]
    simp [HeaderPart.render, MappedText.mapped, Mapping.shiftTarget, Span.shift, Nat.add_comm, hstop]

/-- **Every byte is that of the block, kept or blanked.** -/
theorem utf8_of_tiles {before rest : List Char} (hcontent : content.toList = before ++ rest)
    (htiles : Tiles (byteLength before) content.utf8ByteSize (parts.map (·.span)))
    (hends : ∀ part ∈ parts, part.span.EndsAt (IsBoundary content.toList))
    (hparts : ∀ part ∈ parts, ∀ n, InSpan part.span n →
      ((∃ s ∈ imports, InSpan s n) ↔ part.isImport = true)) :
    utf8 (MappedText.textOf (parts.map (·.render content))) =
      (utf8 rest).mapIdx fun i b => headerByte imports (byteLength before + i) b := by
  induction parts generalizing before rest with
  | nil =>
    have hsize : byteLength before = content.utf8ByteSize := htiles
    rw [← byteLength_toList, hcontent, byteLength_append] at hsize
    obtain rfl : rest = [] := eq_nil_of_byteLength_eq_zero (by omega)
    rfl
  | cons part parts ih =>
    simp only [List.map_cons, Tiles] at htiles
    obtain ⟨hstart, hle, hrest⟩ := htiles
    have hboundary := hends part (by simp)
    obtain ⟨inside, front, after, hfront, hspan⟩ := Span.exists_reads hboundary.1 hboundary.2 hle
    obtain ⟨rfl, rfl⟩ : before = front ∧ rest = inside ++ after := by
      have hlen : byteLength before = byteLength front := hstart.symm.trans (congrArg Span.start hspan)
      obtain ⟨middle, rfl, hmiddle⟩ :=
        exists_append_of_byteLength_le (hcontent.symm.trans hfront) (Nat.le_of_eq hlen)
      obtain rfl : middle = [] := eq_nil_of_byteLength_eq_zero (by simpa using hlen)
      exact ⟨by simp, by simpa using hmiddle⟩
    have hslice : part.span.slice content = String.ofList inside :=
      Span.Reads.slice ⟨before, after, hfront, hspan⟩
    have hstop : part.span.stop = byteLength (before ++ inside) := by
      rw [byteLength_append]
      exact congrArg Span.stop hspan
    have hmore := ih (by rw [hcontent, List.append_assoc]) (hstop ▸ hrest)
      (fun p hp => hends p (List.mem_cons_of_mem _ hp)) fun p hp => hparts p (List.mem_cons_of_mem _ hp)
    have hbytes : utf8 (part.code content).toList =
        (utf8 inside).mapIdx fun i b => headerByte imports (byteLength before + i) b := by
      rw [utf8_code, hslice, String.toList_ofList]
      refine List.ext_getElem (by simp) fun i hi _ => ?_
      rw [List.length_map, length_utf8] at hi
      have hin := hparts part (by simp) (byteLength before + i) (by
        rw [byteLength_append] at hstop
        exact ⟨by omega, by omega⟩)
      simp only [List.getElem_map, List.getElem_mapIdx, headerByte, hin]
    rw [List.map_cons, MappedText.textOf, List.flatMap_cons, utf8_append, utf8_append, List.mapIdx_append,
      length_utf8]
    refine congrArg₂ _ hbytes ?_
    rw [MappedText.textOf] at hmore
    rw [hmore]
    simp only [byteLength_append, Nat.add_comm, Nat.add_left_comm]

end

/-! ## 5. The header of a program -/

/-- The setup block as it is written before the exported component. -/
def setupHeader (content : String) (facts : SetupFacts) : MappedText CodeData :=
  (LinkedText.concat (headerFrom content 0 (sortedImports facts))).body

/-- What it means that a copy keeps the offsets of a block, and the imports of the block. -/
structure KeepsOffsets (content : String) (imports : List Span) (copy : MappedText CodeData) : Prop where
  /-- The copy is as long as the block. -/
  size : copy.size = content.utf8ByteSize
  /-- Where the block holds a byte of an import, the copy holds it, too; elsewhere it holds a line feed where
  the block does, and a space otherwise. -/
  bytes : utf8 copy.text.toList = (utf8 content.toList).mapIdx (headerByte imports)
  /-- The mapped places of the block tile it. -/
  tiles : Tiles 0 content.utf8ByteSize (copy.mappings.map (·.source))
  /-- Each of them is mapped to the same offsets of the copy. -/
  places : ∀ m ∈ copy.mappings, m.mode = .offset ∧ m.target = m.source ∧ m.alternates = []
  /-- The imports are what serves requests, and they serve all of them. -/
  whole : (copy.mappings.filter (·.data = { region := .scriptSetup, capabilities := .scriptSetup })).map
    (·.source) = imports
  /-- What is mapped otherwise serves no request, and lies outside the imports. -/
  elsewhere : ∀ m ∈ copy.mappings, m.source ∉ imports →
    m.data = { region := .scriptSetup, capabilities := .none } ∧
      ∀ n, InSpan m.source n → ¬∃ s ∈ imports, InSpan s n

/-- The imports of a block stand one behind the other. -/
theorem importsAhead {content : String} {facts : SetupFacts} (h : analyzeSetup content = .ok facts) :
    ImportsAhead content 0 facts.imports where
  inside := Nat.zero_le _
  apart := (analyzeSetup_imports h).1
  room := (analyzeSetup_imports h).2
  behind s _ := Nat.zero_le s.start
  ends s hs := analyzeSetup_endsAt h s (by simp [SetupFacts.spans, hs])

theorem keepsOffsets_setupHeader {content : String} {facts : SetupFacts}
    (h : analyzeSetup content = .ok facts) :
    KeepsOffsets content facts.imports (setupHeader content facts) := by
  have hahead := importsAhead h
  have hparts := fun part hpart => (inImport_headerParts hahead part hpart).2
  have htiles := tiles_headerParts hahead
  have hends := endsAt_headerParts hahead (isBoundary_zero _)
  have hheader : setupHeader content facts =
      .concat ((headerParts content.utf8ByteSize 0 facts.imports).map (·.render content)) := by
    rw [← headerFrom_eq_render hahead, setupHeader, sortedImports_eq hahead.apart hahead.room]
    rfl
  have hmappings : (setupHeader content facts).mappings =
      (headerParts content.utf8ByteSize 0 facts.imports).map fun part =>
        ⟨part.data, .offset, part.span, part.span, []⟩ := by
    rw [hheader]
    exact mappingsFrom_of_tiles htiles hends
  have hbytes : utf8 (setupHeader content facts).text.toList =
      (utf8 content.toList).mapIdx (headerByte facts.imports) := by
    have hall := utf8_of_tiles (show content.toList = [] ++ content.toList from rfl) htiles hends hparts
    simp only [byteLength_nil, Nat.zero_add] at hall
    rw [hheader, MappedText.toList_concat, hall]
  constructor
  · have hlength := congrArg List.length hbytes
    rwa [List.length_mapIdx, length_utf8, length_utf8, byteLength_toList, byteLength_toList] at hlength
  · exact hbytes
  · rwa [hmappings, List.map_map]
  · rw [hmappings]
    intro m hm
    obtain ⟨part, -, rfl⟩ := List.mem_map.1 hm
    exact ⟨rfl, rfl, rfl⟩
  · have hdata : ∀ part : HeaderPart,
        part.data = { region := .scriptSetup, capabilities := .scriptSetup } ↔ part.isImport = true := by
      rintro ⟨span, isImport⟩
      cases isImport
      · simp [HeaderPart.data]
        decide
      · simp [HeaderPart.data]
    rw [hmappings, List.filter_map, List.map_map]
    simp only [Function.comp_def, hdata, Bool.decide_eq_true]
    exact filter_headerParts _ _ _
  · rw [hmappings]
    intro m hm hsource
    obtain ⟨part, hpart, rfl⟩ := List.mem_map.1 hm
    have hblank : part.isImport = false := by
      refine Bool.eq_false_iff.2 fun hyes => hsource ?_
      have hmem := List.mem_map_of_mem (f := (·.span)) (List.mem_filter.2 ⟨hpart, hyes⟩)
      rwa [filter_headerParts] at hmem
    refine ⟨by simp [HeaderPart.data, hblank], fun n hn => ?_⟩
    rw [hparts part hpart n hn, hblank]
    exact Bool.false_ne_true

/-! ## 6. The header in the document -/

/-- What stands behind the header in the program of a setup block. -/
def behindHeader (content : String) (facts : SetupFacts) : List LinkedText :=
  declaredOptions content facts ++ functionHead ++ functionBody content facts ++
    [LinkedText.plain "return \x7b\n"] ++
    facts.exposes.map (fun span => returnEntry (span.slice content) span ",\n") ++
    (rootVars facts).map (fun v => returnEntry v.name v.span ", \n") ++
    [LinkedText.plain "\x7d;\n\x7d\x7d);\n"]

/-- The program of a setup block: its header, between a line that names the block and one that exports the
component. -/
theorem body_setupProgram (block : Block) (facts : SetupFacts) :
    (setupProgram block facts).body =
      .plain "\n/* <script setup> */\n" ++ (setupHeader block.content facts ++
        (.plain "\nexport default (await import('__VLS_vue')).defineComponent(\x7b\n" ++
          .concat ((behindHeader block.content facts).map (·.body)))) := by
  have hpieces : setupProgram block facts = .concat ([.plain "\n/* <script setup> */\n"] ++
      (headerFrom block.content 0 (sortedImports facts) ++
        ([.plain "\nexport default (await import('__VLS_vue')).defineComponent(\x7b\n"] ++
          behindHeader block.content facts))) := by
    simp only [setupProgram, behindHeader, functionHead, functionBody, sortedLabels, List.append_assoc,
      List.cons_append, List.nil_append]
  rw [hpieces]
  simp only [LinkedText.concat, List.map_append, MappedText.concat_append]
  rfl

/-- **The header copy of a setup block.**  In the script document it stands between the line that names the setup
block and the one that exports the component, with its places moved to the file; and it keeps the offsets of
the block. -/
theorem scriptProgram_header {input : ScriptInput} {block : Block} {facts : SetupFacts}
    (hinput : input.setup = some (block, facts)) (h : analyzeSetup block.content = .ok facts) :
    KeepsOffsets block.content facts.imports (setupHeader block.content facts) ∧
    ∃ front back : MappedText CodeData, (scriptProgram input).body =
      front ++ .plain "\n/* <script setup> */\n" ++
      (setupHeader block.content facts).shiftSource block.span.start ++
      .plain "\nexport default (await import('__VLS_vue')).defineComponent(\x7b\n" ++ back := by
  refine ⟨keepsOffsets_setupHeader h, ?_⟩
  have hpieces : ∃ before after, (scriptProgram input).body =
      .concat (before ++ ([(setupProgram block facts).body.shiftSource block.span.start] ++ after)) :=
    ⟨[_, _], [_, _, _, _, _], by simp only [scriptProgram, hinput]; rfl⟩
  obtain ⟨before, after, hpieces⟩ := hpieces
  refine ⟨.concat before, (MappedText.concat ((behindHeader block.content facts).map (·.body))).shiftSource
    block.span.start ++ .concat after, ?_⟩
  rw [hpieces, MappedText.concat_append, MappedText.concat_append, MappedText.concat_singleton,
    body_setupProgram]
  simp only [MappedText.shiftSource_append, MappedText.append_assoc]
  rfl

/-- A setup block with an import behind a statement, and a character of two bytes in front of it. -/
def mixedBlock : Block :=
  ⟨"script", "const ä = 1\nimport a from 'y'\n", ⟨14, 45⟩, [⟨"setup", none, ⟨8, 13⟩, none, none⟩]⟩

/-- The facts about it. -/
def factsMixed : SetupFacts where
  imports := [⟨13, 30⟩]
  exposes := [⟨6, 8⟩, ⟨20, 21⟩]

/-- The theorem at `mixedBlock`: as many spaces as the statement has bytes, and then the import. -/
theorem scriptProgram_header_mixed :
    analyzeSetup mixedBlock.content = .ok factsMixed ∧
    (setupHeader mixedBlock.content factsMixed).text = "            \nimport a from 'y'\n" ∧
    KeepsOffsets mixedBlock.content [⟨13, 30⟩] (setupHeader mixedBlock.content factsMixed) := by
  have hfacts : analyzeSetup mixedBlock.content = .ok factsMixed := by decide +kernel
  have hinput : (ScriptInput.mk none (some (mixedBlock, factsMixed))).setup = some (mixedBlock, factsMixed) := rfl
  exact ⟨hfacts, by decide +kernel, (scriptProgram_header hinput hfacts).1⟩

end Virtual

end ComponentLens
