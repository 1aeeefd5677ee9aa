/-
# No byte of a block is lost

Tokens and what stands between them make up the text.  `Cuts` says so: in front of each token, and behind the
last one, stands a gap of white space and complete comments (`IsGap`), and each token stands at its span.
`tokenize_lossless` says that a block is always cut in this way, or the fault shows at a place of it.

What a token tells about the gap in front of it is whether there is a line break.  For a template literal it
tells more: the reader notes the line breaks of the comments that it passes, also of those in the code of a
substitution, and these belong to the literal itself.  So a literal with such a comment is marked although no
line break may stand in front of it (`not_marked_by_gap`).
-/
import ComponentLens.Proofs.Script.Comments
import ComponentLens.Proofs.Script.Places
import Mathlib.Data.List.Basic

namespace ComponentLens.Script

/-! ## 1. Gaps -/

/-- White space and comments, in front of the text `behind`.  A line comment is complete if a line break follows
or the text ends. -/
inductive IsGap (behind : List Char) : List Char → Prop where
  | nil : IsGap behind []
  | space {c : Char} {cs : List Char} (hc : c ∈ [' ', '\t', '\r', '\n', '\x0b', '\x0c'])
      (hcs : IsGap behind cs) : IsGap behind (c :: cs)
  | lineComment {body cs : List Char} (hbody : '\n' ∉ body) (hend : ∀ c ∈ (cs ++ behind).head?, c = '\n')
      (hcs : IsGap behind cs) : IsGap behind ('/' :: '/' :: (body ++ cs))
  | blockComment {body cs : List Char} (hbody : ¬ ['*', '/'] <:+: body) (hcs : IsGap behind cs) :
      IsGap behind ('/' :: '*' :: (body ++ '*' :: '/' :: cs))

/-- A token, and the gap in front of it. -/
structure GapToken where
  gap : List Char
  token : Token

/-- The text is cut into parts and a gap behind them.  Its first byte stands at offset `pos`. -/
inductive Cuts : Nat → List Char → List GapToken → Prop where
  | last {pos : Nat} {gap : List Char} (hgap : IsGap [] gap) : Cuts pos gap []
  | part {pos : Nat} {gap rest : List Char} {t : Token} {parts : List GapToken}
      (hgap : IsGap (t.text.toList ++ rest) gap) (htext : t.text.toList ≠ [])
      (hspan : t.span = ⟨pos + byteLength gap, pos + byteLength gap + byteLength t.text.toList⟩)
      (hrest : Cuts t.span.stop rest parts) :
      Cuts pos (gap ++ (t.text.toList ++ rest)) (⟨gap, t⟩ :: parts)

/-! ## 2. Pieces -/

/-- The piece can stand in front of a gap, and it reports the line breaks in it. -/
structure Piece.PassesGap (p : Piece) : Prop where
  sawBreak : p.sawBreak = true ↔ '\n' ∈ p.taken
  isGap : ∀ gap behind, p.rest = gap ++ behind → IsGap behind gap → IsGap behind (p.taken ++ gap)

/-- What a piece reports and, if it is no token, that it belongs to a gap. -/
def Piece.Sound (p : Piece) : Prop :=
  match p.kind with
  | none => p.PassesGap
  | some kind => p.sawBreak = true ↔ kind = .template ∧ BreaksInComment p.taken

theorem Piece.sound_of_ne_template {kind : TokenKind} {taken rest : List Char} (h : kind ≠ .template) :
    (Piece.mk (some kind) taken rest false).Sound := by simp [Sound, h]

/-- A delimited piece is read up to its end. -/
theorem Piece.eq_of_ofReading {kind : Option TokenKind} {opening : List Char} {cause : Cause} {pos : Nat} {r : Reading}
    {p : Piece} (h : Piece.ofReading kind opening cause pos r = .ok p) :
    r.closed = true ∧ p = ⟨kind, opening ++ r.taken, r.rest, false⟩ := by
  unfold Piece.ofReading at h
  split at h
  next hclosed =>
    cases h
    exact ⟨hclosed, rfl⟩
  next => cases h

theorem Piece.sound_of_ofReading {kind : TokenKind} (hkind : kind ≠ .template) {opening : List Char}
    {cause : Cause} {pos : Nat} {r : Reading} {p : Piece}
    (h : Piece.ofReading (some kind) opening cause pos r = .ok p) : p.Sound := by
  obtain ⟨-, rfl⟩ := eq_of_ofReading h
  exact sound_of_ne_template hkind

theorem Piece.passesGap_space {c : Char} {cs : List Char} {sawBreak : Bool}
    (hc : c ∈ [' ', '\t', '\r', '\n', '\x0b', '\x0c']) (hbreak : sawBreak = true ↔ c = '\n') :
    (Piece.mk none [c] cs sawBreak).PassesGap where
  sawBreak := by rw [hbreak, List.mem_singleton, eq_comm]
  isGap _ _ _ hgap := .space hc hgap

theorem Piece.passesGap_lineComment (cs : List Char) :
    (Piece.mk none ('/' :: '/' :: cs.takeWhile (· != '\n')) (cs.dropWhile (· != '\n')) false).PassesGap := by
  have hbody : '\n' ∉ cs.takeWhile (· != '\n') := fun hmem => by
    have hall : (cs.takeWhile (· != '\n')).all (· != '\n') = true := List.all_takeWhile
    simpa using List.all_eq_true.1 hall _ hmem
  constructor
  · simpa using hbody
  · intro gap behind hrest hgap
    refine .lineComment hbody (fun d hd => ?_) hgap
    have hstop := List.head?_dropWhile_not (· != '\n') cs
    rw [show cs.dropWhile (· != '\n') = gap ++ behind from hrest, Option.mem_def.1 hd] at hstop
    simpa using hstop

theorem Piece.passesGap_blockComment {body : List Char} (hbody : ¬ ['*', '/'] <:+: body) (cs : List Char) :
    (Piece.mk none ('/' :: '*' :: (body ++ ['*', '/'])) cs ((body ++ ['*', '/']).contains '\n')).PassesGap where
  sawBreak := by simp
  isGap gap behind _ hgap := by simpa using IsGap.blockComment hbody hgap

/-- The characters of gaps are white space, and no line break. -/
theorem mem_of_isGap {c : Char} (h : isGap c = true) :
    c ∈ [' ', '\t', '\r', '\n', '\x0b', '\x0c'] ∧ c ≠ '\n' := by
  simp only [isGap, Bool.or_eq_true, beq_iff_eq] at h
  rcases h with (((rfl | rfl) | rfl) | rfl) | rfl <;> decide

/-- **Every piece is sound.** -/
theorem readPiece_sound {pos : Nat} {previous : Option Token} {c : Char} {cs : List Char} {p : Piece}
    (h : readPiece pos previous c cs = .ok p) : p.Sound := by
  unfold readPiece at h
  split at h
  next hbreak =>
    cases h
    obtain rfl : c = '\n' := by simpa using hbreak
    exact Piece.passesGap_space (by decide) (by decide)
  split at h
  next hspace =>
    cases h
    obtain ⟨hc, hne⟩ := mem_of_isGap hspace
    exact Piece.passesGap_space hc (by simp [hne])
  split at h
  next hopen =>
    cases h
    simp only [Bool.and_eq_true, beq_iff_eq] at hopen
    obtain ⟨rfl, hslash⟩ := hopen
    obtain ⟨cs, rfl⟩ : ∃ more, cs = '/' :: more := by
      cases cs <;> simp_all
    exact Piece.passesGap_lineComment cs
  split at h
  next hopen =>
    obtain ⟨q, hq, rfl⟩ := map_eq_ok.1 h
    obtain ⟨hclosed, rfl⟩ := Piece.eq_of_ofReading hq
    obtain ⟨body, hbody, htaken⟩ := readBlockComment_closed hclosed
    simp only [Bool.and_eq_true, beq_iff_eq] at hopen
    obtain ⟨rfl, -⟩ := hopen
    rw [htaken]
    exact Piece.passesGap_blockComment hbody _
  split at h
  · exact Piece.sound_of_ofReading (by decide) h
  split at h
  · exact Piece.sound_of_ofReading (by decide) h
  split at h
  next hquote =>
    obtain ⟨r, hr, rfl⟩ := map_eq_ok.1 h
    obtain rfl : c = '`' := by simpa using hquote
    simpa [Piece.Sound] using sawBreak_iff hr
  split at h
  · cases h
    exact Piece.sound_of_ne_template (by decide)
  split at h
  · cases h
    exact Piece.sound_of_ne_template (by decide)
  · cases h
    exact Piece.sound_of_ne_template (by decide)

/-! ## 3. Cutting -/

/-- What the tokens tell about line breaks, when the first gap lies behind others.  `broken` says whether those hold
a line break. -/
def Marked (broken : Bool) : List GapToken → Prop
  | [] => True
  | p :: parts =>
    (p.token.newlineBefore = true ↔ broken = true ∨ '\n' ∈ p.gap ∨
      p.token.kind = .template ∧ BreaksInComment p.token.text.toList) ∧ Marked false parts

/-- A piece of a gap belongs to the gap in front of the first token, or to the last gap. -/
theorem Cuts.prepend {pos : Nat} {piece : Piece} {parts : List GapToken} (hpiece : piece.PassesGap)
    (hcuts : Cuts (pos + byteLength piece.taken) piece.rest parts) {broken : Bool}
    (hmarked : Marked (broken || piece.sawBreak) parts) :
    ∃ longer, longer.map (·.token) = parts.map (·.token) ∧ Cuts pos (piece.taken ++ piece.rest) longer ∧
      Marked broken longer := by
  obtain ⟨kind, taken, rest, sawBreak⟩ := piece
  cases hcuts with
  | last hgap => exact ⟨[], rfl, .last (hpiece.isGap rest [] (by simp) hgap), trivial⟩
  | part hgap htext hspan hrest =>
    rename_i gap rest t parts
    refine ⟨⟨taken ++ gap, t⟩ :: parts, rfl, ?_, ?_, hmarked.2⟩
    · show Cuts pos (taken ++ (gap ++ (t.text.toList ++ rest))) _
      rw [← List.append_assoc]
      refine .part (hpiece.isGap gap _ rfl hgap) htext ?_ hrest
      rw [hspan, byteLength_append, Nat.add_assoc]
    · rw [hmarked.1, Bool.or_eq_true, hpiece.sawBreak, or_assoc, List.mem_append, or_assoc]

/-- **The text is cut into its tokens**, and they tell where the line breaks are. -/
theorem tokensFrom_cuts {pos : Nat} {previous : Option Token} {broken : Bool} {cs : List Char}
    {ts : List Token} (h : tokensFrom pos previous broken cs = .ok ts) :
    ∃ parts, parts.map (·.token) = ts ∧ Cuts pos cs parts ∧ Marked broken parts := by
  fun_induction tokensFrom pos previous broken cs generalizing ts with
  | case1 =>
    cases h
    exact ⟨[], rfl, .last .nil, trivial⟩
  | case2 => cases h
  | case3 pos previous broken c cs piece hread _ stop _ hkind =>
    rename_i ih
    obtain ⟨parts, hparts, hcuts, hmarked⟩ := ih h
    have hsound := readPiece_sound hread
    rw [Piece.Sound, hkind] at hsound
    rw [← readPiece_split hread, ← hparts]
    exact hcuts.prepend hsound hmarked
  | case4 pos previous broken c cs piece hread _ stop marked kind hkind token =>
    rename_i ih
    obtain ⟨more, hmore, rfl⟩ := map_eq_ok.1 h
    obtain ⟨parts, hparts, hcuts, hmarked⟩ := ih hmore
    have hsound : piece.sawBreak = true ↔ kind = .template ∧ BreaksInComment piece.taken := by
      simpa [Piece.Sound, hkind] using readPiece_sound hread
    obtain ⟨tail, htaken, -⟩ := readPiece_append hread
    have hcut : Cuts pos ([] ++ (token.text.toList ++ piece.rest)) (⟨[], token⟩ :: parts) :=
      .part .nil (by simp [token, htaken]) (by simp [token, stop]) hcuts
    refine ⟨⟨[], token⟩ :: parts, by simp [hparts], ?_, ?_, hmarked⟩
    · simpa [token, readPiece_split hread] using hcut
    · simp [token, marked, hsound]

theorem Marked.mem {parts : List GapToken} (h : Marked false parts) :
    ∀ p ∈ parts, p.token.newlineBefore = true ↔
      '\n' ∈ p.gap ∨ p.token.kind = .template ∧ BreaksInComment p.token.text.toList := by
  induction parts with
  | nil => simp
  | cons p parts ih =>
    obtain ⟨hfirst, hrest⟩ := h
    exact List.forall_mem_cons.2 ⟨by simpa using hfirst, ih hrest⟩

/-! ## 4. Faults -/

/-- From a boundary of what has been passed up to the end of what is taken. -/
theorem reads_from {before : List Char} {start : Nat} (h : IsBoundary before start) (taken after : List Char) :
    ∃ inside, Span.Reads ⟨start, byteLength before + byteLength taken⟩ (before ++ (taken ++ after)) inside := by
  obtain ⟨front, back, rfl, rfl⟩ := h
  exact ⟨back ++ taken, front, after, by simp, by simp [Nat.add_assoc]⟩

theorem map_eq_error {α β : Type} {f : α → β} {x : Except Fault α} {fault : Fault} :
    x.map f = .error fault ↔ x = .error fault := by
  cases x <;> simp [Except.map]

/-- The open literals start in the text that has been passed. -/
def OpenIn (before : List Char) (frames : List Frame) : Prop := ∀ f ∈ frames, IsBoundary before f.start

namespace OpenIn

variable {before : List Char} {frame : Frame} {frames : List Frame}

theorem pass (h : OpenIn before frames) (taken : List Char) : OpenIn (before ++ taken) frames :=
  fun f hf => (h f hf).append_left taken

theorem recount (h : OpenIn before (frame :: frames)) (braces : Nat) :
    OpenIn before (⟨frame.start, braces⟩ :: frames) := List.forall_mem_cons.2 (List.forall_mem_cons.1 h)

theorem leave (h : OpenIn before (frame :: frames)) : OpenIn before frames := (List.forall_mem_cons.1 h).2

/-- One more literal is open, and it starts where the text that has been passed ends. -/
theorem enter (h : OpenIn before frames) (braces : Nat) :
    OpenIn before (⟨byteLength before, braces⟩ :: frames) :=
  List.forall_mem_cons.2 ⟨⟨before, [], by simp, rfl⟩, h⟩

end OpenIn

/-- A literal that is not closed, or a string or a comment in it, is reported at a place of the text. -/
theorem readTemplate_fault {frames : List Frame} {pos : Nat} {before cs : List Char} {fault : Fault}
    (hpos : byteLength before = pos) (hopen : OpenIn before frames)
    (h : readTemplate frames pos cs = .error fault) : ∃ inside, fault.span.Reads (before ++ cs) inside := by
  fun_induction readTemplate frames pos cs generalizing before with
  | case1 => cases h
  | case2 pos frame outer =>
    cases h
    simpa [hpos] using reads_from (hopen frame (by simp)) [] []
  | case3 pos frame outer c after =>
    cases h
    simpa [hpos, after] using reads_from (hopen frame (by simp)) [c] []
  | case4 pos frame outer c after hbraces hc d cs =>
    rename_i ih
    have hreads := @ih (before ++ [c, d]) (by simp [hpos, after, Nat.add_assoc]) (hopen.pass _) (map_eq_error.1 h)
    simpa using hreads
  | case5 pos frame outer c cs after hbraces _ hc =>
    rename_i ih
    have hreads := @ih (before ++ [c]) (by simp [hpos, after]) (hopen.leave.pass _) (map_eq_error.1 h)
    simpa using hreads
  | case6 pos frame outer hbraces cs after _ _ =>
    rename_i ih
    have hreads := @ih (before ++ ['$', '{']) (by simp [hpos, after]; rfl) ((hopen.recount 1).pass _)
      (map_eq_error.1 h)
    simpa using hreads
  | case7 pos frame outer hbraces c cs _ after hslash hquote =>
    rename_i ih
    have hreads := @ih (before ++ [c]) (by simp [hpos, after]) (hopen.pass _) (map_eq_error.1 h)
    simpa using hreads
  | case8 pos frame outer c cs after hbraces hc =>
    rename_i ih
    have hreads := @ih (before ++ [c]) (by simp [hpos, after]) ((hopen.recount _).pass _) (map_eq_error.1 h)
    simpa using hreads
  | case9 pos frame outer c cs after hbraces _ hc =>
    rename_i ih
    have hreads := @ih (before ++ [c]) (by simp [hpos, after]) ((hopen.recount _).pass _) (map_eq_error.1 h)
    simpa using hreads
  | case10 pos frame outer c cs after hbraces _ _ hc body stop _ hclosed =>
    rename_i ih
    have hreads := @ih (before ++ c :: body.taken) (by simp [hpos, after, stop, Nat.add_assoc]) (hopen.pass _)
      (map_eq_error.1 h)
    simpa [body, readString_append] using hreads
  | case11 pos frame outer c cs after hbraces _ _ hc body stop =>
    cases h
    refine ⟨c :: body.taken, before, body.rest, by simp [body, readString_append], ?_⟩
    simp [stop, after, hpos, Nat.add_assoc]
  | case12 pos frame outer c cs after hbraces _ _ _ hc =>
    rename_i ih
    subst hpos
    have hreads := @ih (before ++ [c]) (by simp [after]) ((hopen.enter 0).pass _) (map_eq_error.1 h)
    simpa using hreads
  | case13 pos frame outer hbraces cs body _ hclosed after _ _ _ _ stop =>
    rename_i ih
    have hreads := @ih (before ++ '/' :: '*' :: body.taken) (by simp [hpos, after, stop, Nat.add_assoc]; rfl)
      (hopen.pass _) (map_eq_error.1 h)
    simpa [body, readBlockComment_append] using hreads
  | case14 pos frame outer hbraces cs body _ hclosed after _ _ _ _ =>
    rename_i stop
    cases h
    refine ⟨'/' :: '*' :: body.taken, before, body.rest, by simp [body, readBlockComment_append], ?_⟩
    simp [stop, after, hpos, Nat.add_assoc]
    rfl
  | case15 pos frame outer hbraces c cs _ after hbrace hcloser hquote hback =>
    rename_i ih
    have hreads := @ih (before ++ [c]) (by simp [hpos, after]) (hopen.pass _) (map_eq_error.1 h)
    simpa using hreads

theorem Piece.ofReading_fault {kind : Option TokenKind} {opening : List Char} {cause : Cause} {pos : Nat}
    {r : Reading} {before : List Char} {fault : Fault} (hpos : byteLength before = pos)
    (h : Piece.ofReading kind opening cause pos r = .error fault) :
    ∃ inside, fault.span.Reads (before ++ (opening ++ (r.taken ++ r.rest))) inside := by
  unfold Piece.ofReading at h
  split at h
  · cases h
  · cases h
    subst hpos
    exact ⟨opening ++ r.taken, before, r.rest, by simp, by simp [Nat.add_assoc]⟩

theorem readPiece_fault {pos : Nat} {previous : Option Token} {c : Char} {cs before : List Char} {fault : Fault}
    (hpos : byteLength before = pos) (h : readPiece pos previous c cs = .error fault) :
    ∃ inside, fault.span.Reads (before ++ c :: cs) inside := by
  unfold readPiece at h
  split at h
  · cases h
  split at h
  · cases h
  split at h
  · cases h
  split at h
  next hopen =>
    have hcs : cs = '*' :: cs.tail := by cases cs <;> simp_all
    have hreads := Piece.ofReading_fault hpos (map_eq_error.1 h)
    rw [readBlockComment_append] at hreads
    rw [hcs]
    exact hreads
  split at h
  · simpa [readRegExp_append] using Piece.ofReading_fault hpos h
  split at h
  · simpa [readString_append] using Piece.ofReading_fault hpos h
  split at h
  next hquote =>
    obtain rfl : c = '`' := by simpa using hquote
    have hopen : OpenIn (before ++ ['`']) [⟨pos, 0⟩] := by
      subst hpos
      exact (@OpenIn.enter before [] (by simp [OpenIn]) 0).pass _
    have hreads := readTemplate_fault (by simp [hpos]; rfl) hopen (map_eq_error.1 h)
    simpa using hreads
  split at h
  · cases h
  split at h
  · cases h
  · cases h

theorem tokensFrom_fault {pos : Nat} {previous : Option Token} {broken : Bool} {cs before : List Char}
    {fault : Fault} (hpos : byteLength before = pos) (h : tokensFrom pos previous broken cs = .error fault) :
    ∃ inside, fault.span.Reads (before ++ cs) inside := by
  fun_induction tokensFrom pos previous broken cs generalizing before with
  | case1 => cases h
  | case2 pos previous broken c cs other hread =>
    cases h
    exact readPiece_fault hpos hread
  | case3 pos previous broken c cs piece hread _ stop _ hkind =>
    rename_i ih
    have hstop : byteLength (before ++ piece.taken) = stop := by simp [stop, hpos]
    have hreads := ih hstop h
    rwa [List.append_assoc, readPiece_split hread] at hreads
  | case4 pos previous broken c cs piece hread _ stop _ kind hkind token =>
    rename_i ih
    have hstop : byteLength (before ++ piece.taken) = stop := by simp [stop, hpos]
    have hreads := ih hstop (map_eq_error.1 h)
    rwa [List.append_assoc, readPiece_split hread] at hreads

/-! ## 5. Blocks -/

/-- **No byte is lost.**  If a block is cut into tokens, each token stands at its span and takes up room, they stand
one behind the other, and between them stand white space and complete comments.  A token tells of a line break in
front of it exactly if its gap holds one, or if it is a template literal with a comment that runs over one.
Otherwise the fault shows at a place of the block. -/
theorem tokenize_lossless (source : String) :
    match tokenize source with
    | .ok ts => (∀ t ∈ ts, t.span.Reads source.toList t.text.toList ∧ t.span.start < t.span.stop) ∧
        ts.Pairwise (fun t u => t.span.stop ≤ u.span.start) ∧
        ∃ parts, parts.map (·.token) = ts ∧ Cuts 0 source.toList parts ∧
          ∀ p ∈ parts, p.token.newlineBefore = true ↔
            '\n' ∈ p.gap ∨ p.token.kind = .template ∧ BreaksInComment p.token.text.toList
    | .error fault => ∃ inside, fault.span.Reads source.toList inside := by
  split
  next ts htokens =>
    obtain ⟨hapart, hroom⟩ := tokenize_ordered htokens
    obtain ⟨parts, hparts, hcuts, hmarked⟩ := tokensFrom_cuts htokens
    exact ⟨fun t ht => ⟨tokenize_reads htokens t ht, hroom t ht⟩, hapart, parts, hparts, hcuts, hmarked.mem⟩
  next fault hfault => exact @tokensFrom_fault 0 none false source.toList [] fault rfl hfault

/-- Nothing stands in front of a token that starts where the text does. -/
theorem Cuts.gap_eq_nil {pos : Nat} {cs : List Char} {p : GapToken} {parts : List GapToken}
    (h : Cuts pos cs (p :: parts)) (hstart : p.token.span.start = pos) : p.gap = [] := by
  cases h with
  | part hgap htext hspan hrest =>
    rename_i gap _ _
    simp only [hspan] at hstart
    have hnone : byteLength gap = 0 := by omega
    exact eq_nil_of_byteLength_eq_zero hnone

/-- A literal at the start of a block is marked though nothing stands in front of it, because a comment in its
substitution runs over a line break. -/
theorem not_marked_by_gap :
    ∃ ts, tokenize "`$\x7b/*\n*/1\x7d`" = .ok ts ∧
      ¬∃ parts, parts.map (·.token) = ts ∧ Cuts 0 "`$\x7b/*\n*/1\x7d`".toList parts ∧
        ∀ p ∈ parts, p.token.newlineBefore = true ↔ '\n' ∈ p.gap := by
  refine ⟨[⟨.template, "`$\x7b/*\n*/1\x7d`", ⟨0, 11⟩, true⟩], by decide +kernel, ?_⟩
  rintro ⟨parts, hparts, hcuts, hmarked⟩
  obtain ⟨p, rfl, htoken⟩ : ∃ p, parts = [p] ∧ p.token = ⟨.template, "`$\x7b/*\n*/1\x7d`", ⟨0, 11⟩, true⟩ := by
    simpa [List.map_eq_singleton_iff] using hparts
  have hgap := hcuts.gap_eq_nil (by rw [htoken])
  have hbreak := (hmarked p (by simp)).1 (by rw [htoken])
  rw [hgap] at hbreak
  cases hbreak

end ComponentLens.Script
