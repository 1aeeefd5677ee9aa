/-
# Addresses with a suffix

A generated document has the address of its component with a suffix behind it, and the result is read again as an
address.  Reading an address follows the `.` and `..` steps of its path and spells some characters otherwise, so
the result need not be the two texts one behind the other.

It is, if the address is in normal form, which is to say that reading it again changes nothing, and the suffix is
made of letters, digits, points and underscores and holds a character that no step holds (`IsNormal.append_text`).
An address in normal form has no steps but for the last piece of its path (`IsNormal.no_steps`), and the suffix
turns the last piece into something that is none.
-/
import ComponentLens.Proofs.Text.Reads
import ComponentLens.Uri
import Mathlib.Data.List.TakeWhile

namespace ComponentLens.Uri

/-- Reading the address again changes nothing. -/
def IsNormal (u : Uri) : Prop := u.append "" = u

instance (u : Uri) : Decidable u.IsNormal := inferInstanceAs (Decidable (_ = _))

/-! ## 1. Parts -/

theorem scheme?_eq_some {text scheme rest : List Char} (h : scheme? text = some (scheme, rest)) :
    text = scheme ++ ':' :: rest := by
  have htext := List.takeWhile_append_dropWhile (p := isSchemeChar) (l := text)
  unfold scheme? at h
  dsimp only at h
  split at h
  next more hmore =>
    split at h
    · cases h
      rw [hmore] at htext
      exact htext.symm
    · cases h
  next => cases h

/-- The parts of an address make up its text. -/
theorem parts_append (u : Uri) :
    u.parts.base ++ (u.parts.path ++ (u.parts.query ++ u.parts.fragment)) = u.text.toList := by
  obtain ⟨scheme, rest, hscheme⟩ : ∃ scheme rest,
      (scheme? u.text.toList).getD ([], u.text.toList) = (scheme, rest) := ⟨_, _, rfl⟩
  have htext : u.text.toList = scheme ++ ((if rest.length < u.text.length then [':'] else []) ++ rest) := by
    cases h : scheme? u.text.toList with
    | none =>
      rw [h] at hscheme
      cases hscheme
      simp [String.length_toList]
    | some found =>
      rw [h] at hscheme
      obtain rfl : found = (scheme, rest) := hscheme
      have htext := scheme?_eq_some h
      have hlt : rest.length < u.text.length := by
        rw [← String.length_toList, htext, List.length_append, List.length_cons]
        omega
      rw [if_pos hlt, htext]
      rfl
  simp only [parts, hscheme]
  rw [htext, List.append_assoc, List.append_assoc]
  congr 2
  rw [List.takeWhile_append_dropWhile, List.takeWhile_append_dropWhile]
  split
  · simp
  · rfl

/-! ## 2. Pieces of a path -/

theorem segments_ne_nil (cs : List Char) : segments cs ≠ [] := by
  cases cs with
  | nil => exact List.cons_ne_nil _ _
  | cons c cs =>
    rw [segments]
    split
    · exact List.cons_ne_nil _ _
    · split
      · exact List.cons_ne_nil _ _
      · exact List.cons_ne_nil _ _

/-- A path is its pieces, each behind a slash. -/
theorem joinSegments_segments (cs : List Char) : joinSegments (segments cs) = '/' :: cs := by
  induction cs with
  | nil => rfl
  | cons c cs ih =>
    rw [segments]
    split
    next hslash =>
      obtain rfl := beq_iff_eq.1 hslash
      rw [joinSegments, List.flatMap_cons, ← joinSegments, ih]
      rfl
    next hslash =>
      split
      next hnil => exact absurd hnil (segments_ne_nil cs)
      next first more hmore =>
        rw [hmore, joinSegments, List.flatMap_cons] at ih
        rw [joinSegments, List.flatMap_cons]
        have htail : first ++ more.flatMap ('/' :: ·) = cs := List.tail_eq_of_cons_eq ih
        rw [List.cons_append, List.cons_append, htail]

theorem not_slash_of_mem_segments {cs piece : List Char} (h : piece ∈ segments cs) : '/' ∉ piece := by
  induction cs generalizing piece with
  | nil =>
    obtain rfl := List.mem_singleton.1 h
    exact List.not_mem_nil
  | cons c cs ih =>
    rw [segments] at h
    split at h
    · rcases List.mem_cons.1 h with rfl | h
      · exact List.not_mem_nil
      · exact ih h
    next hslash =>
      have hc : c ≠ '/' := fun heq => hslash (beq_iff_eq.2 heq)
      split at h
      next hnil => exact absurd hnil (segments_ne_nil cs)
      next first more hmore =>
        rcases List.mem_cons.1 h with rfl | h
        · have hfirst := ih (hmore ▸ List.mem_cons_self)
          simp [hfirst, Ne.symm hc]
        · exact ih (hmore ▸ List.mem_cons_of_mem _ h)

theorem segments_append_slash {piece : List Char} (h : '/' ∉ piece) (cs : List Char) :
    segments (piece ++ '/' :: cs) = piece :: segments cs := by
  induction piece with
  | nil => rfl
  | cons c piece ih =>
    rw [List.mem_cons, not_or] at h
    rw [List.cons_append, segments, if_neg (by simpa using Ne.symm h.1), ih h.2]

theorem segments_of_not_slash {piece : List Char} (h : '/' ∉ piece) : segments piece = [piece] := by
  induction piece with
  | nil => rfl
  | cons c piece ih =>
    rw [List.mem_cons, not_or] at h
    rw [segments, if_neg (by simpa using Ne.symm h.1), ih h.2]

/-- A path is cut into pieces in one way. -/
theorem segments_of_joinSegments {pieces : List (List Char)} {cs : List Char} (h : joinSegments pieces = '/' :: cs)
    (hpieces : ∀ piece ∈ pieces, '/' ∉ piece) : segments cs = pieces := by
  induction pieces generalizing cs with
  | nil => cases h
  | cons piece pieces ih =>
    rw [joinSegments, List.flatMap_cons, ← joinSegments, List.cons_append, List.cons.injEq] at h
    obtain ⟨-, rfl⟩ := h
    have hpiece := hpieces piece (by simp)
    cases pieces with
    | nil =>
      rw [joinSegments, List.flatMap_nil, List.append_nil]
      exact segments_of_not_slash hpiece
    | cons next pieces =>
      obtain ⟨more, hmore⟩ : ∃ more, joinSegments (next :: pieces) = '/' :: more := ⟨_, rfl⟩
      rw [hmore, segments_append_slash hpiece,
        ih hmore fun p hp => hpieces p (List.mem_cons_of_mem _ hp)]

/-! ## 3. Steps -/

/-- The piece is a step to the directory itself, or to the one above. -/
def IsStep (piece : List Char) : Prop := isDot piece = true ∨ isDotDot piece = true

/-- A step is spelled with four characters. -/
theorem IsStep.chars {piece : List Char} (h : IsStep piece) :
    ∀ c ∈ piece, c.toLower ∈ ['.', '%', '2', 'e'] := by
  have hmap : ∀ chars, piece.map Char.toLower = chars → (∀ c ∈ chars, c ∈ ['.', '%', '2', 'e']) →
      ∀ c ∈ piece, c.toLower ∈ ['.', '%', '2', 'e'] := by
    rintro chars rfl hchars c hc
    exact hchars _ (List.mem_map_of_mem hc)
  rcases h with h | h
  · rw [isDot, Bool.or_eq_true] at h
    rcases h with h | h
    · exact hmap ['.'] (by rw [beq_iff_eq.1 h]; rfl) (by simp)
    · exact hmap _ (beq_iff_eq.1 h) (by simp)
  · unfold isDotDot at h
    split at h
    next hchars => exact hmap _ hchars (by simp)
    next hchars => exact hmap _ hchars (by simp)
    next hchars => exact hmap _ hchars (by simp)
    next hchars => exact hmap _ hchars (by simp)
    next => cases h

/-- A path without steps is followed as it is. -/
theorem followDots_of_no_steps {done pieces : List (List Char)} (h : ∀ piece ∈ pieces, ¬IsStep piece) :
    followDots done pieces = done.reverse ++ pieces := by
  induction pieces generalizing done with
  | nil => simp [followDots]
  | cons piece pieces ih =>
    have hpiece := h piece (by simp)
    rw [IsStep, not_or] at hpiece
    cases pieces with
    | nil => simp [followDots, hpiece]
    | cons next pieces =>
      rw [followDots, if_neg hpiece.2, if_neg hpiece.1, ih fun p hp => h p (List.mem_cons_of_mem _ hp)]
      simp

/-- Following steps makes no piece up, but for the empty one. -/
theorem forall_mem_followDots {P : List Char → Prop} (hnil : P []) {done pieces : List (List Char)}
    (hdone : ∀ piece ∈ done, P piece) (hpieces : ∀ piece ∈ pieces, P piece) :
    ∀ piece ∈ followDots done pieces, P piece := by
  have htail : ∀ piece ∈ done.tail, P piece := fun piece h => hdone piece (List.mem_of_mem_tail h)
  fun_induction followDots done pieces with
  | case1 done => simpa using hdone
  | case2 done segment hstep => simpa [or_imp, forall_and, hnil] using htail
  | case3 done segment => simpa [or_imp, forall_and, hnil] using hdone
  | case4 done segment =>
    have hsegment := hpieces segment (by simp)
    simpa [or_imp, forall_and, hsegment] using hdone
  | case5 done segment next rest hstep ih =>
    exact ih htail (fun piece h => hpieces piece (List.mem_cons_of_mem _ h))
      fun piece h => htail piece (List.mem_of_mem_tail h)
  | case6 done segment next rest hstep hdot ih =>
    exact ih hdone (fun piece h => hpieces piece (List.mem_cons_of_mem _ h)) htail
  | case7 done segment next rest hstep hdot ih =>
    exact ih (List.forall_mem_cons.2 ⟨hpieces segment (by simp), hdone⟩)
      (fun piece h => hpieces piece (List.mem_cons_of_mem _ h)) hdone

/-- Following a step loses a piece, but for the last one. -/
theorem length_followDots (done pieces : List (List Char)) :
    (followDots done pieces).length ≤ done.length + pieces.length ∧
      ((followDots done pieces).length = done.length + pieces.length →
        ∀ piece ∈ pieces.dropLast, ¬IsStep piece) := by
  fun_induction followDots done pieces with
  | case1 done => simp
  | case2 done segment hstep => simp
  | case3 done segment => simp
  | case4 done segment => simp
  | case5 done segment next rest hstep ih =>
    simp only [List.length_tail, List.length_cons] at ih ⊢
    refine ⟨by omega, fun heq => ?_⟩
    omega
  | case6 done segment next rest hstep hdot ih =>
    simp only [List.length_cons] at ih ⊢
    refine ⟨by omega, fun heq => ?_⟩
    omega
  | case7 done segment next rest hstep hdot ih =>
    simp only [List.length_cons] at ih ⊢
    refine ⟨by omega, fun heq => ?_⟩
    rw [List.dropLast_cons_cons]
    have hrest := ih.2 (by omega)
    have hsegment : ¬IsStep segment := by simp [IsStep, hstep, hdot]
    exact List.forall_mem_cons.2 ⟨hsegment, hrest⟩

/-! ## 4. Suffixes -/

/-- A letter, a digit, a point or an underscore. -/
def isPlain (c : Char) : Bool := c.isAlphanum || c == '.' || c == '_'

/-- Whether a character is spelled as it is in every part of an address, and is neither a mark nor a blank. -/
def isUnchanged (c : Char) : Bool :=
  !(pathSet c || querySet true c || c == '/' || c == '\\' || decide (c.val ≤ 0x20))

theorem isUnchanged_of_isPlain {c : Char} (h : isPlain c = true) : isUnchanged c = true := by
  have hlt : c.toNat < 128 := by
    have hval : c.val ≤ 127 := by
      simp only [isPlain, Bool.or_eq_true, beq_iff_eq] at h
      rcases h with (h | rfl) | rfl
      · exact Char.utf8Size_eq_one_iff.1 (utf8Size_of_isAlphanum h)
      · decide
      · decide
    exact Nat.lt_succ_of_le (UInt32.le_iff_toNat_le.1 hval)
  have hall : ∀ n < 128, isPlain (Char.ofNat n) = true → isUnchanged (Char.ofNat n) = true := by
    decide
  have hc := hall c.toNat hlt
  rw [Char.ofNat_toNat] at hc
  exact hc h

@[simp] theorem encode_nil (set : Char → Bool) : encode set [] = [] := rfl

theorem encode_eq_self {set : Char → Bool} {cs : List Char} (h : ∀ c ∈ cs, set c = false) :
    encode set cs = cs := by
  induction cs with
  | nil => rfl
  | cons c cs ih =>
    have hrest := ih fun d hd => h d (List.mem_cons_of_mem _ hd)
    rw [encode] at hrest
    rw [encode, List.flatMap_cons, hrest, encodeChar, h c (by simp)]
    rfl

section

variable {suffix : List Char} (hplain : ∀ c ∈ suffix, isPlain c = true)
include hplain

/-- A plain suffix is spelled as it is. -/
theorem encode_of_isPlain {set : Char → Bool}
    (hset : ∀ c, isUnchanged c = true → set c = false) : encode set suffix = suffix :=
  encode_eq_self fun c hc => hset c (isUnchanged_of_isPlain (hplain c hc))

theorem cleanSuffix_of_isPlain : cleanSuffix suffix = suffix := by
  have hblank : ∀ c ∈ suffix, ¬c.val ≤ 0x20 := by
    intro c hc
    have := isUnchanged_of_isPlain (hplain c hc)
    simp_all [isUnchanged]
  have hdrop : suffix.reverse.dropWhile (fun c => decide (c.val ≤ 0x20)) = suffix.reverse := by
    cases hreverse : suffix.reverse with
    | nil => rfl
    | cons c cs =>
      have hc := hblank c (List.mem_reverse.1 (hreverse ▸ List.mem_cons_self))
      rw [List.dropWhile_cons_of_neg (by simpa using hc)]
  rw [cleanSuffix, hdrop, List.reverse_reverse, List.filter_eq_self]
  intro c hc
  have hc := hblank c hc
  simp only [Bool.not_eq_true', Bool.or_eq_false_iff, beq_eq_false_iff_ne]
  refine ⟨⟨?_, ?_⟩, ?_⟩
  · rintro rfl
    exact hc (by decide)
  · rintro rfl
    exact hc (by decide)
  · rintro rfl
    exact hc (by decide)

/-- A plain suffix opens no query and no fragment. -/
theorem takeWhile_of_isPlain {mark : Char} (hmark : isUnchanged mark = false) :
    suffix.takeWhile (· != mark) = suffix ∧ suffix.dropWhile (· != mark) = [] := by
  have hne : ∀ c ∈ suffix, (c != mark) = true := by
    intro c hc
    rw [bne_iff_ne]
    rintro rfl
    rw [isUnchanged_of_isPlain (hplain c hc)] at hmark
    cases hmark
  exact ⟨List.takeWhile_eq_self_iff.2 hne, List.dropWhile_eq_nil_iff.2 hne⟩

end

/-! ## 5. Normal forms -/

/-- The path of an address in normal form is followed as it is. -/
theorem IsNormal.followDots_segments {u : Uri} (h : u.IsNormal) (hquery : u.parts.query = [])
    (hfragment : u.parts.fragment = []) {rest : List Char} (hpath : u.parts.path = '/' :: rest) :
    followDots [] (segments rest) = segments rest := by
  have htext : u.parts.base ++ joinSegments (followDots [] (segments rest)) = u.text.toList := by
    have hread := congrArg (fun v : Uri => v.text.toList) h
    simpa [append, hquery, hfragment, hpath, extendPath, cleanSuffix] using hread
  rw [← u.parts_append, hquery, hfragment, hpath, List.append_nil, List.append_nil,
    List.append_cancel_left_eq] at htext
  have hslash : ∀ piece ∈ followDots [] (segments rest), '/' ∉ piece :=
    forall_mem_followDots List.not_mem_nil (fun _ h => absurd h List.not_mem_nil)
      fun _ hpiece => not_slash_of_mem_segments hpiece
  exact (segments_of_joinSegments htext hslash).symm

/-- **A plain suffix stands behind the path**, if it keeps the last piece from being a step. -/
theorem extendPath_of_followDots {rest suffix : List Char} (special : Bool)
    (h : followDots [] (segments rest) = segments rest) (hplain : ∀ c ∈ suffix, isPlain c = true)
    (hword : ∃ c ∈ suffix, c.toLower ∉ ['.', '%', '2', 'e']) :
    extendPath special ('/' :: rest) suffix = '/' :: rest ++ suffix := by
  have hunchanged : ∀ c ∈ suffix, isUnchanged c = true := fun c hc => isUnchanged_of_isPlain (hplain c hc)
  have hbackslash : (if special then suffix.map fun c => if c == '\\' then '/' else c else suffix) = suffix := by
    split
    · refine (List.map_congr_left fun c hc => if_neg fun hback => ?_).trans (List.map_id suffix)
      rw [beq_iff_eq.1 hback] at hc
      exact absurd (hunchanged _ hc) (by decide)
    · rfl
  have hslash : '/' ∉ suffix := fun hc => absurd (hunchanged _ hc) (by decide)
  have hencode : encode pathSet suffix = suffix :=
    encode_of_isPlain hplain fun c hc => by simp_all [isUnchanged]
  obtain ⟨front, last, hfront⟩ : ∃ front last, segments rest = front ++ [last] :=
    ⟨_, _, (List.dropLast_concat_getLast (segments_ne_nil rest)).symm⟩
  have hsteps : ∀ piece ∈ front, ¬IsStep piece := by
    have hlength := (length_followDots [] (segments rest)).2 (by rw [h]; simp)
    simpa [hfront] using hlength
  have hlast : ¬IsStep (last ++ suffix) := by
    obtain ⟨c, hc, hnot⟩ := hword
    exact fun hstep => hnot (hstep.chars c (List.mem_append_right _ hc))
  have hjoin : joinSegments (front ++ [last ++ suffix]) = '/' :: (rest ++ suffix) := by
    have hrest := joinSegments_segments rest
    rw [hfront] at hrest
    simp only [joinSegments, List.flatMap_append, List.flatMap_cons, List.flatMap_nil, List.append_nil] at hrest ⊢
    rw [← List.cons_append, ← List.append_assoc, hrest, List.cons_append]
  have hpieces : segments (rest ++ suffix) = front ++ [last ++ suffix] := by
    refine segments_of_joinSegments hjoin ?_
    intro piece hpiece
    have hmem : ∀ p ∈ front ++ [last], '/' ∉ p := fun p hp => not_slash_of_mem_segments (hfront ▸ hp)
    rcases List.mem_append.1 hpiece with hp | hp
    · exact hmem piece (List.mem_append_left _ hp)
    · rw [List.mem_singleton.1 hp, List.mem_append, not_or]
      exact ⟨hmem last (by simp), hslash⟩
  have hfollow : followDots [] (segments (rest ++ suffix)) = front ++ [last ++ suffix] := by
    rw [hpieces, followDots_of_no_steps]
    · rfl
    · intro piece hpiece
      rcases List.mem_append.1 hpiece with hp | hp
      · exact hsteps piece hp
      · exact List.mem_singleton.1 hp ▸ hlast
  rw [extendPath, hbackslash, hencode, hfollow, hjoin, List.cons_append]

/-- **A plain suffix of an address in normal form is kept as it is written**, if it holds a character that no step
holds. -/
theorem IsNormal.append_text {u : Uri} (h : u.IsNormal) {suffix : String}
    (hplain : ∀ c ∈ suffix.toList, isPlain c = true)
    (hword : ∃ c ∈ suffix.toList, c.toLower ∉ ['.', '%', '2', 'e']) :
    (u.append suffix).text = u.text ++ suffix := by
  have hclean := cleanSuffix_of_isPlain hplain
  obtain ⟨htake, hdrop⟩ := takeWhile_of_isPlain hplain (show isUnchanged '#' = false by decide)
  obtain ⟨htake', hdrop'⟩ := takeWhile_of_isPlain hplain (show isUnchanged '?' = false by decide)
  have hfragment : encode fragmentSet suffix.toList = suffix.toList :=
    encode_of_isPlain hplain fun c hc => by simp_all [isUnchanged, pathSet]
  have hquery : encode (querySet u.parts.special) suffix.toList = suffix.toList :=
    encode_of_isPlain hplain fun c hc => by simp_all [isUnchanged, querySet]
  have hcontrol : encode isControl suffix.toList = suffix.toList :=
    encode_of_isPlain hplain fun c hc => by simp_all [isUnchanged, pathSet, fragmentSet]
  have htext := u.parts_append
  refine String.toList_injective ?_
  rw [String.toList_append, ← htext]
  simp only [append, hclean, htake, hdrop, htake', hdrop', String.toList_ofList, List.drop_nil, Nat.lt_irrefl,
    if_false, List.append_assoc]
  split
  · rw [hfragment]
  split
  next hnone hsome =>
    simp only [ne_eq, bne_iff_ne, not_not] at hnone
    simp [hquery, hnone]
  next hnone hnone' =>
    simp only [ne_eq, bne_iff_ne, not_not] at hnone hnone'
    have hpath : extendPath u.parts.special u.parts.path suffix.toList = u.parts.path ++ suffix.toList := by
      cases hpath : u.parts.path with
      | nil => simpa [extendPath] using hcontrol
      | cons c rest =>
        by_cases hc : c = '/'
        · subst hc
          exact extendPath_of_followDots _ (h.followDots_segments hnone' hnone hpath) hplain hword
        · simp [extendPath, hc, hcontrol]
    simp [hpath, hnone, hnone']

end ComponentLens.Uri
