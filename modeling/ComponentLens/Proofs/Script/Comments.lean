/-
# Comments in template literals

The code of a substitution may hold comments, and a comment may run over a line break.  The reader of a template
literal reports whether it has passed such a comment (`TemplateReading.sawBreak`).

`LayerComments` lists the comments of a text along the grammar of `LayerText`.  Reading a text of the grammar
reports a line break exactly if one of the comments listed holds one (`LayerComments.readsOff`), and every
literal that is read is a text of the grammar, so `sawBreak_iff` says what the report means.
-/
import ComponentLens.Proofs.Script.Literals

namespace ComponentLens.Script

/-! ## 1. Comments of a text -/

/-- The comments in the code of a layer and of the literals nested in it, in the order of the text. -/
inductive LayerComments : Layer → List Char → List (List Char) → Prop where
  | nil {layer : Layer} : LayerComments layer [] []
  | plain {c : Char} {cs : List Char} {comments : List (List Char)} (hquote : c ≠ '`') (hslash : c ≠ '\\')
      (hopen : ¬ ['$', '{'] <+: c :: cs) (hcs : LayerComments .own cs comments) :
      LayerComments .own (c :: cs) comments
  | escape {c : Char} {cs : List Char} {comments : List (List Char)} (hcs : LayerComments .own cs comments) :
      LayerComments .own ('\\' :: c :: cs) comments
  | substitution {inside cs : List Char} {inner comments : List (List Char)}
      (hinside : LayerComments .substitution inside inner) (hcs : LayerComments .own cs comments) :
      LayerComments .own ('$' :: '{' :: (inside ++ '}' :: cs)) (inner ++ comments)
  | code {c : Char} {cs : List Char} {comments : List (List Char)} (hmark : c ∉ ['{', '}', '"', '\'', '`'])
      (hopen : ¬ ['/', '*'] <+: c :: cs) (hcs : LayerComments .substitution cs comments) :
      LayerComments .substitution (c :: cs) comments
  | braces {inside cs : List Char} {inner comments : List (List Char)}
      (hinside : LayerComments .substitution inside inner) (hcs : LayerComments .substitution cs comments) :
      LayerComments .substitution ('{' :: (inside ++ '}' :: cs)) (inner ++ comments)
  | string {quote : Char} {inside cs : List Char} {comments : List (List Char)}
      (hquote : quote = '"' ∨ quote = '\'') (hinside : StringText quote inside)
      (hcs : LayerComments .substitution cs comments) :
      LayerComments .substitution (quote :: (inside ++ quote :: cs)) comments
  | template {inside cs : List Char} {inner comments : List (List Char)}
      (hinside : LayerComments .own inside inner) (hcs : LayerComments .substitution cs comments) :
      LayerComments .substitution ('`' :: (inside ++ '`' :: cs)) (inner ++ comments)
  | comment {inside cs : List Char} {comments : List (List Char)} (hinside : ¬ ['*', '/'] <:+: inside)
      (hcs : LayerComments .substitution cs comments) :
      LayerComments .substitution ('/' :: '*' :: (inside ++ '*' :: '/' :: cs)) (inside :: comments)

/-- Every text of a layer has its comments listed. -/
theorem LayerText.exists_comments {layer : Layer} {text : List Char} (h : LayerText layer text) :
    ∃ comments, LayerComments layer text comments := by
  induction h with
  | nil => exact ⟨_, .nil⟩
  | plain hquote hslash hopen _ ih =>
    obtain ⟨_, hcs⟩ := ih
    exact ⟨_, .plain hquote hslash hopen hcs⟩
  | escape _ ih =>
    obtain ⟨_, hcs⟩ := ih
    exact ⟨_, .escape hcs⟩
  | substitution _ _ ihinside ih =>
    obtain ⟨_, hinside⟩ := ihinside
    obtain ⟨_, hcs⟩ := ih
    exact ⟨_, .substitution hinside hcs⟩
  | code hmark hopen _ ih =>
    obtain ⟨_, hcs⟩ := ih
    exact ⟨_, .code hmark hopen hcs⟩
  | braces _ _ ihinside ih =>
    obtain ⟨_, hinside⟩ := ihinside
    obtain ⟨_, hcs⟩ := ih
    exact ⟨_, .braces hinside hcs⟩
  | string hquote hinside _ ih =>
    obtain ⟨_, hcs⟩ := ih
    exact ⟨_, .string hquote hinside hcs⟩
  | template _ _ ihinside ih =>
    obtain ⟨_, hinside⟩ := ihinside
    obtain ⟨_, hcs⟩ := ih
    exact ⟨_, .template hinside hcs⟩
  | comment hinside _ ih =>
    obtain ⟨_, hcs⟩ := ih
    exact ⟨_, .comment hinside hcs⟩

/-! ## 2. What the reader reports -/

/-- Whether one of the comments runs over a line break. -/
def runOver (comments : List (List Char)) : Bool := comments.any (·.contains '\n')

@[simp] theorem runOver_nil : runOver [] = false := rfl

@[simp] theorem runOver_cons (comment : List Char) (comments : List (List Char)) :
    runOver (comment :: comments) = (comment.contains '\n' || runOver comments) := rfl

@[simp] theorem runOver_append (inner comments : List (List Char)) :
    runOver (inner ++ comments) = (runOver inner || runOver comments) := List.any_append

theorem runOver_iff {comments : List (List Char)} :
    runOver comments = true ↔ ∃ comment ∈ comments, '\n' ∈ comment := by
  simp [runOver]

/-- The frames are open in front of the text, are closed where `rest` starts, and the report is `broken`. -/
def ReadsOff (frames : List Frame) (cs rest : List Char) (broken : Bool) : Prop :=
  ∀ pos, ∃ r, readTemplate frames pos cs = .ok r ∧ r.rest = rest ∧ r.sawBreak = broken

theorem ReadsOff.of_map {frames : List Frame} {cs rest : List Char} (seen : Bool) {broken : Bool}
    (hstep : ∀ pos, ∃ inner next more before, ReadsOff inner more rest broken ∧
      readTemplate frames pos cs = (readTemplate inner next more).map (·.prepend before seen)) :
    ReadsOff frames cs rest (seen || broken) := by
  intro pos
  obtain ⟨inner, next, more, before, h, hread⟩ := hstep pos
  obtain ⟨r, hr, hrest, hbroken⟩ := h next
  rw [hr] at hread
  exact ⟨r.prepend before seen, hread, hrest, by rw [← hbroken]; rfl⟩

/-- **A text of a layer is read** up to the end of the layer, and the report is that of its comments. -/
theorem LayerComments.readsOff {layer : Layer} {body : List Char} {comments : List (List Char)}
    (h : LayerComments layer body comments) {frames outer : List Frame} (hleaves : Leaves layer frames outer)
    {cs rest : List Char} {broken : Bool} (hcs : ReadsOff outer cs rest broken) :
    ReadsOff frames (body ++ layer.closer :: cs) rest (runOver comments || broken) := by
  induction h generalizing frames outer cs broken with
  | nil => exact .of_map _ fun pos => ⟨_, _, _, _, hcs, readTemplate_leaves hleaves pos⟩
  | plain hquote hslash hopen _ ih =>
    have hopen := not_prefix_append_closer Layer.own.closer (by decide) hopen cs
    cases hleaves
    exact .of_map false fun pos =>
      ⟨_, _, _, _, ih .own hcs, readTemplate_plain hquote hslash hopen pos⟩
  | escape _ ih =>
    cases hleaves
    exact .of_map false fun pos => ⟨_, _, _, _, ih .own hcs, readTemplate_escape pos⟩
  | substitution _ _ ihinside ih =>
    cases hleaves
    rw [List.cons_append, List.cons_append, List.append_assoc, runOver_append, Bool.or_assoc]
    exact .of_map false fun pos =>
      ⟨_, _, _, _, ihinside .substitution (ih .own hcs), readTemplate_opens pos⟩
  | code hmark hopen _ ih =>
    have hopen := not_prefix_append_closer Layer.substitution.closer (by decide) hopen cs
    cases hleaves
    exact .of_map false fun pos =>
      ⟨_, _, _, _, ih .substitution hcs, readTemplate_code hmark hopen pos⟩
  | braces _ _ ihinside ih =>
    cases hleaves
    rw [List.cons_append, List.append_assoc, runOver_append, Bool.or_assoc]
    exact .of_map false fun pos =>
      ⟨_, _, _, _, ihinside .substitution (ih .substitution hcs), readTemplate_brace pos⟩
  | string hquote hinside _ ih =>
    cases hleaves
    rw [List.cons_append, List.append_assoc]
    exact .of_map false fun pos =>
      ⟨_, _, _, _, ih .substitution hcs, readTemplate_string hquote hinside pos⟩
  | template _ _ ihinside ih =>
    cases hleaves
    rw [List.cons_append, List.append_assoc, runOver_append, Bool.or_assoc]
    -- the frame of the nested literal depends on where the literal starts
    exact .of_map false fun pos =>
      ⟨_, _, _, _, ihinside .own (ih .substitution hcs), readTemplate_template pos⟩
  | comment hinside _ ih =>
    rename_i inside _ _ _
    cases hleaves
    have hbreak : (inside ++ ['*', '/']).contains '\n' = inside.contains '\n' := by simp
    rw [List.cons_append, List.cons_append, List.append_assoc, runOver_cons, Bool.or_assoc, ← hbreak]
    exact .of_map _ fun pos => ⟨_, _, _, _, ih .substitution hcs, readTemplate_comment hinside pos⟩

/-- Between the backquotes stands a text with a comment that runs over a line break. -/
def BreaksInComment (literal : List Char) : Prop :=
  ∃ body comments, literal = '`' :: (body ++ ['`']) ∧ LayerComments .own body comments ∧
    ∃ comment ∈ comments, '\n' ∈ comment

/-- **The report about a literal** says whether one of its comments runs over a line break. -/
theorem sawBreak_iff {start pos : Nat} {cs : List Char} {r : TemplateReading}
    (h : readTemplate [⟨start, 0⟩] pos cs = .ok r) :
    r.sawBreak = true ↔ BreaksInComment ('`' :: r.taken) := by
  have hreport : ∀ body comments, r.taken = body ++ ['`'] → LayerComments .own body comments →
      r.sawBreak = runOver comments := by
    intro body comments htaken hcomments
    have hempty : ReadsOff [] r.rest r.rest false := fun pos => ⟨⟨[], r.rest, false⟩, by simp [readTemplate]⟩
    obtain ⟨r', hr', -, hbroken⟩ := hcomments.readsOff (@Leaves.own start []) hempty pos
    have hcs : body ++ '`' :: r.rest = cs := by rw [← readTemplate_append h, htaken, List.append_assoc]; rfl
    rw [show Layer.own.closer = '`' from rfl, hcs, h] at hr'
    cases hr'
    rw [hbroken, Bool.or_false]
  constructor
  · intro hsaw
    obtain ⟨body, more, htaken, hbody, hmore⟩ := (Closes.of_readTemplate r h).of_own
    cases hmore with
    | nil =>
      obtain ⟨comments, hcomments⟩ := hbody.exists_comments
      rw [hreport body comments htaken hcomments, runOver_iff] at hsaw
      exact ⟨body, comments, by rw [htaken], hcomments, hsaw⟩
    | leave hleaves => cases hleaves
  · rintro ⟨body, comments, htaken, hcomments, hbreak⟩
    rw [hreport body comments (List.cons.inj htaken).2 hcomments, runOver_iff]
    exact hbreak

end ComponentLens.Script
