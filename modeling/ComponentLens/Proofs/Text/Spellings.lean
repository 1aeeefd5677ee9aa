/-
# Two spellings of one name

A property has a name in camel case, and markup may write it with hyphens.  The scanner that puts hyphens in looks
at the character before, the one that takes them out at the character after.  On the names below each undoes the
other: what stands before a capital is a name part, so it gets a hyphen, and what stands behind that hyphen is a
name part, so it gets its capital back.

`isPropName` and `isHyphenated` say which names these are.  A name that starts with a capital is none of
them, since nothing before it would get a hyphen; nor is one with a hyphen before a digit, which has no capital.

The result is `spellings_agree`.  Its last part is what a rename relies on: in whichever spelling an attribute was
written, the spelling that the edit gives it has the new name for its key.
-/
import ComponentLens.Mapping.Payload
import ComponentLens.Virtual.Name

namespace ComponentLens.Naming

/-! ## 1. The names -/

/-- A lower case letter or an underscore, and then letters, digits and underscores. -/
def isPropName : List Char → Bool
  | [] => false
  | c :: cs => (c.isLower || c == '_') && cs.all isNamePart

/-- Lower case letters, digits and underscores, with a hyphen only before a lower case letter. -/
def isHyphenatedTail : List Char → Bool
  | [] => true
  | '-' :: c :: cs => c.isLower && isHyphenatedTail cs
  | c :: cs => (c.isLower || c.isDigit || c == '_') && isHyphenatedTail cs

/-- A lower case letter or an underscore, and then words in lower case that hyphens join. -/
def isHyphenated : List Char → Bool
  | [] => false
  | c :: cs => (c.isLower || c == '_') && isHyphenatedTail cs

/-! ## 2. Characters -/

/-- What holds of the first 128 code points holds of the characters among them. -/
theorem forall_ascii {P : Char → Prop} (h : ∀ n < 128, P (Char.ofNat n)) {c : Char} (hc : c.toNat < 128) :
    P c := by
  simpa using h c.toNat hc

theorem isNamePart_eq (c : Char) : isNamePart c = (c.isUpper || c.isLower || c.isDigit || c == '_') := rfl

theorem toNat_lt_of_isNamePart {c : Char} (h : isNamePart c = true) : c.toNat < 128 := by
  have hbound : ∀ high : Char, high.toNat < 128 → c.val ≤ high.val → c.toNat < 128 :=
    fun _ hhigh hle => Nat.lt_of_le_of_lt (UInt32.le_iff_toNat_le.1 hle) hhigh
  rw [isNamePart_eq, Bool.or_eq_true, Bool.or_eq_true, Bool.or_eq_true, beq_iff_eq] at h
  rcases h with ((hupper | hlower) | hdigit) | rfl
  · exact hbound 'Z' (by decide) (of_decide_eq_true hupper).2
  · exact hbound 'z' (by decide) (of_decide_eq_true (Bool.and_eq_true_iff.1 hlower).2)
  · exact hbound '9' (by decide) (of_decide_eq_true (Bool.and_eq_true_iff.1 hdigit).2)
  · decide

theorem upper_of_lt {c : Char} (h : c.toNat < 128) : LetterCase.upper c = [c.toUpper] := if_pos h

theorem lower_of_lt {c : Char} (h : c.toNat < 128) : LetterCase.lower c = [c.toLower] := if_pos h

theorem isNamePart_of_isUpper {c : Char} (h : c.isUpper = true) : isNamePart c = true := by
  simp [isNamePart_eq, h]

theorem isNamePart_of_isLower {c : Char} (h : c.isLower = true) : isNamePart c = true := by
  simp [isNamePart_eq, h]

/-- A capital comes back when it is lowered and raised. -/
theorem toLower_of_isUpper {c : Char} (h : c.isUpper = true) :
    isNamePart c.toLower = true ∧ c.toLower.isUpper = false ∧ c.toLower.toUpper = c := by
  have hlt := toNat_lt_of_isNamePart (isNamePart_of_isUpper h)
  revert h
  exact forall_ascii (P := fun c => c.isUpper = true →
    isNamePart c.toLower = true ∧ c.toLower.isUpper = false ∧ c.toLower.toUpper = c) (by decide) hlt

/-- A lower case letter comes back when it is raised and lowered. -/
theorem toUpper_of_isLower {c : Char} (h : c.isLower = true) :
    c.toUpper.isUpper = true ∧ c.toUpper.toLower = c := by
  have hlt := toNat_lt_of_isNamePart (isNamePart_of_isLower h)
  revert h
  exact forall_ascii (P := fun c => c.isLower = true → c.toUpper.isUpper = true ∧ c.toUpper.toLower = c)
    (by decide) hlt

/-- A name part that is no capital is lowered already. -/
theorem toLower_of_not_isUpper {c : Char} (h : isNamePart c = true) (hupper : c.isUpper = false) :
    c.toLower = c := by
  revert hupper
  exact forall_ascii (P := fun c => c.isUpper = false → c.toLower = c) (by decide) (toNat_lt_of_isNamePart h)

/-- What stands in a hyphenated name beside hyphens. -/
theorem isNamePart_of_hyphenated {c : Char} (h : (c.isLower || c.isDigit || c == '_') = true) :
    isNamePart c = true ∧ c.isUpper = false := by
  have hpart : isNamePart c = true := by
    rw [isNamePart_eq]
    simp only [Bool.or_eq_true] at h ⊢
    exact h.imp_left (.imp_left .inr)
  refine ⟨hpart, ?_⟩
  have hlt := toNat_lt_of_isNamePart hpart
  revert h
  exact forall_ascii (P := fun c => (c.isLower || c.isDigit || c == '_') = true → c.isUpper = false)
    (by decide) hlt

/-- What a name may start with. -/
theorem isNamePart_of_start {c : Char} (h : (c.isLower || c == '_') = true) :
    isNamePart c = true ∧ c.isUpper = false := by
  refine isNamePart_of_hyphenated ?_
  simp only [Bool.or_eq_true] at h ⊢
  exact h.imp_left .inl

theorem ne_hyphen_of_isNamePart {c : Char} (h : isNamePart c = true) : c ≠ '-' := by
  rintro rfl
  revert h
  decide

/-! ## 3. Out and in again -/

theorem camelChars_cons {c : Char} (h : c ≠ '-') (cs : List Char) :
    camelChars (c :: cs) = c :: camelChars cs := by
  rw [camelChars]
  exact fun _ _ heq => absurd heq h

theorem camelChars_hyphen {c : Char} (h : isNamePart c = true) (cs : List Char) :
    camelChars ('-' :: c :: cs) = c.toUpper :: camelChars cs := by
  rw [camelChars, if_pos h, upper_of_lt (toNat_lt_of_isNamePart h)]
  rfl

theorem hyphenChars_hyphen (afterPart : Bool) (cs : List Char) :
    hyphenChars afterPart ('-' :: cs) = '-' :: hyphenChars false cs := rfl

/-- A name part that is no capital stays as it is. -/
theorem hyphenChars_cons_part {c : Char} (h : isNamePart c = true) (hupper : c.isUpper = false)
    (afterPart : Bool) (cs : List Char) : hyphenChars afterPart (c :: cs) = c :: hyphenChars true cs := by
  rw [hyphenChars, lower_of_lt (toNat_lt_of_isNamePart h), toLower_of_not_isUpper h hupper, hupper, h]
  rfl

/-- A capital behind a name part gets a hyphen and is lowered. -/
theorem hyphenChars_cons_upper {c : Char} (h : c.isUpper = true) (cs : List Char) :
    hyphenChars true (c :: cs) = '-' :: c.toLower :: hyphenChars true cs := by
  have hpart := isNamePart_of_isUpper h
  rw [hyphenChars, lower_of_lt (toNat_lt_of_isNamePart hpart), h, hpart]
  rfl

/-- **Behind a name part**, taking the hyphens out undoes putting them in. -/
theorem camelChars_hyphenChars {cs : List Char} (h : cs.all isNamePart = true) :
    camelChars (hyphenChars true cs) = cs := by
  induction cs with
  | nil => rfl
  | cons c cs ih =>
    obtain ⟨hc, hcs⟩ : isNamePart c = true ∧ cs.all isNamePart = true := by simpa using h
    cases hupper : c.isUpper with
    | true =>
      obtain ⟨hpart, -, hback⟩ := toLower_of_isUpper hupper
      rw [hyphenChars_cons_upper hupper, camelChars_hyphen hpart, hback, ih hcs]
    | false =>
      rw [hyphenChars_cons_part hc hupper, camelChars_cons (ne_hyphen_of_isNamePart hc), ih hcs]

/-- Where hyphens have been put in, none is missing. -/
theorem hyphenChars_hyphenChars {cs : List Char} (h : cs.all isNamePart = true) (afterPart : Bool) :
    hyphenChars afterPart (hyphenChars true cs) = hyphenChars true cs := by
  induction cs generalizing afterPart with
  | nil => rfl
  | cons c cs ih =>
    obtain ⟨hc, hcs⟩ : isNamePart c = true ∧ cs.all isNamePart = true := by simpa using h
    cases hupper : c.isUpper with
    | true =>
      obtain ⟨hpart, hlower, -⟩ := toLower_of_isUpper hupper
      rw [hyphenChars_cons_upper hupper, hyphenChars_hyphen, hyphenChars_cons_part hpart hlower, ih hcs]
    | false =>
      rw [hyphenChars_cons_part hc hupper, hyphenChars_cons_part hc hupper, ih hcs]

/-- **Behind a name part**, putting hyphens in undoes taking them out. -/
theorem hyphenChars_camelChars {cs : List Char} (h : isHyphenatedTail cs = true) :
    hyphenChars true (camelChars cs) = cs := by
  fun_induction isHyphenatedTail cs with
  | case1 => rfl
  | case2 c cs ih =>
    obtain ⟨hc, hcs⟩ := Bool.and_eq_true_iff.1 h
    obtain ⟨hupper, hback⟩ := toUpper_of_isLower hc
    rw [camelChars_hyphen (isNamePart_of_isLower hc), hyphenChars_cons_upper hupper, hback, ih hcs]
  | case3 c cs _ ih =>
    obtain ⟨hc, hcs⟩ := Bool.and_eq_true_iff.1 h
    obtain ⟨hpart, hlower⟩ := isNamePart_of_hyphenated hc
    rw [camelChars_cons (ne_hyphen_of_isNamePart hpart), hyphenChars_cons_part hpart hlower, ih hcs]

/-! ## 4. Whole names -/

theorem camelize_hyphenate {n : String} (h : isPropName n.toList = true) : camelize (hyphenate n) = n := by
  cases hn : n.toList with
  | nil => simp [hn, isPropName] at h
  | cons c cs =>
    rw [hn] at h
    obtain ⟨hc, hcs⟩ := Bool.and_eq_true_iff.1 h
    obtain ⟨hpart, hlower⟩ := isNamePart_of_start hc
    have hchars : camelChars (hyphenChars false n.toList) = n.toList := by
      rw [hn, hyphenChars_cons_part hpart hlower, camelChars_cons (ne_hyphen_of_isNamePart hpart),
        camelChars_hyphenChars hcs]
    rw [camelize, hyphenate, String.toList_ofList, hchars, String.ofList_toList]

theorem hyphenate_hyphenate {n : String} (h : isPropName n.toList = true) :
    hyphenate (hyphenate n) = hyphenate n := by
  cases hn : n.toList with
  | nil => simp [hn, isPropName] at h
  | cons c cs =>
    rw [hn] at h
    obtain ⟨hc, hcs⟩ := Bool.and_eq_true_iff.1 h
    obtain ⟨hpart, hlower⟩ := isNamePart_of_start hc
    rw [hyphenate, hyphenate, String.toList_ofList, hn, hyphenChars_cons_part hpart hlower,
      hyphenChars_cons_part hpart hlower, hyphenChars_hyphenChars hcs]

theorem hyphenate_camelize {k : String} (h : isHyphenated k.toList = true) : hyphenate (camelize k) = k := by
  cases hk : k.toList with
  | nil => simp [hk, isHyphenated] at h
  | cons c cs =>
    rw [hk] at h
    obtain ⟨hc, hcs⟩ := Bool.and_eq_true_iff.1 h
    obtain ⟨hpart, hlower⟩ := isNamePart_of_start hc
    have hchars : hyphenChars false (camelChars k.toList) = k.toList := by
      rw [hk, camelChars_cons (ne_hyphen_of_isNamePart hpart), hyphenChars_cons_part hpart hlower,
        hyphenChars_camelChars hcs]
    rw [hyphenate, camelize, String.toList_ofList, hchars, String.ofList_toList]

/-- **The key of an edited attribute.**  The edit writes the new name as the old one was spelled, and both
spellings have the new name for their key. -/
theorem propKey_apply {n : String} (h : isPropName n.toList = true) (old : String) :
    Virtual.propKey (EditTransform.keepHyphenation.apply old n) = n := by
  unfold EditTransform.apply Virtual.propKey
  by_cases hold : hyphenate old = old
  · -- the edit writes hyphens, and the key takes them out
    simp [hold, hyphenate_hyphenate h, camelize_hyphenate h]
  · by_cases hn : hyphenate n = n
    · have hback := camelize_hyphenate h
      rw [hn] at hback
      simp [hold, hn, hback]
    · simp [hold, hn]

/-- **The spellings of a property agree.**  For a name in camel case, an edit in either spelling has the name for
its key, and taking hyphens out undoes putting them in; for a hyphenated name it is the other way round. -/
theorem spellings_agree :
    (∀ n : String, isPropName n.toList = true →
      (∀ old, Virtual.propKey (EditTransform.keepHyphenation.apply old n) = n) ∧
        camelize (hyphenate n) = n) ∧
    ∀ k : String, isHyphenated k.toList = true → hyphenate (camelize k) = k :=
  ⟨fun _ h => ⟨propKey_apply h, camelize_hyphenate h⟩, fun _ => hyphenate_camelize⟩

/-- Capitals in a row, digits and underscores are names too. -/
theorem spellings_agree_ids :
    (Virtual.propKey (EditTransform.keepHyphenation.apply "foo-bar" "userIDs2_X") = "userIDs2_X" ∧
      camelize (hyphenate "userIDs2_X") = "userIDs2_X") ∧
    hyphenate (camelize "user-i-ds2_-x") = "user-i-ds2_-x" := by
  have hname : isPropName "userIDs2_X".toList = true := by decide
  have hhyphenated : isHyphenated "user-i-ds2_-x".toList = true := by decide
  obtain ⟨hkey, hcamel⟩ := spellings_agree.1 "userIDs2_X" hname
  exact ⟨⟨hkey "foo-bar", hcamel⟩, spellings_agree.2 "user-i-ds2_-x" hhyphenated⟩

end ComponentLens.Naming
