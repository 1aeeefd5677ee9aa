/-
# Props as they are written

The members of a literal are recognised by what stands between them: one starts behind a comma or a
semicolon outside brackets, or on a new line that does not go on from the one before.  Here a literal is a
list of entries (`Entry`), and `readKeys` says which keys are read off their tokens.  Angle brackets are no
brackets to the reader, and a line that ends with one counts as unfinished, so two things can go wrong: a
word of a type is taken for a key (`Entry.strays`), and a key is taken for more of the type in front of it
(`keysStart`).  `analyzeSetup_props` says that nothing else can: without either, the props of a block are
the keys of the literal that its declaring call is given.
-/
import ComponentLens.Proofs.Script.ReadsRight

namespace ComponentLens.Script

/-! ## 1. Where members start -/

/-- Whether the token separates members. -/
def Token.isSeparator (t : Token) : Bool := t.isPunct "," || t.isPunct ";"

/-- Whether a member starts at a token that is no separator: there is nothing in front of it, or a
separator, or it starts a line that does not go on from the one before. -/
def startsMember (previous : Option Token) (t : Token) : Bool :=
  previous.all fun p => p.isSeparator || (t.newlineBefore && !continues p t)

/-- The places at which members start, each given as the tokens from there on. -/
def startsIn (previous : Option Token) : List Token → List (List Token)
  | [] => []
  | t :: ts =>
    have := unit_rest_le t ts
    let here := if !t.isSeparator && startsMember previous t then [t :: ts] else []
    here ++ startsIn (unit t ts).1.getLast? (unit t ts).2
termination_by ts => ts.length
decreasing_by simp; omega

/-- The key that is read at a place. -/
def keyAt? (place : List Token) : Option String := (Member.read? place).map (·.key)

/-- A separator is no bracket. -/
theorem not_bracket_of_isSeparator {t : Token} (h : t.isSeparator = true) :
    t.isOpener = false ∧ t.isCloser = false := by
  rcases Bool.or_eq_true_iff.1 h with hcomma | hsemicolon
  · exact not_bracket_of_isPunct hcomma (by decide)
  · exact not_bracket_of_isPunct hsemicolon (by decide)

theorem isSeparator_eq_false_of_bracket {t : Token} (h : t.isOpener = true ∨ t.isCloser = true) :
    t.isSeparator = false := by
  cases hsep : t.isSeparator with
  | false => rfl
  | true =>
    obtain ⟨hopener, hcloser⟩ := not_bracket_of_isSeparator hsep
    simp [hopener, hcloser] at h

/-- A unit that starts with a separator is the separator. -/
theorem IsUnit.tail_eq_nil {t : Token} {us : List Token} (h : IsUnit (t :: us))
    (hsep : t.isSeparator = true) : us = [] := by
  cases h with
  | single => rfl
  | group ho =>
    have hno := isSeparator_eq_false_of_bracket (.inl (isOpener_of_closer? ho))
    rw [hsep] at hno
    exact Bool.noConfusion hno

/-- Nothing but a separator ends with one. -/
theorem IsUnit.all_getLast? {t : Token} {us : List Token} (h : IsUnit (t :: us)) :
    (t :: us).getLast?.all (·.isSeparator) = t.isSeparator := by
  cases h with
  | single => simp
  | group ho hc =>
    rename_i c inside
    rw [← List.cons_append, List.getLast?_concat, Option.all_some,
      isSeparator_eq_false_of_bracket (.inr (isCloser_of_closer? ho hc)),
      isSeparator_eq_false_of_bracket (.inl (isOpener_of_closer? ho))]

/-- Places are looked for unit by unit. -/
theorem IsUnit.startsIn_append {t : Token} {us : List Token} (h : IsUnit (t :: us))
    (previous : Option Token) (ts : List Token) :
    startsIn previous (t :: us ++ ts) =
      (if !t.isSeparator && startsMember previous t then [t :: us ++ ts] else []) ++
        startsIn (t :: us).getLast? ts := by
  rw [List.cons_append, startsIn]
  simp only [h.unit_append]

theorem startsIn_cons {t : Token} (h : t.isOpener = false ∧ t.isCloser = false) (previous : Option Token)
    (ts : List Token) :
    startsIn previous (t :: ts) =
      (if !t.isSeparator && startsMember previous t then [t :: ts] else []) ++ startsIn (some t) ts :=
  (IsUnit.single h.1 h.2).startsIn_append previous ts

/-- **Places behind balanced tokens.**  The search goes on behind balanced tokens with their last token. -/
theorem startsIn_append {xs : List Token} (h : Balanced xs) (previous : Option Token) (ys : List Token) :
    startsIn previous (xs ++ ys) =
      (startsIn previous xs).map (· ++ ys) ++ startsIn (lastOf previous xs) ys := by
  induction xs, h using Balanced.units generalizing previous with
  | nil => simp [startsIn]
  | cons u ts hu hts ih =>
    obtain ⟨t, us, rfl⟩ := hu.exists_cons
    rw [List.append_assoc, hu.startsIn_append, hu.startsIn_append, ih, lastOf_append,
      lastOf_of_ne_nil hu.ne_nil, List.map_append, List.append_assoc]
    congr 1
    split <;> simp

theorem membersFrom_separator {t : Token} (h : t.isSeparator = true) (previous : Option Token)
    (starting : Bool) (ts : List Token) :
    membersFrom previous starting (t :: ts) = membersFrom (some t) true ts := by
  rw [membersFrom]
  exact if_pos h

/-- A member is read at a unit exactly if one starts there. -/
theorem IsUnit.membersFrom_append {t : Token} {us : List Token} (h : IsUnit (t :: us))
    (hsep : t.isSeparator = false) (previous : Option Token) (ts : List Token) :
    membersFrom previous (previous.all (·.isSeparator)) (t :: us ++ ts) =
      (if startsMember previous t then (Member.read? (t :: us ++ ts)).toList else []) ++
        membersFrom (t :: us).getLast? false ts := by
  have hmark : (t.isPunct "," || t.isPunct ";") = false := hsep
  have hstarts : (previous.all (·.isSeparator) ||
      (t.newlineBefore && !previous.any (continues · t))) = startsMember previous t := by
    cases previous <;> simp [startsMember]
  rw [List.cons_append, membersFrom, hmark, if_neg Bool.false_ne_true]
  simp only [h.unit_append, hstarts]

/-- The keys of a literal are those read at the places where its members start. -/
theorem membersFrom_keys {ts : List Token} (h : Balanced ts) (previous : Option Token) :
    (membersFrom previous (previous.all (·.isSeparator)) ts).map (·.key) =
      (startsIn previous ts).filterMap keyAt? := by
  induction ts, h using Balanced.units generalizing previous with
  | nil => simp [membersFrom, startsIn]
  | cons u ts hu hts ih =>
    obtain ⟨t, us, rfl⟩ := hu.exists_cons
    have hrest := ih (t :: us).getLast?
    rw [hu.all_getLast?] at hrest
    rw [hu.startsIn_append, List.filterMap_append, ← hrest]
    cases hsep : t.isSeparator with
    | true =>
      obtain rfl := hu.tail_eq_nil hsep
      rw [List.singleton_append, membersFrom_separator hsep]
      simp
    | false =>
      rw [hu.membersFrom_append hsep, List.map_append]
      congr 1
      cases startsMember previous t with
      | false => rfl
      | true =>
        rw [List.cons_append]
        cases hread : Member.read? (t :: (us ++ ts)) <;> simp [keyAt?, hread]

/-! ## 2. Entries -/

/-- A member as it is written: a key, a question mark if it is optional, a colon, a type or value, and the
separator behind it.  The last one needs none, and neither does one with a line break behind it. -/
structure Entry where
  key : Token
  question : Option Token
  colon : Token
  value : List Token
  separator : Option Token

namespace Entry

/-- The marks between the key and the value. -/
def marks (e : Entry) : List Token := e.question.toList ++ [e.colon]

/-- The tokens of an entry. -/
def tokens (e : Entry) : List Token := e.key :: (e.marks ++ (e.value ++ e.separator.toList))

/-- The last token of an entry. -/
def last (e : Entry) : Option Token := lastOf (some e.colon) (e.value ++ e.separator.toList)

/-- The name that an entry declares. -/
def name (e : Entry) : String := unquote e.key.text

/-- The tokens are those that an entry is made of. -/
structure WellFormed (e : Entry) : Prop where
  key : e.key.kind = .ident ∨ e.key.kind = .string
  question : ∀ t ∈ e.question, t.isPunct "?" = true
  colon : e.colon.isPunct ":" = true
  value : Balanced e.value
  separator : ∀ t ∈ e.separator, t.isSeparator = true

/-- The words of the type or value that are taken for keys, given the tokens behind the entry. -/
def strays (e : Entry) (after : List Token) : List String :=
  (startsIn (some e.colon) e.value).filterMap fun place => keyAt? (place ++ (e.separator.toList ++ after))

end Entry

/-- The tokens of a literal, without its braces. -/
def entryTokens (es : List Entry) : List Token := es.flatMap (·.tokens)

/-- The keys that are read off the entries, given the token in front. -/
def readKeys (previous : Option Token) : List Entry → List String
  | [] => []
  | e :: es =>
    (if startsMember previous e.key then [e.name] else []) ++
      (e.strays (entryTokens es) ++ readKeys e.last es)

/-- Whether a member is seen to start at each entry. -/
def keysStart (previous : Option Token) : List Entry → Bool
  | [] => true
  | e :: es => startsMember previous e.key && keysStart e.last es

/-- All words that are taken for keys. -/
def straysOf : List Entry → List String
  | [] => []
  | e :: es => e.strays (entryTokens es) ++ straysOf es

/-- The literal reads right: each key is seen, and no other word is taken for one. -/
def KeysReadRight (es : List Entry) : Prop := keysStart none es = true ∧ straysOf es = []

namespace Entry

variable {e : Entry}

theorem WellFormed.key_not_bracket (h : e.WellFormed) :
    e.key.isOpener = false ∧ e.key.isCloser = false :=
  not_bracket_of_kind (by rcases h.key with h | h <;> simp [h])

theorem WellFormed.key_isSeparator (h : e.WellFormed) : e.key.isSeparator = false := by
  rcases h.key with h | h <;> simp [Token.isSeparator, Token.isPunct, h]

theorem WellFormed.isMark (h : e.WellFormed) :
    ∀ t ∈ e.marks, t.isPunct "?" = true ∨ t.isPunct ":" = true := by
  intro t ht
  rcases List.mem_append.1 ht with hquestion | hcolon
  · exact .inl (h.question t (Option.mem_toList.1 hquestion))
  · rw [List.mem_singleton.1 hcolon]
    exact .inr h.colon

/-- A mark between a key and its value is neither bracket nor separator, and no line starts with one. -/
theorem mark_facts {t : Token} (h : t.isPunct "?" = true ∨ t.isPunct ":" = true) :
    (t.isOpener = false ∧ t.isCloser = false) ∧ t.isSeparator = false ∧
      ∀ p : Token, p.isSeparator = false → startsMember (some p) t = false := by
  simp only [Token.isPunct, Bool.and_eq_true, beq_iff_eq, ← and_or_left] at h
  obtain ⟨hkind, htext⟩ := h
  have hleading : leadingContinuations.contains t.text = true := by
    rcases htext with h | h <;> rw [h] <;> decide
  refine ⟨⟨?_, ?_⟩, ?_, fun p hp => ?_⟩
  · rcases htext with h | h <;> simp [Token.isOpener, Token.closer?, Token.isPunct, h]
  · rcases htext with h | h <;> simp [Token.isCloser, Token.isPunct, h]
  · rcases htext with h | h <;> simp [Token.isSeparator, Token.isPunct, h]
  · simp [startsMember, hp, continues, hkind, List.contains_iff_mem.1 hleading]

/-- No member starts between a key and its value. -/
theorem startsIn_marks {marks : List Token} (h : ∀ t ∈ marks, t.isPunct "?" = true ∨ t.isPunct ":" = true)
    {p : Token} (hp : p.isSeparator = false) (ts : List Token) :
    startsIn (some p) (marks ++ ts) = startsIn (lastOf (some p) marks) ts := by
  induction marks generalizing p with
  | nil => rfl
  | cons t marks ih =>
    obtain ⟨ht, hmarks⟩ := List.forall_mem_cons.1 h
    obtain ⟨hbracket, hsep, hno⟩ := mark_facts ht
    have hlast : lastOf (some p) (t :: marks) = lastOf (some t) marks := lastOf_append _ [t] marks
    rw [hlast, ← ih hmarks hsep, List.cons_append, startsIn_cons hbracket, hno p hp, Bool.and_false,
      if_neg Bool.false_ne_true, List.nil_append]

/-- No member starts at the separator of an entry. -/
theorem startsIn_separator {separator : Option Token} (h : ∀ t ∈ separator, t.isSeparator = true)
    (previous : Option Token) (ts : List Token) :
    startsIn previous (separator.toList ++ ts) = startsIn (lastOf previous separator.toList) ts := by
  cases separator with
  | none => rfl
  | some t =>
    have hsep : t.isSeparator = true := h t rfl
    rw [Option.toList_some, List.singleton_append, startsIn_cons (not_bracket_of_isSeparator hsep), hsep,
      Bool.not_true, Bool.false_and, if_neg Bool.false_ne_true, List.nil_append]
    rfl

theorem WellFormed.balanced (h : e.WellFormed) : Balanced e.tokens := by
  have hmarks : Balanced e.marks := balanced_of_no_bracket fun t ht => (mark_facts (h.isMark t ht)).1
  have hseparator : Balanced e.separator.toList :=
    balanced_of_no_bracket fun t ht => not_bracket_of_isSeparator (h.separator t (Option.mem_toList.1 ht))
  exact .cons h.key_not_bracket.1 h.key_not_bracket.2 (hmarks.append (h.value.append hseparator))

/-- **The places in an entry.**  A member may start at its key, and at places in its type or value. -/
theorem WellFormed.startsIn_append (h : e.WellFormed) (previous : Option Token) (after : List Token) :
    startsIn previous (e.tokens ++ after) =
      (if startsMember previous e.key then [e.tokens ++ after] else []) ++
        ((startsIn (some e.colon) e.value).map (· ++ (e.separator.toList ++ after)) ++
          startsIn e.last after) := by
  have hkey := startsIn_cons h.key_not_bracket previous
    (e.marks ++ (e.value ++ (e.separator.toList ++ after)))
  have hcolon : lastOf (some e.key) e.marks = some e.colon := by simp [lastOf, Entry.marks]
  rw [startsIn_marks h.isMark h.key_isSeparator, hcolon,
    Script.startsIn_append h.value, startsIn_separator h.separator, ← lastOf_append,
    h.key_isSeparator, Bool.not_false, Bool.true_and] at hkey
  simpa [Entry.tokens, Entry.last] using hkey

/-- A word in front of a mark is no modifier. -/
theorem dropModifiers_of_mark {t next : Token} (h : next.kind = .punct) (ts : List Token) :
    dropModifiers (t :: next :: ts) = t :: next :: ts := by
  simp [dropModifiers, h]

/-- The key of an entry is read where the entry starts. -/
theorem WellFormed.keyAt?_append (h : e.WellFormed) (after : List Token) :
    keyAt? (e.tokens ++ after) = some e.name := by
  obtain ⟨hcolonKind, hcolonText⟩ : e.colon.kind = .punct ∧ e.colon.text = ":" := by
    simpa [Token.isPunct] using h.colon
  have hkey : (e.key.kind == .ident || e.key.kind == .string) = true := by
    rcases h.key with h | h <;> simp [h]
  cases hquestion : e.question with
  | none =>
    have htokens : e.tokens ++ after = e.key :: e.colon :: (e.value ++ (e.separator.toList ++ after)) := by
      simp [Entry.tokens, Entry.marks, hquestion]
    rw [keyAt?, htokens, Member.read?, dropModifiers_of_mark hcolonKind]
    simp [hkey, headIsPunct, Token.isPunct, hcolonKind, hcolonText, Entry.name]
  | some q =>
    obtain ⟨hkind, htext⟩ : q.kind = .punct ∧ q.text = "?" := by
      simpa [Token.isPunct] using h.question q (by rw [hquestion]; rfl)
    have htokens : e.tokens ++ after =
        e.key :: q :: e.colon :: (e.value ++ (e.separator.toList ++ after)) := by
      simp [Entry.tokens, Entry.marks, hquestion]
    rw [keyAt?, htokens, Member.read?, dropModifiers_of_mark hkind]
    simp [hkey, headIsPunct, Token.isPunct, hkind, htext, hcolonKind, hcolonText, Entry.name]

end Entry

/-! ## 3. The keys of a literal -/

variable {es : List Entry}

theorem balanced_entryTokens (hwf : ∀ e ∈ es, e.WellFormed) : Balanced (entryTokens es) := by
  induction es with
  | nil => exact .nil
  | cons e es ih =>
    obtain ⟨he, hwf⟩ := List.forall_mem_cons.1 hwf
    exact he.balanced.append (ih hwf)

/-- What is read at the places of a literal. -/
theorem filterMap_startsIn_entryTokens (hwf : ∀ e ∈ es, e.WellFormed) (previous : Option Token) :
    (startsIn previous (entryTokens es)).filterMap keyAt? = readKeys previous es := by
  induction es generalizing previous with
  | nil => simp [entryTokens, startsIn, readKeys]
  | cons e es ih =>
    obtain ⟨he, hwf⟩ := List.forall_mem_cons.1 hwf
    have hcons : entryTokens (e :: es) = e.tokens ++ entryTokens es := rfl
    rw [hcons, he.startsIn_append, List.filterMap_append, List.filterMap_append, ih hwf, readKeys,
      List.filterMap_map]
    congr 1
    split <;> simp [he.keyAt?_append]

/-- **The keys of a literal.** -/
theorem members_entryTokens (hwf : ∀ e ∈ es, e.WellFormed) :
    (members (entryTokens es)).map (·.key) = readKeys none es := by
  rw [members, ← filterMap_startsIn_entryTokens hwf]
  exact membersFrom_keys (balanced_entryTokens hwf) none

/-- Without strays, the keys that are read are among those that are written. -/
theorem readKeys_sublist (hstrays : straysOf es = []) (previous : Option Token) :
    (readKeys previous es).Sublist (es.map (·.name)) := by
  induction es generalizing previous with
  | nil => exact .slnil
  | cons e es ih =>
    obtain ⟨he, hes⟩ := List.append_eq_nil_iff.1 hstrays
    rw [readKeys, he, List.nil_append, List.map_cons]
    split
    · exact (ih hes e.last).cons_cons e.name
    · exact (ih hes e.last).cons e.name

/-- Without strays, all keys are read exactly if each is seen to start a member. -/
theorem readKeys_eq_iff (hstrays : straysOf es = []) (previous : Option Token) :
    readKeys previous es = es.map (·.name) ↔ keysStart previous es = true := by
  induction es generalizing previous with
  | nil => simp [readKeys, keysStart]
  | cons e es ih =>
    obtain ⟨he, hes⟩ := List.append_eq_nil_iff.1 hstrays
    rw [readKeys, keysStart, he, List.nil_append, List.map_cons, Bool.and_eq_true, ← ih hes]
    cases startsMember previous e.key with
    | true => simp
    | false =>
      refine iff_of_false (fun hkeys => ?_) (by simp)
      have hlength := (readKeys_sublist hes e.last).length_le
      have hall : (readKeys e.last es).length = es.length + 1 := by
        simpa using congrArg List.length hkeys
      rw [List.length_map] at hlength
      omega

/-- Each stray is read. -/
theorem straysOf_subset (es : List Entry) (previous : Option Token) :
    straysOf es ⊆ readKeys previous es := by
  induction es generalizing previous with
  | nil => exact fun _ h => h
  | cons e es ih =>
    intro stray hstray
    rw [readKeys]
    refine List.mem_append_right _ (List.mem_append.2 ?_)
    exact (List.mem_append.1 hstray).imp_right fun h => ih e.last h

/-- A literal that reads right has the keys that are written. -/
theorem KeysReadRight.readKeys_eq (h : KeysReadRight es) : readKeys none es = es.map (·.name) :=
  (readKeys_eq_iff h.2 none).2 h.1

/-- Only a literal that reads right has the keys that are written, unless a word of a type happens to be
spelled like a key. -/
theorem keysReadRight_of_eq (hspelling : ∀ stray ∈ straysOf es, stray ∉ es.map (·.name))
    (h : readKeys none es = es.map (·.name)) : KeysReadRight es := by
  have hstrays : straysOf es = [] := by
    refine List.eq_nil_iff_forall_not_mem.2 fun stray hstray => hspelling stray hstray ?_
    rw [← h]
    exact straysOf_subset es none hstray
  exact ⟨(readKeys_eq_iff hstrays none).1 h, hstrays⟩

/-! ## 4. The declaring call -/

theorem text_of_isPunct {t : Token} {text : String} (h : t.isPunct text = true) : t.text = text :=
  eq_of_beq (Bool.and_eq_true_iff.1 h).2

theorem closer?_of_isPunct {o c : Token} {opener closer : String} (ho : o.isPunct opener = true)
    (hc : c.isPunct closer = true)
    (h : (opener, closer) ∈ [("(", ")"), ("[", "]"), ("\x7b", "\x7d")]) :
    o.closer? = some c.text ∧ c.kind = .punct := by
  simp only [isPunct_iff] at ho hc
  simp only [List.mem_cons, List.not_mem_nil, or_false, Prod.mk.injEq] at h
  refine ⟨?_, hc.1⟩
  rcases h with ⟨rfl, rfl⟩ | ⟨rfl, rfl⟩ | ⟨rfl, rfl⟩
  all_goals simp [Token.closer?, Token.isPunct, ho, hc]

/-- The tokens are type arguments: their angle brackets match, and no semicolon stands outside brackets. -/
inductive Angled : List Token → Prop
  | nil : Angled []
  | unit {u ts : List Token} (hu : IsUnit u) (hplain : headText u ∉ ["<", ">", ";"]) (hts : Angled ts) :
    Angled (u ++ ts)
  | group {less greater : Token} {inside ts : List Token} (hless : less.isPunct "<" = true)
    (hgreater : greater.isPunct ">" = true) (hinside : Angled inside) (hts : Angled ts) :
    Angled (less :: (inside ++ greater :: ts))

theorem IsUnit.splitAngle?_append {u : List Token} (hu : IsUnit u) (hplain : headText u ∉ ["<", ">", ";"])
    (depth : Nat) (ts : List Token) :
    splitAngle? depth (u ++ ts) = (splitAngle? depth ts).map fun (inside, r) => (u ++ inside, r) := by
  obtain ⟨t, us, rfl⟩ := hu.exists_cons
  have htext : headText (t :: us) = t.text := rfl
  simp only [htext, List.mem_cons, List.not_mem_nil, or_false, not_or] at hplain
  rw [List.cons_append, splitAngle?.eq_def]
  simp [hplain, hu.unit_append]

theorem isUnit_of_angle {t : Token} (h : t.isPunct "<" = true ∨ t.isPunct ">" = true) : IsUnit [t] := by
  simp only [isPunct_iff] at h
  refine .single ?_ ?_
  · rcases h with h | h <;> simp [Token.isOpener, Token.closer?, Token.isPunct, h]
  · rcases h with h | h <;> simp [Token.isCloser, Token.isPunct, h]

theorem splitAngle?_less {t : Token} (h : t.isPunct "<" = true) (depth : Nat) (ts : List Token) :
    splitAngle? depth (t :: ts) =
      (splitAngle? (depth + 1) ts).map fun (inside, r) => (t :: inside, r) := by
  have hunit := (isUnit_of_angle (.inl h)).unit_append ts
  have htext : t.text = "<" := text_of_isPunct h
  rw [List.nil_append] at hunit
  rw [splitAngle?.eq_def]
  simp [htext, hunit]

theorem splitAngle?_greater {t : Token} (h : t.isPunct ">" = true) (depth : Nat) (ts : List Token) :
    splitAngle? (depth + 1) (t :: ts) =
      (splitAngle? depth ts).map fun (inside, r) => (t :: inside, r) := by
  have hunit := (isUnit_of_angle (.inr h)).unit_append ts
  have htext : t.text = ">" := text_of_isPunct h
  rw [List.nil_append] at hunit
  rw [splitAngle?.eq_def]
  simp [htext, hunit]

theorem splitAngle?_zero {t : Token} (h : t.isPunct ">" = true) (ts : List Token) :
    splitAngle? 0 (t :: ts) = some ([], t, ts) := by
  have htext : t.text = ">" := text_of_isPunct h
  rw [splitAngle?.eq_def]
  simp [htext]

/-- The end of the type arguments is not found inside them. -/
theorem splitAngle?_append_of_angled {xs : List Token} (h : Angled xs) (depth : Nat) (ys : List Token) :
    splitAngle? depth (xs ++ ys) =
      (splitAngle? depth ys).map fun (inside, r) => (xs ++ inside, r) := by
  induction h generalizing depth ys with
  | nil => simp
  | unit hu hplain _ ih =>
    rw [List.append_assoc, hu.splitAngle?_append hplain, ih]
    cases splitAngle? depth ys <;> simp
  | group hless hgreater _ _ ihinside ihts =>
    rw [List.cons_append, splitAngle?_less hless, List.append_assoc, ihinside, List.cons_append,
      splitAngle?_greater hgreater, ihts]
    cases splitAngle? depth ys <;> simp

theorem splitAngle?_angled {typeArgs : List Token} (h : Angled typeArgs) {greater : Token}
    (hgreater : greater.isPunct ">" = true) (rest : List Token) :
    splitAngle? 0 (typeArgs ++ greater :: rest) = some (typeArgs, greater, rest) := by
  rw [splitAngle?_append_of_angled h, splitAngle?_zero hgreater]
  simp

variable {inside : List Token}

/-- What stands behind the callee, if its first argument is an object literal. -/
inductive TakesLiteral (inside : List Token) : List Token → Prop
  | intro {paren o c closer : Token} {more after : List Token} (hparen : paren.isPunct "(" = true)
    (ho : o.isPunct "\x7b" = true) (hc : c.isPunct "\x7d" = true) (hmore : Balanced more)
    (hfirst : more = [] ∨ headIsPunct more "," = true) (hcloser : closer.isPunct ")" = true) :
    TakesLiteral inside (paren :: (o :: (inside ++ c :: more) ++ closer :: after))

/-- What stands behind the callee, if the call declares by a literal: by a type literal as the type
argument, or by an object literal as the first argument.  The first goes before the second. -/
inductive DeclaresBy (inside : List Token) : List Token → Prop
  | typeLiteral {less o c greater paren closer : Token} {args after : List Token}
    (hless : less.isPunct "<" = true) (ho : o.isPunct "\x7b" = true) (hc : c.isPunct "\x7d" = true)
    (hgreater : greater.isPunct ">" = true) (hparen : paren.isPunct "(" = true) (hargs : Balanced args)
    (hcloser : closer.isPunct ")" = true) :
    DeclaresBy inside (less :: (o :: (inside ++ [c]) ++ greater :: paren :: (args ++ closer :: after)))
  | value {call : List Token} (h : TakesLiteral inside call) : DeclaresBy inside call
  | typedValue {less greater : Token} {typeArgs call : List Token} (hless : less.isPunct "<" = true)
    (hgreater : greater.isPunct ">" = true) (htype : Angled typeArgs)
    (hbrace : headIsPunct typeArgs "\x7b" = false) (h : TakesLiteral inside call) :
    DeclaresBy inside (less :: (typeArgs ++ greater :: call))

/-- The first argument reaches to the first comma. -/
theorem head?_splitAt {u more : List Token} (hu : IsUnit u) (hplain : headIsPunct u "," = false)
    (hmore : more = [] ∨ headIsPunct more "," = true) : (splitAt "," (u ++ more)).head? = some u := by
  have hbreak := hu.breakAt_append hplain more
  cases more with
  | nil =>
    have hlacks : Lacks "," (u ++ []) := by rw [Lacks, hbreak, breakAt]
    rw [splitAt_of_lacks hlacks]
    simp [hu.ne_nil]
  | cons comma more =>
    have hcomma : comma.isPunct "," = true := by simpa [headIsPunct] using hmore
    rw [breakAt_separator hcomma, List.append_nil] at hbreak
    rw [splitAt_of_some hbreak]
    rfl

/-- An argument list is read to its end. -/
theorem readList?_group {paren closer : Token} (hparen : paren.isPunct "(" = true)
    (hcloser : closer.isPunct ")" = true) {list : List Token} (hlist : Balanced list) (name : Token)
    (typeArgs : Option Span) (typeTokens after : List Token) :
    ∃ args, DefineArgs.readList? name typeArgs typeTokens (paren :: (list ++ closer :: after)) = some args ∧
      args.typeTokens = typeTokens ∧ args.argTokens = ((splitAt "," list).head?).getD [] := by
  obtain ⟨hopener, hpunct⟩ := closer?_of_isPunct hparen hcloser (by decide)
  rw [DefineArgs.readList?, if_pos hparen, splitGroup?_group hopener hpunct hlist]
  exact ⟨_, rfl, rfl, rfl⟩

section

variable {inside : List Token} (hinside : Balanced inside)

include hinside

theorem leadingMembers?_literal {o c : Token} (ho : o.isPunct "\x7b" = true) (hc : c.isPunct "\x7d" = true) :
    leadingMembers? (o :: (inside ++ [c])) = some (members inside) := by
  obtain ⟨hopener, hpunct⟩ := closer?_of_isPunct ho hc (by decide)
  simp [leadingMembers?, ho, splitGroup?_group hopener hpunct hinside]

/-- The names that a first argument in braces lists are the keys of the literal. -/
theorem TakesLiteral.readList? {call : List Token} (h : TakesLiteral inside call) (name : Token)
    (typeArgs : Option Span) (typeTokens : List Token) :
    ∃ args, DefineArgs.readList? name typeArgs typeTokens call = some args ∧
      args.typeTokens = typeTokens ∧ listedNames args.argTokens = (members inside).map (·.key) := by
  cases h with
  | intro hparen ho hc hmore hfirst hcloser =>
    rename_i paren o c closer more after
    obtain ⟨hopener, hpunct⟩ := closer?_of_isPunct ho hc (by decide)
    have htext : o.text = "\x7b" := text_of_isPunct ho
    have hplain : headIsPunct (o :: (inside ++ [c])) "," = false := by
      simp [headIsPunct, Token.isPunct, htext]
    have hhead : (splitAt "," (o :: (inside ++ c :: more))).head? = some (o :: (inside ++ [c])) := by
      simpa using head?_splitAt (.group hopener hpunct hinside) hplain hfirst
    obtain ⟨args, hread, htypes, hargs⟩ := readList?_group hparen hcloser
      (.group hopener hpunct hinside hmore) name typeArgs typeTokens after
    refine ⟨args, hread, htypes, ?_⟩
    rw [hargs, hhead, Option.getD_some, listedNames, leadingMembers?_literal hinside ho hc]

/-- **A declaring call is read.**  The names it declares are the keys of its literal. -/
theorem DeclaresBy.read? {call : List Token} (h : DeclaresBy inside call) (name : Token) :
    ∃ args, DefineArgs.read? name call = some args ∧ args.names = (members inside).map (·.key) := by
  cases h with
  | typeLiteral hless ho hc hgreater hparen hargs hcloser =>
    rename_i less o c greater paren closer list after
    obtain ⟨hopener, hpunct⟩ := closer?_of_isPunct ho hc (by decide)
    have htext : o.text = "\x7b" := text_of_isPunct ho
    have hangled : Angled (o :: (inside ++ [c])) := by
      have hunit := Angled.unit (.group hopener hpunct hinside) (by simp [headText, htext]) .nil
      simpa using hunit
    obtain ⟨args, hread, htypes, -⟩ := readList?_group hparen hcloser hargs name
      (some (spanOf (o :: (inside ++ [c])) greater.span.start)) (o :: (inside ++ [c])) after
    refine ⟨args, ?_, ?_⟩
    · rw [DefineArgs.read?, if_pos (by simpa [headIsPunct] using hless), List.tail_cons,
        splitAngle?_angled hangled hgreater]
      exact hread
    · rw [DefineArgs.names, htypes, leadingMembers?_literal hinside ho hc]
  | value h =>
    obtain ⟨args, hread, htypes, hnames⟩ := h.readList? hinside name none []
    have hno : headIsPunct call "<" = false := by
      cases h with
      | intro hparen =>
        simp only [isPunct_iff] at hparen
        simp [headIsPunct, Token.isPunct, hparen]
    refine ⟨args, ?_, ?_⟩
    · rw [DefineArgs.read?, hno, if_neg Bool.false_ne_true]
      exact hread
    · rw [DefineArgs.names, htypes]
      exact hnames
  | typedValue hless hgreater htype hbrace h =>
    rename_i less greater typeArgs call
    obtain ⟨args, hread, htypes, hnames⟩ := h.readList? hinside name
      (some (spanOf typeArgs greater.span.start)) typeArgs
    refine ⟨args, ?_, ?_⟩
    · rw [DefineArgs.read?, if_pos (by simpa [headIsPunct] using hless), List.tail_cons,
        splitAngle?_angled htype hgreater]
      exact hread
    · have hnone : leadingMembers? typeArgs = none := by
        cases typeArgs with
        | nil => rfl
        | cons t ts =>
          have ht : t.isPunct "\x7b" = false := by simpa [headIsPunct] using hbrace
          simp [leadingMembers?, ht]
      rw [DefineArgs.names, htypes, hnone]
      exact hnames

end

/-! ## 5. The block -/

/-- Whether what stands behind the token belongs to what stands in front of it. -/
def Token.isDot (t : Token) : Bool := t.text == "." || t.text == "?."

/-- A setup block with a call that declares props by a literal.  The name may be mentioned in front of the
call, but not so that the mention is itself read as a call. -/
structure PropsBlock where
  before : List Token
  callee : Token
  call : List Token
  entries : List Entry
  balanced : Balanced (before ++ callee :: call)
  isCallee : callee.isIdent "defineProps" = true
  free : before.getLast?.any (·.isDot) = false
  first : ∀ xs t ys, before = xs ++ t :: ys → t.isIdent "defineProps" = true →
    xs.getLast?.any (·.isDot) = true ∨ DefineArgs.read? t (ys ++ callee :: call) = none
  wellFormed : ∀ e ∈ entries, e.WellFormed
  declares : DeclaresBy (entryTokens entries) call

/-- The tokens of the block. -/
def PropsBlock.tokens (block : PropsBlock) : List Token := block.before ++ block.callee :: block.call

theorem findDefine?_cons (name : String) (previous : Option Token) (t : Token) (ts : List Token) :
    findDefine? [name] previous (t :: ts) =
      if t.isIdent name && !previous.any (·.isDot) then
        (DefineArgs.read? t ts).or (findDefine? [name] (some t) ts)
      else findDefine? [name] (some t) ts := by
  simp only [findDefine?, Token.isIdent, List.contains_cons, List.contains_nil, Bool.or_false]
  rfl

/-- The first call of a name is found. -/
theorem findDefine?_append {name : String} {callee : Token} {call before : List Token} {args : DefineArgs}
    (previous : Option Token) (hcallee : callee.isIdent name = true)
    (hfree : (lastOf previous before).any (·.isDot) = false)
    (hread : DefineArgs.read? callee call = some args)
    (hfirst : ∀ xs t ys, before = xs ++ t :: ys → t.isIdent name = true →
      (lastOf previous xs).any (·.isDot) = true ∨ DefineArgs.read? t (ys ++ callee :: call) = none) :
    findDefine? [name] previous (before ++ callee :: call) = some args := by
  induction before generalizing previous with
  | nil =>
    rw [lastOf_nil] at hfree
    rw [List.nil_append, findDefine?_cons, hcallee, hfree, hread]
    rfl
  | cons t before ih =>
    have hlast : ∀ xs, lastOf previous (t :: xs) = lastOf (some t) xs := fun xs =>
      lastOf_append previous [t] xs
    have hrest := ih (some t) (by rw [← hlast]; exact hfree) fun xs u ys heq hu => by
      rw [← hlast]
      exact hfirst (t :: xs) u ys (by rw [heq, List.cons_append]) hu
    rw [List.cons_append, findDefine?_cons, hrest]
    cases ht : t.isIdent name with
    | false => rfl
    | true =>
      rcases hfirst [] t before rfl ht with hdot | hnone
      · rw [lastOf_nil] at hdot
        rw [hdot]
        rfl
      · rw [hnone, Option.none_or, ite_self]

namespace PropsBlock

/-- Reading such a block succeeds, and its props are the keys read off the literal. -/
theorem exists_analyzeSetup (block : PropsBlock) {source : String}
    (htokens : tokenize source = .ok block.tokens) :
    ∃ facts, analyzeSetup source = .ok facts ∧ facts.props = readKeys none block.entries := by
  obtain ⟨partners, hpairs⟩ := pairs_ok block.balanced
  have hbalanced : balancedTokens source = .ok block.tokens :=
    bind_eq_ok.2 ⟨_, htokens, bind_eq_ok.2 ⟨partners, hpairs, rfl⟩⟩
  obtain ⟨args, hread, hnames⟩ := block.declares.read? (balanced_entryTokens block.wellFormed) block.callee
  have hfound : findDefine? ["defineProps"] none block.tokens = some args := by
    refine findDefine?_append none block.isCallee ?_ hread ?_
    · simpa [lastOf] using block.free
    · simpa [lastOf] using block.first
  refine ⟨_, bind_eq_ok.2 ⟨_, hbalanced, rfl⟩, ?_⟩
  simp only [hfound, Option.map_some, Option.getD_some, hnames, members_entryTokens block.wellFormed]

end PropsBlock

/-- **The props are the keys that are written, if the literal reads right.**  Reading a block with a call
that declares props by a literal succeeds.  Its props are the keys read off the literal: the keys of the
entries that are seen to start a member, each followed by the words of its type or value that are taken for
keys.  They are exactly the keys that are written if the literal reads right, and only then, unless such a
word is spelled like a key. -/
theorem analyzeSetup_props (block : PropsBlock) {source : String}
    (htokens : tokenize source = .ok block.tokens) :
    ∃ facts, analyzeSetup source = .ok facts ∧ facts.props = readKeys none block.entries ∧
      (KeysReadRight block.entries → facts.props = block.entries.map (·.name)) ∧
      ((∀ stray ∈ straysOf block.entries, stray ∉ block.entries.map (·.name)) →
        facts.props = block.entries.map (·.name) → KeysReadRight block.entries) := by
  obtain ⟨facts, hfacts, hprops⟩ := block.exists_analyzeSetup htokens
  refine ⟨facts, hfacts, hprops, fun hright => ?_, fun hspelling heq => ?_⟩
  · rw [hprops, hright.readKeys_eq]
  · exact keysReadRight_of_eq hspelling (hprops.symm.trans heq)

/-- A block that is only a call with a type literal.  The brace that closes the literal stands at the given
place. -/
def typeLiteralBlock (es : List Entry) (hwf : ∀ e ∈ es, e.WellFormed) (stop : Nat) : PropsBlock where
  before := []
  callee := ⟨.ident, "defineProps", ⟨0, 11⟩, false⟩
  call := ⟨.punct, "<", ⟨11, 12⟩, false⟩ ::
    (⟨.punct, "\x7b", ⟨12, 13⟩, false⟩ :: (entryTokens es ++ [⟨.punct, "\x7d", ⟨stop, stop + 1⟩, false⟩]) ++
      ⟨.punct, ">", ⟨stop + 1, stop + 2⟩, false⟩ :: ⟨.punct, "(", ⟨stop + 2, stop + 3⟩, false⟩ ::
        ([] ++ ⟨.punct, ")", ⟨stop + 3, stop + 4⟩, false⟩ :: []))
  entries := es
  balanced := by
    refine .cons rfl rfl (.cons rfl rfl (.append ?_ (.cons rfl rfl ?_)))
    · exact .group rfl rfl (balanced_entryTokens hwf) .nil
    · exact .group rfl rfl .nil .nil
  isCallee := rfl
  free := rfl
  first := by simp
  wellFormed := hwf
  declares := .typeLiteral rfl rfl rfl rfl rfl .nil rfl

/-- The entries of `defineProps<{ id?: string, sizes: Map<string, number> }>()`. -/
def plainEntries : List Entry :=
  [{ key := ⟨.ident, "id", ⟨14, 16⟩, false⟩
     question := some ⟨.punct, "?", ⟨16, 17⟩, false⟩
     colon := ⟨.punct, ":", ⟨17, 18⟩, false⟩
     value := [⟨.ident, "string", ⟨19, 25⟩, false⟩]
     separator := some ⟨.punct, ",", ⟨25, 26⟩, false⟩ },
   { key := ⟨.ident, "sizes", ⟨27, 32⟩, false⟩
     question := none
     colon := ⟨.punct, ":", ⟨32, 33⟩, false⟩
     value := [⟨.ident, "Map", ⟨34, 37⟩, false⟩, ⟨.punct, "<", ⟨37, 38⟩, false⟩,
       ⟨.ident, "string", ⟨38, 44⟩, false⟩, ⟨.punct, ",", ⟨44, 45⟩, false⟩,
       ⟨.ident, "number", ⟨46, 52⟩, false⟩, ⟨.punct, ">", ⟨52, 53⟩, false⟩]
     separator := none }]

theorem wellFormed_plainEntries : ∀ e ∈ plainEntries, e.WellFormed := by
  refine List.forall_mem_cons.2 ⟨?_, List.forall_mem_singleton.2 ?_⟩
  · exact ⟨.inl rfl, by simp; decide, rfl, balanced_of_no_bracket (by decide), by simp; decide⟩
  · exact ⟨.inl rfl, by simp, rfl, balanced_of_no_bracket (by decide), by simp⟩

/-- The theorem at `defineProps<{ id?: string, sizes: Map<string, number> }>()`, which reads right. -/
theorem props_plainEntries :
    tokenize "defineProps<\x7b id?: string, sizes: Map<string, number> \x7d>()" =
      .ok (typeLiteralBlock plainEntries wellFormed_plainEntries 54).tokens ∧
    KeysReadRight plainEntries ∧
    ∃ facts, analyzeSetup "defineProps<\x7b id?: string, sizes: Map<string, number> \x7d>()" = .ok facts ∧
      facts.props = ["id", "sizes"] := by
  have htokens : tokenize "defineProps<\x7b id?: string, sizes: Map<string, number> \x7d>()" =
      .ok (typeLiteralBlock plainEntries wellFormed_plainEntries 54).tokens := by decide +kernel
  have hright : KeysReadRight plainEntries := ⟨by decide +kernel, by decide +kernel⟩
  obtain ⟨facts, hfacts, -, hprops, -⟩ := analyzeSetup_props _ htokens
  exact ⟨htokens, hright, facts, hfacts, hprops hright⟩

/-- The entry of `defineProps<{ a: Map<string, Array<number>> }>()`. -/
def nestedEntries : List Entry :=
  [{ key := ⟨.ident, "a", ⟨14, 15⟩, false⟩
     question := none
     colon := ⟨.punct, ":", ⟨15, 16⟩, false⟩
     value := [⟨.ident, "Map", ⟨17, 20⟩, false⟩, ⟨.punct, "<", ⟨20, 21⟩, false⟩,
       ⟨.ident, "string", ⟨21, 27⟩, false⟩, ⟨.punct, ",", ⟨27, 28⟩, false⟩,
       ⟨.ident, "Array", ⟨29, 34⟩, false⟩, ⟨.punct, "<", ⟨34, 35⟩, false⟩,
       ⟨.ident, "number", ⟨35, 41⟩, false⟩, ⟨.punct, ">", ⟨41, 42⟩, false⟩,
       ⟨.punct, ">", ⟨42, 43⟩, false⟩]
     separator := none }]

theorem wellFormed_nestedEntries : ∀ e ∈ nestedEntries, e.WellFormed :=
  List.forall_mem_singleton.2
    ⟨.inl rfl, by simp, rfl, balanced_of_no_bracket (by decide), by simp⟩

/-- A type argument that itself takes type arguments is taken for a key when it stands behind a comma. -/
theorem not_props_nestedEntries :
    tokenize "defineProps<\x7b a: Map<string, Array<number>> \x7d>()" =
      .ok (typeLiteralBlock nestedEntries wellFormed_nestedEntries 44).tokens ∧
    ¬ ∃ facts, analyzeSetup "defineProps<\x7b a: Map<string, Array<number>> \x7d>()" = .ok facts ∧
      facts.props = nestedEntries.map (·.name) := by
  have htokens : tokenize "defineProps<\x7b a: Map<string, Array<number>> \x7d>()" =
      .ok (typeLiteralBlock nestedEntries wellFormed_nestedEntries 44).tokens := by decide +kernel
  refine ⟨htokens, ?_⟩
  rintro ⟨facts, hfacts, hkeys⟩
  obtain ⟨facts', hfacts', hprops⟩ := PropsBlock.exists_analyzeSetup _ htokens
  rw [hfacts] at hfacts'
  cases hfacts'
  have hread : readKeys none nestedEntries = ["a", "Array"] := by decide +kernel
  have hshort := hkeys.symm.trans (hprops.trans hread)
  exact absurd hshort (by decide)

end ComponentLens.Script
