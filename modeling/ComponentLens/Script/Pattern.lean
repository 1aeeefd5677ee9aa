/-
# Names that patterns bind

A declaration binds a single name or takes a value apart with an object or an array pattern. The names
bound are found by recursion into the parts; keys and defaults bind nothing.
-/
import ComponentLens.Script.Bracket
import ComponentLens.Script.Facts

namespace ComponentLens.Script

/-! ## 1. Parts are shorter -/

theorem mem_splitAt_length_le {separator : String} {ts part : List Token}
    (h : part ∈ splitAt separator ts) : part.length ≤ ts.length := by
  fun_induction splitAt separator ts with
  | case1 => simp at h
  | case2 ts whole hb =>
    have := breakAt_length separator ts
    simp_all
  | case3 ts first rest hb hlen ih =>
    simp only [hb, Option.elim] at hlen
    rcases List.mem_cons.1 h with rfl | h
    · omega
    · have := ih h; omega

/-- The tokens before the first separator outside brackets. -/
def before (separator : String) (ts : List Token) : List Token := (breakAt separator ts).1

/-- The tokens behind the first separator outside brackets. -/
def after? (separator : String) (ts : List Token) : Option (List Token) := (breakAt separator ts).2

theorem before_length_le (separator : String) (ts : List Token) :
    (before separator ts).length ≤ ts.length := by
  have := breakAt_length separator ts
  simp only [before]; omega

theorem after?_length_lt {separator : String} {ts rest : List Token}
    (h : after? separator ts = some rest) : rest.length < ts.length := by
  have := breakAt_length separator ts
  simp only [after?] at h
  simp only [h, Option.elim] at this; omega

/-! ## 2. Declarations -/

/-- What an element of a pattern binds its value to: behind the dots of a rest element, behind the colon
of a renamed key, without the default. -/
def elementTarget (isObject : Bool) (element : List Token) : List Token :=
  let value := before "=" element
  if headIsPunct value "..." then value.tail
  else if isObject then (after? ":" value).getD value
  else value

theorem elementTarget_length_le (isObject : Bool) (element : List Token) :
    (elementTarget isObject element).length ≤ element.length := by
  have hb := before_length_le "=" element
  simp only [elementTarget]
  split
  · simp; omega
  · split
    · cases h : after? ":" (before "=" element) with
      | none => simpa using hb
      | some rest => have := after?_length_lt h; simp; omega
    · exact hb

/-- The parts of an object or array pattern, and whether it is an object. -/
def patternParts? (ts : List Token) : Option (Bool × List (List Token)) :=
  match group? "\x7b" ts with
  | some inside => some (true, splitAt "," inside)
  | none => (group? "[" ts).map fun inside => (false, splitAt "," inside)

theorem patternParts?_length_lt {ts : List Token} {isObject : Bool} {parts : List (List Token)}
    (h : patternParts? ts = some (isObject, parts)) {part : List Token} (hp : part ∈ parts) :
    part.length < ts.length := by
  unfold patternParts? at h
  split at h
  next hg =>
    cases h
    have := group?_length hg
    have := mem_splitAt_length_le hp
    omega
  next =>
    obtain ⟨inside, hg, heq⟩ := Option.map_eq_some_iff.1 h
    cases heq
    have := group?_length hg
    have := mem_splitAt_length_le hp
    omega

/-- The single name that the tokens consist of. -/
def singleIdent? : List Token → Option Token
  | [t] => if t.kind == .ident then some t else none
  | _ => none

/-- The names that the pattern of a declaration binds, in order. -/
def boundNames (ts : List Token) : List Span :=
  match singleIdent? ts with
  | some name => [name.span]
  | none =>
    match h : patternParts? ts with
    | none => []
    | some (isObject, parts) =>
      parts.attach.flatMap fun ⟨part, hp⟩ =>
        have := patternParts?_length_lt h hp
        have := elementTarget_length_le isObject part
        boundNames (elementTarget isObject part)
termination_by ts.length
decreasing_by omega

/-! ## 3. Labelled bindings -/

/-- The variable that a name stands for. -/
def LabelVar.ofToken (isShorthand inRoot : Bool) (t : Token) : LabelVar :=
  ⟨t.text, t.span, isShorthand, inRoot⟩

/-- What an element of a labelled pattern binds its value to, if it is not a name that stands for itself.
A default is left in place. -/
def labelTarget? (isObject : Bool) (element : List Token) : Option (List Token) :=
  if headIsPunct element "..." then some element.tail
  else if isObject then after? ":" element
  else some element

theorem labelTarget?_length_le {isObject : Bool} {element target : List Token}
    (h : labelTarget? isObject element = some target) : target.length ≤ element.length := by
  unfold labelTarget? at h
  split at h
  · cases h; simp
  · split at h
    · have := after?_length_lt h; omega
    · cases h; omega

/-- The variables that the left side of a labelled binding introduces. -/
def labelVars (inRoot : Bool) (ts : List Token) : List LabelVar :=
  match singleIdent? ts with
  | some name => [.ofToken false inRoot name]
  | none =>
    match h : patternParts? ts with
    | none =>
      match ts with
      | name :: next :: _ =>
        if name.kind == .ident && next.isPunct "=" then [.ofToken false inRoot name] else []
      | _ => []
    | some (isObject, parts) =>
      parts.attach.flatMap fun ⟨part, hp⟩ =>
        match ht : labelTarget? isObject part with
        | some target =>
          have := patternParts?_length_lt h hp
          have := labelTarget?_length_le ht
          labelVars inRoot target
        | none => ((part.head?.filter (·.kind == .ident)).map (.ofToken true inRoot)).toList
termination_by ts.length
decreasing_by omega

end ComponentLens.Script
