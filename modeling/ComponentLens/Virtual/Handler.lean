/-
# Event handlers

The value of an event directive is a function, a path to one, or statements to run. The first two are used
as they are; statements are wrapped into a function that takes the event.
-/
import ComponentLens.Text.Whitespace
import ComponentLens.Text.WordChar

namespace ComponentLens.Virtual

/-- The text without the white space in front. -/
def skipBlanks (cs : List Char) : List Char := cs.dropWhile isBlank

/-- A word character or a dollar sign. -/
def isHandlerPart (c : Char) : Bool := isWordChar c || c == '$'

/-! ## 1. Paths -/

/-- What follows the name in front, if a name is there. A name starts with an ASCII letter, an underscore or
a dollar sign. -/
def afterName? : List Char → Option (List Char)
  | [] => none
  | c :: cs =>
    if c.isAlpha || c == '_' || c == '$' then some (cs.dropWhile isHandlerPart) else none

/-- What follows the step of a path in front: a dot and a name, or brackets with something in them. -/
def afterStep? : List Char → Option (List Char)
  | '.' :: cs => afterName? (skipBlanks cs)
  | '[' :: cs =>
    match cs.takeWhile (· != ']'), cs.dropWhile (· != ']') with
    | _ :: _, _ :: after => some after
    | _, _ => none
  | _ => none

theorem afterName?_length_lt {cs rest : List Char} (h : afterName? cs = some rest) :
    rest.length < cs.length := by
  unfold afterName? at h
  split at h
  · simp at h
  next c cs =>
    split at h
    · cases h
      have := (List.dropWhile_sublist (l := cs) isHandlerPart).length_le
      simp only [List.length_cons]
      omega
    · simp at h

theorem afterStep?_length_lt {cs rest : List Char} (h : afterStep? cs = some rest) :
    rest.length < cs.length := by
  unfold afterStep? at h
  split at h
  next cs =>
    have h1 := afterName?_length_lt h
    have h2 := (List.dropWhile_sublist (l := cs) isBlank).length_le
    simp only [skipBlanks] at h1
    simp only [List.length_cons]
    omega
  next cs =>
    split at h
    next d after _ hd =>
      cases h
      have h2 := (List.dropWhile_sublist (l := cs) (· != ']')).length_le
      rw [hd] at h2
      simp only [List.length_cons] at h2 ⊢
      omega
    · simp at h
  · simp at h

/-- Whether the rest of a path is in front, and nothing behind it. -/
def isPathRest (cs : List Char) : Bool :=
  if (skipBlanks cs).isEmpty then true
  else
    match _h : afterStep? (skipBlanks cs) with
    | none => false
    | some rest => isPathRest rest
termination_by cs.length
decreasing_by
  have step := afterStep?_length_lt _h
  have blanks := (List.dropWhile_sublist (l := cs) isBlank).length_le
  simp only [skipBlanks] at step
  omega

/-- Whether the text is a path: a name, and steps from it. -/
def isPath (cs : List Char) : Bool := (afterName? (skipBlanks cs)).any isPathRest

/-! ## 2. Functions -/

/-- Whether an arrow is in front. -/
def startsWithArrow : List Char → Bool
  | '=' :: '>' :: _ => true
  | _ => false

/-- Whether an arrow follows the parameters of a function, with the type of its result in between or
without. -/
def isArrowTail (cs : List Char) : Bool :=
  match skipBlanks cs with
  | ':' :: cs => !(cs.takeWhile (· != '=')).isEmpty && startsWithArrow (cs.dropWhile (· != '='))
  | cs => startsWithArrow cs

/-- What follows the parameter list in front. -/
def afterParameters? : List Char → Option (List Char)
  | '(' :: cs =>
    match cs.dropWhile (· != ')') with
    | _ :: after => some after
    | [] => none
  | _ => none

/-- What follows a word, if it is in front. -/
def afterWord? (word : String) (cs : List Char) : Option (List Char) :=
  if word.toList.isPrefixOf cs then some (cs.drop word.length) else none

/-- Whether an arrow function is in front, with one bare parameter or with a parameter list. -/
def isArrowFunction (cs : List Char) : Bool :=
  let bare := !(cs.takeWhile isHandlerPart).isEmpty && isArrowTail (cs.dropWhile isHandlerPart)
  let asynchronous := (afterWord? "async" cs).bind fun cs => afterParameters? (skipBlanks cs)
  bare || (afterParameters? cs).any isArrowTail || asynchronous.any isArrowTail

/-- Whether the rest of a function expression is in front, from behind its first word on: a name, if there is
one, and a parenthesis. -/
def isFunctionRest (cs : List Char) : Bool :=
  let gap := cs.takeWhile isBlank
  let rest := skipBlanks cs
  let named := !gap.isEmpty && !(rest.takeWhile isHandlerPart).isEmpty
  let rest := if named then skipBlanks (rest.dropWhile isHandlerPart) else rest
  rest.head? == some '('

/-- Whether a function expression is in front. -/
def isFunctionExpression (cs : List Char) : Bool :=
  let cs :=
    match afterWord? "async" cs with
    | some rest => if (rest.takeWhile isBlank).isEmpty then cs else skipBlanks rest
    | none => cs
  (afterWord? "function" cs).any isFunctionRest

/-- Whether the text starts with a function. -/
def isFunction (cs : List Char) : Bool :=
  isArrowFunction (skipBlanks cs) || isFunctionExpression (skipBlanks cs)

/-! ## 3. Wrapping -/

/-- What is written before and behind the value of an event directive. -/
def handlerWrapper (handler : String) : String × String :=
  let cs := handler.toList
  if isPath cs || isFunction cs then ("", "")
  else if cs.contains ';' then ("$event => \x7b", "\x7d")
  else ("$event => (", ")")

end ComponentLens.Virtual
