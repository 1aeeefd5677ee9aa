/-
# Brackets

`pairs` finds the partner of every opening bracket, or says which bracket has none. The other functions
walk a run of tokens and step over a bracketed group at once; they find the end of a group by counting,
so they work on any part of a block.
-/
import ComponentLens.Fault
import ComponentLens.Script.Token

namespace ComponentLens.Script

/-! ## 1. Partners -/

/-- An opening bracket that still waits for its closer. -/
structure Waiting where
  index : Nat
  token : Token
  closer : String

/-- Matches the brackets of the tokens from position `index` on. The stack holds the open brackets,
innermost first. -/
def pairsFrom (index : Nat) (stack : List Waiting) : List Token → Except Fault (List (Nat × Nat))
  | [] =>
    match stack with
    | [] => .ok []
    | w :: _ => .error ⟨.missingCloser w.closer, w.token.span⟩
  | t :: ts =>
    match t.closer? with
    | some closer => pairsFrom (index + 1) (⟨index, t, closer⟩ :: stack) ts
    | none =>
      if t.isCloser then
        match stack with
        | [] => .error ⟨.unexpectedCloser t.text, t.span⟩
        | w :: stack =>
          if w.closer == t.text then (pairsFrom (index + 1) stack ts).map ((w.index, index) :: ·)
          else .error ⟨.unexpectedCloser t.text, t.span⟩
      else pairsFrom (index + 1) stack ts

/-- The positions of each opening bracket and its closer. The fault names the first closer that does not
fit, or else the last bracket that was left open. -/
def pairs (ts : List Token) : Except Fault (List (Nat × Nat)) := pairsFrom 0 [] ts

/-- How many brackets are open around the token at a position, given the partners. -/
def depthAt (partners : List (Nat × Nat)) (position : Nat) : Nat :=
  partners.countP fun (opener, closer) => opener < position && position < closer

/-- How many brackets are open around each of the tokens, counted along them; `depth` are open in front. A
bracket does not stand inside its own group. -/
def depthsFrom (depth : Nat) : List Token → List Nat
  | [] => []
  | t :: ts =>
    let depth := if t.isCloser then depth - 1 else depth
    depth :: depthsFrom (if t.isOpener then depth + 1 else depth) ts

/-- How many brackets are open around each token of a block. -/
def depths (ts : List Token) : List Nat := depthsFrom 0 ts

/-! ## 2. Groups -/

/-- The tokens up to the closer of the group that the front lies in, that closer, and what follows.
`depth` counts the groups inside it that are open. -/
def splitGroup? (depth : Nat) : List Token → Option (List Token × Token × List Token)
  | [] => none
  | t :: ts =>
    if t.isOpener then (splitGroup? (depth + 1) ts).map fun (inside, r) => (t :: inside, r)
    else if t.isCloser then
      match depth with
      | 0 => some ([], t, ts)
      | depth + 1 => (splitGroup? depth ts).map fun (inside, r) => (t :: inside, r)
    else (splitGroup? depth ts).map fun (inside, r) => (t :: inside, r)

/-- The group makes up the tokens. -/
theorem splitGroup?_append {depth : Nat} {ts inside after : List Token} {closer : Token}
    (h : splitGroup? depth ts = some (inside, closer, after)) :
    inside ++ closer :: after = ts := by
  fun_induction splitGroup? depth ts generalizing inside
  case case1 => simp at h
  case case3 => simp_all
  all_goals
    rename_i ih
    obtain ⟨⟨inside', r⟩, hr, heq⟩ := Option.map_eq_some_iff.1 h
    cases heq
    simp [ih hr]

/-- What stands in front as one unit: a whole group, or a single token. A group without its end reaches
as far as the tokens do. -/
def unit (t : Token) (ts : List Token) : List Token × List Token :=
  if t.isOpener then
    match splitGroup? 0 ts with
    | some (inside, closer, after) => (t :: (inside ++ [closer]), after)
    | none => (t :: ts, [])
  else ([t], ts)

/-- The unit and what follows make up the tokens. -/
theorem unit_append (t : Token) (ts : List Token) : (unit t ts).1 ++ (unit t ts).2 = t :: ts := by
  unfold unit
  split
  · split
    next h => simp [← splitGroup?_append h]
    · simp
  · simp

theorem unit_rest_le (t : Token) (ts : List Token) : (unit t ts).2.length ≤ ts.length := by
  unfold unit
  split
  · split
    next h => simp [← splitGroup?_append h]; omega
    · simp
  · simp

/-- The tokens inside, when the whole run is one group that the given bracket opens. -/
def group? (opener : String) : List Token → Option (List Token)
  | [] => none
  | t :: ts =>
    if t.isPunct opener then
      match splitGroup? 0 ts with
      | some (inside, _, []) => some inside
      | _ => none
    else none

theorem group?_length {opener : String} {ts inside : List Token} (h : group? opener ts = some inside) :
    inside.length + 2 = ts.length := by
  unfold group? at h
  split at h
  · simp at h
  · split at h
    · split at h
      next hs => cases h; simp [← splitGroup?_append hs]
      · simp at h
    · simp at h

/-! ## 3. Separators -/

/-- The tokens before the first separator outside brackets, and those behind it if there is one. -/
def breakAt (separator : String) : List Token → List Token × Option (List Token)
  | [] => ([], none)
  | t :: ts =>
    if t.isPunct separator then ([], some ts)
    else
      have := unit_rest_le t ts
      let (before, after) := breakAt separator (unit t ts).2
      ((unit t ts).1 ++ before, after)
termination_by ts => ts.length
decreasing_by simp; omega

theorem breakAt_length (separator : String) (ts : List Token) :
    (breakAt separator ts).1.length + ((breakAt separator ts).2.elim 0 (·.length + 1)) = ts.length := by
  fun_induction breakAt separator ts with
  | case1 => rfl
  | case2 t ts h => simp
  | case3 t ts h hle before after hb ih =>
    have happ := congrArg List.length (unit_append t ts)
    simp only [List.length_append, List.length_cons] at happ ⊢
    rw [hb] at ih
    simp only at ih
    omega

/-- The parts between separators outside brackets. A part may be empty, but nothing follows a separator
at the end. -/
def splitAt (separator : String) (ts : List Token) : List (List Token) :=
  match _h : breakAt separator ts with
  | (part, none) => if part.isEmpty then [] else [part]
  | (part, some rest) =>
    have := breakAt_length separator ts
    part :: splitAt separator rest
termination_by ts.length
decreasing_by simp [_h] at this; omega

end ComponentLens.Script
