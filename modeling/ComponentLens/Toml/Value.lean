/-
# The values of a settings file

The format has text, numbers, truth values, points in time, arrays and tables. A table remembers how it came
about, because that decides who may still add to it; an array of tables, which headers write one by one, is
kept apart from an array that is written in one piece for the same reason.
-/

namespace ComponentLens.Toml

/-- How a table came about. -/
inductive TableKind where
  /-- Written in braces. Nothing can be added to it. -/
  | braced
  /-- Named by a header of its own. -/
  | header
  /-- On the way to a table that a header names. -/
  | passed
  /-- On the way to a value that a dotted key names. -/
  | dotted
  deriving DecidableEq, Repr

/-- A value. Numbers with a fraction and points in time are kept as they are written. -/
inductive Value where
  | text (text : String)
  | integer (n : Int)
  | decimal (text : String)
  | boolean (b : Bool)
  | time (text : String)
  | array (items : List Value)
  | table (kind : TableKind) (entries : List (String × Value))
  /-- An array of tables, of which headers extend the last. -/
  | tables (earlier : List (List (String × Value))) (last : List (String × Value))
  deriving Repr

/-- The contents of a table, in the order in which they are written. -/
abbrev Entries := List (String × Value)

namespace Entries

/-- The value of a key. -/
def get? (entries : Entries) (key : String) : Option Value := entries.lookup key

/-- Gives a key the value that `f` makes of its present value, which is none for a new key. -/
def update? (entries : Entries) (key : String) (f : Option Value → Option Value) : Option Entries :=
  match entries with
  | [] => (f none).map fun value => [(key, value)]
  | (k, v) :: rest =>
    if k = key then (f (some v)).map fun value => (k, value) :: rest
    else (update? rest key f).map fun rest => (k, v) :: rest

/-- An update keeps the keys that there are, in order, and adds at most the key updated. -/
theorem keys_update? {entries new : Entries} {key : String} {f : Option Value → Option Value}
    (h : update? entries key f = some new) :
    new.map (·.1) = if key ∈ entries.map (·.1) then entries.map (·.1) else entries.map (·.1) ++ [key] := by
  fun_induction update? entries key f generalizing new with
  | case1 => obtain ⟨v, -, rfl⟩ := Option.map_eq_some_iff.1 h; simp
  | case2 v rest => obtain ⟨w, -, rfl⟩ := Option.map_eq_some_iff.1 h; simp
  | case3 k v rest hne ih =>
    obtain ⟨w, hw, rfl⟩ := Option.map_eq_some_iff.1 h
    have hne : ¬key = k := fun e => hne e.symm
    have := ih hw
    simp only [List.map_cons, this, List.mem_cons, hne, false_or]
    split <;> simp

end Entries

end ComponentLens.Toml
