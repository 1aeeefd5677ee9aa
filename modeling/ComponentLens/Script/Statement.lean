/-
# Statements

A statement ends at a semicolon, at the bracket that closes around it, or at a line break across which
the code cannot go on. Two tables decide the last: the words that need something behind them, and what a
line can start with only as the continuation of another.
-/
import ComponentLens.Script.Bracket

namespace ComponentLens.Script

/-! ## 1. Line breaks -/

/-- The words that no statement ends with. -/
def continuingKeywords : List String :=
  ["extends", "implements", "new", "typeof", "keyof", "await", "yield", "in", "of", "instanceof", "as",
    "satisfies", "import", "export", "default", "const", "let", "var", "function", "class", "async",
    "from", "type", "interface", "declare"]

/-- The words and punctuators that no statement starts with. -/
def leadingContinuations : List String :=
  [".", "?.", ",", "=", "=>", "?", ":", "+", "-", "*", "/", "%", "**", "==", "===", "!=", "!==", "<",
    ">", "<=", ">=", "&&", "||", "??", "&", "|", "^", "+=", "-=", "*=", "/=", "%=", "&&=", "||=", "??=",
    "as", "satisfies", "in", "instanceof", "from", "extends", "implements"]

/-- Whether a token leaves its line unfinished. -/
def Token.expectsMore (t : Token) : Bool :=
  match t.kind with
  | .punct => !([")", "]", "\x7d", "++", "--"].contains t.text)
  | .ident => continuingKeywords.contains t.text
  | _ => false

/-- Whether code goes on from one token to the next although a line break stands between them. -/
def continues (previous next : Token) : Bool :=
  previous.expectsMore || (previous.text == ")" && next.text == "\x7b") ||
    ((next.kind == .punct || next.kind == .ident) && leadingContinuations.contains next.text)

/-! ## 2. Cutting -/

/-- The tokens up to the end of the statement in front, and what follows. `previous` is the token in
front of them, if the statement has begun. -/
def splitStatement (previous : Option Token) : List Token → List Token × List Token
  | [] => ([], [])
  | t :: ts =>
    if previous.any (fun p => t.newlineBefore && !continues p t) then ([], t :: ts)
    else if t.isPunct ";" then ([t], ts)
    else if t.isCloser then ([], t :: ts)
    else
      have := unit_rest_le t ts
      let (statement, rest) := splitStatement (unit t ts).1.getLast? (unit t ts).2
      ((unit t ts).1 ++ statement, rest)
termination_by ts => ts.length
decreasing_by simp; omega

/-- The statement and what follows make up the tokens. -/
theorem splitStatement_append (previous : Option Token) (ts : List Token) :
    (splitStatement previous ts).1 ++ (splitStatement previous ts).2 = ts := by
  fun_induction splitStatement previous ts with
  | case1 => rfl
  | case2 => rfl
  | case3 => rfl
  | case4 => rfl
  | case5 _ t ts _ _ _ _ statement rest h ih =>
    rw [h] at ih
    simp only [List.append_assoc, ih, unit_append]

/-- A statement, and all tokens behind it. -/
structure Statement where
  tokens : List Token
  after : List Token

/-- The statements of a run of tokens. Semicolons between them are left out. -/
def statements (ts : List Token) : List Statement :=
  match ts with
  | [] => []
  | t :: ts =>
    if t.isPunct ";" then statements ts
    else
      match _h : splitStatement none (t :: ts) with
      | ([], _) => statements ts
      | (first :: more, rest) => ⟨first :: more, rest⟩ :: statements rest
termination_by ts.length
decreasing_by
  · simp
  · simp
  · have := congrArg List.length (splitStatement_append none (t :: ts))
    simp [_h] at this ⊢
    omega

/-- The statement without a semicolon at its end. -/
def withoutSemicolon (ts : List Token) : List Token :=
  if ts.getLast?.any (·.isPunct ";") then ts.dropLast else ts

end ComponentLens.Script
