/-
# Faults

What a reader can find wrong with a component file. A fault is a cause and the span that it is
reported at. The cause decides the code and the wording.
-/
import ComponentLens.Text.Span

namespace ComponentLens

/-- The kinds of block that a component may hold only once. -/
inductive UniqueBlock where
  | template
  | script
  | scriptSetup
  deriving DecidableEq, Repr

/-- The opening tag, as messages name it. -/
def UniqueBlock.display : UniqueBlock → String
  | .template => "<template>"
  | .script => "<script>"
  | .scriptSetup => "<script setup>"

/-- Why something is wrong. -/
inductive Cause where
  | duplicateBlock (block : UniqueBlock)
  | unclosedBlock (tag : String)
  | unclosedElement (tag : String)
  | unexpectedClosingTag (tag : String)
  | unclosedInterpolation
  | unclosedComment
  | invalidLoop
  | unterminatedString
  | unterminatedTemplateLiteral
  | unterminatedComment
  | unterminatedRegExp
  | unexpectedCloser (closer : String)
  | missingCloser (closer : String)
  deriving DecidableEq, Repr

/-- The kind of fault: what tools match on. -/
inductive FaultCode where
  | duplicateBlock
  | unclosedBlock
  | unclosedElement
  | unexpectedClosingTag
  | unclosedInterpolation
  | unclosedComment
  | invalidLoop
  | unterminatedString
  | unterminatedTemplateLiteral
  | unterminatedComment
  | unterminatedRegExp
  | unbalancedBracket
  deriving DecidableEq, Repr

/-- The code in the form that diagnostics carry. -/
def FaultCode.display : FaultCode → String
  | .duplicateBlock => "duplicate-block"
  | .unclosedBlock => "unclosed-block"
  | .unclosedElement => "unclosed-element"
  | .unexpectedClosingTag => "unexpected-closing-tag"
  | .unclosedInterpolation => "unclosed-interpolation"
  | .unclosedComment => "unclosed-comment"
  | .invalidLoop => "invalid-v-for"
  | .unterminatedString => "unterminated-string"
  | .unterminatedTemplateLiteral => "unterminated-template-literal"
  | .unterminatedComment => "unterminated-comment"
  | .unterminatedRegExp => "unterminated-regexp"
  | .unbalancedBracket => "unbalanced-bracket"

namespace Cause

/-- The kind that a cause belongs to. A bracket out of place and a bracket left open are one kind. -/
def code : Cause → FaultCode
  | .duplicateBlock _ => .duplicateBlock
  | .unclosedBlock _ => .unclosedBlock
  | .unclosedElement _ => .unclosedElement
  | .unexpectedClosingTag _ => .unexpectedClosingTag
  | .unclosedInterpolation => .unclosedInterpolation
  | .unclosedComment => .unclosedComment
  | .invalidLoop => .invalidLoop
  | .unterminatedString => .unterminatedString
  | .unterminatedTemplateLiteral => .unterminatedTemplateLiteral
  | .unterminatedComment => .unterminatedComment
  | .unterminatedRegExp => .unterminatedRegExp
  | .unexpectedCloser _ => .unbalancedBracket
  | .missingCloser _ => .unbalancedBracket

/-- The wording. -/
def message : Cause → String
  | .duplicateBlock block => "Single file component can contain only one " ++ block.display ++ " element"
  | .unclosedBlock tag => "Element is missing end tag: <" ++ tag ++ ">"
  | .unclosedElement tag => "Element is missing end tag: <" ++ tag ++ ">"
  | .unexpectedClosingTag tag => "Invalid end tag: </" ++ tag ++ ">"
  | .unclosedInterpolation => "Interpolation end sign was not found"
  | .unclosedComment => "Unclosed comment"
  | .invalidLoop => "v-for has invalid expression"
  | .unterminatedString => "Unterminated string literal."
  | .unterminatedTemplateLiteral => "Unterminated template literal."
  | .unterminatedComment => "Unterminated comment."
  | .unterminatedRegExp => "Unterminated regular expression literal."
  | .unexpectedCloser closer => "Unexpected '" ++ closer ++ "'."
  | .missingCloser closer => "'" ++ closer ++ "' expected."

end Cause

/-- A cause, and where it shows. -/
structure Fault where
  cause : Cause
  span : Span
  deriving DecidableEq, Repr

/-- The fault moved from a block to the whole file. -/
def Fault.shift (f : Fault) (base : Nat) : Fault := { f with span := f.span.shift base }

end ComponentLens
