import FilterLang.Token

/-! Why a text is not an expression, with the byte offset of the first problem. -/

namespace FilterLang

/-- What was to come where a token does not fit or the text ends. -/
inductive Expected where
  | operand
  | relation
  | groupEnd
  deriving DecidableEq

/-- A problem of a text. -/
inductive ParseError where
  | invalidToken (fragment : String) (offset : Nat)
  | unexpectedToken (expected : Expected) (found : Token) (offset : Nat)
  | unexpectedEnd (expected : Expected) (offset : Nat)
  | unclosedGroup (offset : Nat)
  | trailingToken (found : Token) (offset : Nat)
  | nestingTooDeep (offset : Nat)
  | empty
  deriving DecidableEq

/-- How deep groups may nest. -/
def maxDepth : Nat := 256

namespace Expected

/-- How a diagnostic names it. -/
def describe : Expected → String
  | .operand => "a value or symbol"
  | .relation => "a comparison operator"
  | .groupEnd => "'and', 'or' or ')'"

end Expected

namespace ParseError

/-- The byte offset of the problem. -/
def offset : ParseError → Nat
  | .invalidToken _ p => p
  | .unexpectedToken _ _ p => p
  | .unexpectedEnd _ p => p
  | .unclosedGroup p => p
  | .trailingToken _ p => p
  | .nestingTooDeep p => p
  | .empty => 0

/-- What is wrong, without the place. -/
def reason : ParseError → String
  | .invalidToken fragment _ => "Invalid token '" ++ fragment ++ "'."
  | .unexpectedToken expected found _ =>
    "Expected " ++ expected.describe ++ ", found " ++ found.describe ++ "."
  | .unexpectedEnd expected _ => "Unexpected end of input, expected " ++ expected.describe ++ "."
  | .unclosedGroup _ => "Expected closing parenthesis ')' but none found."
  | .trailingToken found _ => "Extra tokens after expression: " ++ found.describe ++ "."
  | .nestingTooDeep _ => s!"Groups nested deeper than {maxDepth} levels."
  | .empty => "Expression is empty."

/-- The message of the error. -/
def message (e : ParseError) : String := s!"Error at offset {e.offset}: " ++ e.reason

end ParseError

end FilterLang
