import FilterLang.Expr

/-! Tokens: the words of the language, with what they mean to the parser and how a diagnostic
names them. -/

namespace FilterLang

/-- A token. Blank text is left out of what a scan gives, but it is a token all the same. -/
inductive Token where
  | literal (value : Value)
  | name (name : String)
  | relation (r : Relation)
  | connective (c : Connective)
  | leftParen
  | rightParen
  | blank
  deriving DecidableEq

/-- A token with the byte offset of its text. -/
structure Placed where
  token : Token
  offset : Nat
  deriving DecidableEq

namespace Token

/-- How a diagnostic names the token. -/
def describe : Token → String
  | .literal (.integer n) => "integer " ++ (Value.integer n).render
  | .literal (.real x) => "float " ++ (Value.real x).render
  | .literal (.text s) => "string " ++ (Value.text s).render
  | .literal (.boolean b) => "'" ++ (Value.boolean b).render ++ "'"
  | .name n => "identifier '" ++ n ++ "'"
  | .relation r => "'" ++ r.render ++ "'"
  | .connective c => "'" ++ c.render ++ "'"
  | .leftParen => "'('"
  | .rightParen => "')'"
  | .blank => "whitespace"

/-- The operand that the token is, if it is one. -/
def operand? : Token → Option Operand
  | .literal v => some (.literal v)
  | .name n => some (.symbol n)
  | _ => none

/-- The relation that the token is, if it is one. -/
def relation? : Token → Option Relation
  | .relation r => some r
  | _ => none

/-- The connective that the token is, if it is one. -/
def connective? : Token → Option Connective
  | .connective c => some c
  | _ => none

end Token

/-- The token of an operand. -/
def Operand.token : Operand → Token
  | .literal v => .literal v
  | .symbol n => .name n

end FilterLang
