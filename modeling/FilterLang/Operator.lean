import FilterLang.Text.Blank

/-! The comparison relations and the connectives, with their written forms. -/

namespace FilterLang

/-- A relation between the two sides of a comparison. -/
inductive Relation where
  | equal
  | notEqual
  | greater
  | greaterOrEqual
  | less
  | lessOrEqual
  deriving DecidableEq

/-- A connective between the items of a chain. -/
inductive Connective where
  | and
  | or
  deriving DecidableEq

namespace Relation

/-- The relation as it is written. -/
def render : Relation → String
  | .equal => "="
  | .notEqual => "!="
  | .greater => ">"
  | .greaterOrEqual => ">="
  | .less => "<"
  | .lessOrEqual => "<="

/-- Does the relation ask for equality or difference only? -/
def isEquality : Relation → Bool
  | .equal => true
  | .notEqual => true
  | _ => false

/-- Every relation. -/
def all : List Relation := [.equal, .notEqual, .greater, .greaterOrEqual, .less, .lessOrEqual]

/-- The relation that is written so. -/
def ofText? (text : String) : Option Relation := all.find? fun r => r.render = text

/-- The answer of an equality relation, given whether the sides are equal. Only `!=` turns it. -/
def holdsOnEquality : Relation → Bool → Bool
  | .notEqual, same => !same
  | _, same => same

/-- The answer of a relation, given how the sides are ordered. Sides that stand in no order
satisfy no relation. -/
def holdsOnOrder : Relation → Option Ordering → Bool
  | _, none => false
  | .equal, some o => o.isEq
  | .notEqual, some o => o.isNe
  | .greater, some o => o.isGT
  | .greaterOrEqual, some o => o.isGE
  | .less, some o => o.isLT
  | .lessOrEqual, some o => o.isLE

end Relation

namespace Connective

/-- The connective as it is written. -/
def render : Connective → String
  | .and => "and"
  | .or => "or"

/-- The connective that is written so. -/
def ofText? (text : String) : Option Connective := [.and, .or].find? fun c => c.render = text

/-- The result that decides the connective before its right side is looked at. -/
def decisive : Connective → Bool
  | .and => false
  | .or => true

end Connective

end FilterLang
