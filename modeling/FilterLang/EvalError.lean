import FilterLang.Expr

/-! Why an evaluation, or the making of a part of a tree from loose data, fails. -/

namespace FilterLang

/-- A failure of an evaluation or of loose data. -/
inductive EvalError where
  /-- The source has no such name. -/
  | unknownSymbol (name : String)
  /-- The name stands for JSON data that is no scalar. -/
  | notScalar (name : String) (kind : String)
  /-- An operand was to be made from JSON data that is no scalar. -/
  | noValue (kind : String)
  /-- No connective is written so. -/
  | unknownConnective (text : String)
  /-- No relation is written so. -/
  | unknownRelation (text : String)
  /-- The kinds of the two sides do not go together. -/
  | mismatch (relation : Relation) (left right : Value)
  /-- Values of the left side's kind have no order. -/
  | unordered (relation : Relation) (left : Value)
  /-- The symbol's resolver failed. -/
  | resolver (name : String) (reason : String)
  deriving DecidableEq

namespace EvalError

/-- The message of the error. -/
def message : EvalError → String
  | .unknownSymbol name => "Symbol not found: '" ++ name ++ "'."
  | .notScalar name kind => "Symbol '" ++ name ++ "' has unsupported type " ++ kind ++ "."
  | .noValue kind => "Value is not specified: found " ++ kind ++ "."
  | .unknownConnective text => "Logical operator not specified: '" ++ text ++ "'."
  | .unknownRelation text => "Comparison operator not specified: '" ++ text ++ "'."
  | .mismatch relation left right =>
    "Wrong data type: can't use " ++ relation.render ++ " on " ++ left.render ++ " of type " ++
      left.kind ++ " and " ++ right.render ++ " of type " ++ right.kind ++ "."
  | .unordered relation left =>
    "Wrong data type: can't use " ++ relation.render ++ " on " ++ left.render ++ " of type " ++
      left.kind ++ "."
  | .resolver name reason => "Symbol '" ++ name ++ "': " ++ reason

/-- The symbol that the error is about, if it is about one. -/
def symbol? : EvalError → Option String
  | .unknownSymbol name => some name
  | .notScalar name _ => some name
  | .resolver name _ => some name
  | _ => none

/-- Is it a comparison that failed for the kinds of its sides? -/
def isTypeError : EvalError → Bool
  | .mismatch _ _ _ => true
  | .unordered _ _ => true
  | _ => false

/-- The reason that a resolver gave. -/
def reason? : EvalError → Option String
  | .resolver _ reason => some reason
  | _ => none

end EvalError

/-- Reads a relation, with blanks around it. -/
def Relation.read (text : String) : Except EvalError Relation :=
  let word := String.ofList (Text.trim text.toList)
  match Relation.ofText? word with
  | some r => .ok r
  | none => .error (.unknownRelation word)

/-- Reads a connective, with blanks around it. -/
def Connective.read (text : String) : Except EvalError Connective :=
  let word := String.ofList (Text.trim text.toList)
  match Connective.ofText? word with
  | some c => .ok c
  | none => .error (.unknownConnective word)

/-- Makes a constant from JSON data. A string becomes a string, never a symbol. -/
def Operand.ofJson (json : Json) : Except EvalError Operand :=
  match Value.ofJson? json with
  | some v => .ok (.literal v)
  | none => .error (.noValue json.kind)

end FilterLang
