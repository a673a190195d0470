import FilterLang.Binary64

/-! JSON values as host data. Only the kind of an array or object matters to the language, but the
members of an object can define symbols. -/

namespace FilterLang

/-- A JSON number: an integer that fits in 64 bits, or a real. -/
inductive Json.Number where
  | integer (n : Int64)
  | real (x : Binary64)
  deriving DecidableEq

/-- A JSON value; an object keeps its members in the order of the text, repeated ones included. -/
inductive Json where
  | null
  | boolean (b : Bool)
  | number (n : Json.Number)
  | text (s : String)
  | array (items : List Json)
  | object (members : List (String × Json))

namespace Json

/-- The name of the value's kind in diagnostics. -/
def kind : Json → String
  | .null => "null"
  | .boolean _ => "bool"
  | .number _ => "number"
  | .text _ => "string"
  | .array _ => "array"
  | .object _ => "object"

end Json

end FilterLang
