import FilterLang.Binary64.Text
import FilterLang.Json
import FilterLang.Text.Quoted

/-! Values: what literals denote, what symbols resolve to, and what comparisons work on. -/

namespace FilterLang

/-- A value. -/
inductive Value where
  | integer (n : Int64)
  | real (x : Binary64)
  | text (s : String)
  | boolean (b : Bool)
  deriving DecidableEq

namespace Value

/-- The name of the value's kind in diagnostics. -/
def kind : Value → String
  | .integer _ => "integer"
  | .real _ => "float"
  | .text _ => "string"
  | .boolean _ => "bool"

/-- The value as a real, if it is a number; an integer becomes the nearest one. -/
def asReal? : Value → Option Binary64
  | .integer n => some (.ofInt n.toInt)
  | .real x => some x
  | .text _ => none
  | .boolean _ => none

/-- The value as it is written in an expression. -/
def render : Value → String
  | .integer n => String.ofList (Text.Digits.numeral n.toInt)
  | .real x => String.ofList x.text
  | .text s => String.ofList (Text.Quoted.encode s.toList)
  | .boolean b => if b then "true" else "false"

/-- Equality of what the values denote: as reals, a NaN differs from itself and the zeros are
equal. Values of different kinds differ. -/
def same : Value → Value → Bool
  | .real x, .real y => x.same y
  | x, y => x == y

/-- A JSON scalar as a value. -/
def ofJson? : Json → Option Value
  | .boolean b => some (.boolean b)
  | .number (.integer n) => some (.integer n)
  | .number (.real x) => some (.real x)
  | .text s => some (.text s)
  | .null => none
  | .array _ => none
  | .object _ => none

end Value

end FilterLang
