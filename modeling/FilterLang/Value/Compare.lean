import FilterLang.EvalError

/-! Comparing values. Two integers are compared as integers; where a real is involved, the integer
becomes the nearest real first. Strings are ordered by their bytes, which is the order of their
code points. Booleans have no order. -/

namespace FilterLang

namespace Value

/-- Are two values equal? None if their kinds do not go together. -/
def equal? : Value → Value → Option Bool
  | .integer m, .integer n => some (m == n)
  | .integer m, .real y => some ((Binary64.ofInt m.toInt).same y)
  | .real x, .integer n => some (x.same (.ofInt n.toInt))
  | .real x, .real y => some (x.same y)
  | .text s, .text t => some (s == t)
  | .boolean a, .boolean b => some (a == b)
  | _, _ => none

/-- How are two values ordered? None if their kinds do not go together or have no order; a NaN
goes together with every number, but stands in no order to it. -/
def order? : Value → Value → Option (Option Ordering)
  | .integer m, .integer n => some (some (compare m.toInt n.toInt))
  | .integer m, .real y => some ((Binary64.ofInt m.toInt).order? y)
  | .real x, .integer n => some (x.order? (.ofInt n.toInt))
  | .real x, .real y => some (x.order? y)
  | .text s, .text t => some (some (compare s t))
  | _, _ => none

end Value

/-- Does the relation hold between two values? -/
def Relation.compare (r : Relation) (left right : Value) : Except EvalError Bool :=
  if r.isEquality then
    match left.equal? right with
    | some same => .ok (r.holdsOnEquality same)
    | none => .error (.mismatch r left right)
  else
    match left, left.order? right with
    | _, some order => .ok (r.holdsOnOrder order)
    | .boolean _, none => .error (.unordered r left)
    | _, none => .error (.mismatch r left right)

end FilterLang
