import FilterLang.Operator
import FilterLang.Value

/-! Expression trees. A chain joins comparisons and groups by connectives, and it is built from
the left: a chain is one item, or a shorter chain joined to one more item. There is no precedence
between the connectives, so this is also the order of evaluation; only a group changes it. -/

namespace FilterLang

/-- A side of a comparison: a constant, or the name of a symbol. -/
inductive Operand where
  | literal (value : Value)
  | symbol (name : String)
  deriving DecidableEq

/-- A comparison. -/
structure Comparison where
  left : Operand
  relation : Relation
  right : Operand
  deriving DecidableEq

mutual

/-- An item of a chain. -/
inductive Expr where
  | comparison (c : Comparison)
  | group (inner : Chain)

/-- A chain of items, joined from left to right. -/
inductive Chain where
  | one (item : Expr)
  | join (before : Chain) (connective : Connective) (item : Expr)

end

deriving instance DecidableEq for Expr, Chain

namespace Chain

/-- Joins one more item by `and`. -/
def and (c : Chain) (item : Expr) : Chain := .join c .and item

/-- Joins one more item by `or`. -/
def or (c : Chain) (item : Expr) : Chain := .join c .or item

end Chain

/-- Operands are the same when their constants denote the same or their names are equal. -/
def Operand.same : Operand → Operand → Bool
  | .literal v, .literal w => v.same w
  | .symbol m, .symbol n => m == n
  | _, _ => false

/-- Comparisons are the same part by part. -/
def Comparison.same (c d : Comparison) : Bool :=
  c.left.same d.left && c.relation == d.relation && c.right.same d.right

mutual

/-- How deep groups nest in an item. -/
def Expr.depth : Expr → Nat
  | .comparison _ => 0
  | .group inner => inner.depth + 1

/-- How deep groups nest in a chain. -/
def Chain.depth : Chain → Nat
  | .one item => item.depth
  | .join before _ item => max before.depth item.depth

end

mutual

/-- Items are the same when they have one shape and the same comparisons; one with a NaN is not
the same as itself. -/
def Expr.same : Expr → Expr → Bool
  | .comparison c, .comparison d => c.same d
  | .group c, .group d => c.same d
  | _, _ => false

/-- Chains are the same when they have one shape and the same comparisons. -/
def Chain.same : Chain → Chain → Bool
  | .one e, .one f => e.same f
  | .join c k e, .join d l f => c.same d && k == l && e.same f
  | _, _ => false

end

end FilterLang
