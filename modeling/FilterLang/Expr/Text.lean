import FilterLang.Expr

/-! The canonical text of a tree: single spaces between the parts of a comparison and around
connectives, and parentheses around the contents of a group. -/

namespace FilterLang

/-- The text of an operand. -/
def Operand.render : Operand → String
  | .literal value => value.render
  | .symbol name => name

/-- The text of a comparison. -/
def Comparison.render (c : Comparison) : String :=
  c.left.render ++ " " ++ c.relation.render ++ " " ++ c.right.render

mutual

/-- The text of an item. -/
def Expr.render : Expr → String
  | .comparison c => c.render
  | .group inner => "(" ++ inner.render ++ ")"

/-- The text of a chain. -/
def Chain.render : Chain → String
  | .one item => item.render
  | .join before connective item =>
    before.render ++ " " ++ connective.render ++ " " ++ item.render

end

end FilterLang
