import FilterLang.Expr.Parse
import FilterLang.Symbol
import FilterLang.Value.Compare

/-! Evaluation. A chain is folded from left to right; an item whose connective is decided by the
result before it is passed over, so that its symbols are never asked for. The left side of a
comparison is resolved before the right one, and the first failure ends the evaluation. -/

namespace FilterLang

variable {τ : Type}

/-- The value of an operand. -/
def Operand.resolve (source : Source τ) : Operand → τ → Except Failure Value × τ
  | .literal v, s => (.ok v, s)
  | .symbol name, s => source name s

/-- Does the comparison hold? -/
def Comparison.evaluate (source : Source τ) (c : Comparison) (s : τ) : Except Failure Bool × τ :=
  match c.left.resolve source s with
  | (.error f, s) => (.error f, s)
  | (.ok left, s) =>
    match c.right.resolve source s with
    | (.error f, s) => (.error f, s)
    | (.ok right, s) => ((c.relation.compare left right).mapError .error, s)

mutual

/-- Does the item hold? -/
def Expr.evaluate (source : Source τ) : Expr → τ → Except Failure Bool × τ
  | .comparison c, s => c.evaluate source s
  | .group inner, s => inner.evaluate source s

/-- Does the chain hold? -/
def Chain.evaluate (source : Source τ) : Chain → τ → Except Failure Bool × τ
  | .one item, s => item.evaluate source s
  | .join before connective item, s =>
    match before.evaluate source s with
    | (.error f, s) => (.error f, s)
    | (.ok result, s) =>
      if result = connective.decisive then (.ok result, s) else item.evaluate source s

end

/-- Why a text has no result. -/
inductive Problem where
  | parse (e : ParseError)
  | failure (f : Failure)

/-- Reads a text and evaluates it. -/
def evaluateText (source : Source τ) (text : String) (s : τ) : Except Problem Bool × τ :=
  match parse text with
  | .error e => (.error (.parse e), s)
  | .ok c =>
    let (result, s) := c.evaluate source s
    (result.mapError .failure, s)

end FilterLang
