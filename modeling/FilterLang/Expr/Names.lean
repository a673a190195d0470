import FilterLang.Expr
import FilterLang.NameMap

/-! The symbols of a tree: every name that stands on a side of a comparison at any depth, also
where an evaluation would not come. The search puts the contents of groups off until it is through
with the chain at hand, so that deep groups do not nest calls. -/

namespace FilterLang

mutual

/-- How many groups an item holds. -/
def Expr.groupCount : Expr → Nat
  | .comparison _ => 0
  | .group inner => inner.groupCount + 1

/-- How many groups a chain holds. -/
def Chain.groupCount : Chain → Nat
  | .one item => item.groupCount
  | .join before _ item => before.groupCount + item.groupCount

end

/-- A search for names: the chains put off, the next one first, and the names found. -/
structure Search where
  pending : List Chain
  found : NameMap Unit

namespace Search

/-- Takes down the name of an operand that is a symbol. -/
def operand (s : Search) : Operand → Search
  | .literal _ => s
  | .symbol name => { s with found := s.found.insert name () }

/-- Takes down the names of a comparison, and puts off the contents of a group. -/
def item (s : Search) : Expr → Search
  | .comparison c => (s.operand c.left).operand c.right
  | .group inner => { s with pending := inner :: s.pending }

/-- Looks at the items of a chain from left to right. -/
def chain (s : Search) : Chain → Search
  | .one e => s.item e
  | .join before _ e => (s.chain before).item e

/-- How many chains the search has still to look at. -/
def work (s : Search) : Nat := s.pending.foldr (fun c n => n + c.groupCount + 1) 0

@[simp] theorem pending_operand (s : Search) (o : Operand) : (s.operand o).pending = s.pending := by
  cases o <;> rfl

theorem work_item (s : Search) (e : Expr) : (s.item e).work = s.work + e.groupCount := by
  cases e with
  | comparison c => simp [item, work, Expr.groupCount]
  | group inner => simp [item, work, Expr.groupCount, Nat.add_assoc]

theorem work_chain (s : Search) (c : Chain) : (s.chain c).work = s.work + c.groupCount := by
  induction c using chain.induct with
  | case1 e => exact s.work_item e
  | case2 before k e ih => rw [chain, work_item, ih, Chain.groupCount, Nat.add_assoc]

/-- The names found when nothing is put off any more. -/
def finish : Search → NameMap Unit
  | ⟨[], found⟩ => found
  | ⟨c :: rest, found⟩ => (chain ⟨rest, found⟩ c).finish
termination_by s => s.work
decreasing_by
  rw [work_chain]
  simp only [work, List.foldr_cons]
  omega

end Search

/-- The symbols of a chain in ascending order, each once. -/
def Chain.symbols (c : Chain) : List String := (Search.finish ⟨[c], .empty⟩).names

end FilterLang
