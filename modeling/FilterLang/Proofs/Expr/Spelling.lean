import FilterLang.Token

/-! The tokens that spell a tree, and what else is listed from left to right along it: its
comparisons, and for every group how many groups enclose it. The levels of the groups are the
finer form of the depth: all of them lie below a bound exactly when the depth does not exceed
it. -/

namespace FilterLang

/-- The tokens of a comparison. -/
def Comparison.tokens (c : Comparison) : List Token :=
  [c.left.token, .relation c.relation, c.right.token]

mutual

/-- The tokens of an item; those of a group stand between parentheses. -/
def Expr.tokens : Expr → List Token
  | .comparison c => c.tokens
  | .group inner => .leftParen :: (inner.tokens ++ [.rightParen])

/-- The tokens of a chain, with the connectives in their places. -/
def Chain.tokens : Chain → List Token
  | .one item => item.tokens
  | .join before connective item => before.tokens ++ .connective connective :: item.tokens

end

mutual

/-- The comparisons of an item at any depth. -/
def Expr.comparisons : Expr → List Comparison
  | .comparison c => [c]
  | .group inner => inner.comparisons

/-- The comparisons of a chain at any depth. -/
def Chain.comparisons : Chain → List Comparison
  | .one item => item.comparisons
  | .join before _ item => before.comparisons ++ item.comparisons

end

mutual

/-- For every group of an item, how many groups of the item enclose it. -/
def Expr.groupLevels : Expr → List Nat
  | .comparison _ => []
  | .group inner => 0 :: inner.groupLevels.map (· + 1)

/-- For every group of a chain, how many groups of the chain enclose it. -/
def Chain.groupLevels : Chain → List Nat
  | .one item => item.groupLevels
  | .join before _ item => before.groupLevels ++ item.groupLevels

end

mutual

theorem Expr.groupLevels_lt_iff (room : Nat) :
    (e : Expr) → ((∀ k ∈ e.groupLevels, k < room) ↔ e.depth ≤ room)
  | .comparison c => by simp [Expr.groupLevels, Expr.depth]
  | .group inner => by
    have ih := Chain.groupLevels_lt_iff (room - 1) inner
    simp only [Expr.groupLevels, Expr.depth, List.mem_cons, List.mem_map, forall_eq_or_imp,
      forall_exists_index, and_imp, forall_apply_eq_imp_iff₂]
    constructor
    · rintro ⟨hroom, hlevels⟩
      have := ih.mp fun k hk => by have := hlevels k hk; omega
      omega
    · intro hdepth
      refine ⟨by omega, fun k hk => ?_⟩
      have := ih.mpr (by omega) k hk
      omega

theorem Chain.groupLevels_lt_iff (room : Nat) :
    (c : Chain) → ((∀ k ∈ c.groupLevels, k < room) ↔ c.depth ≤ room)
  | .one item => Expr.groupLevels_lt_iff room item
  | .join before connective item => by
    have hb := Chain.groupLevels_lt_iff room before
    have hi := Expr.groupLevels_lt_iff room item
    simp only [Chain.groupLevels, Chain.depth, List.mem_append, or_imp, forall_and, hb, hi]
    omega

end

/-- Below `depth` groups, the limit is kept by every group exactly when the tree is no deeper than
what is left of the limit. -/
theorem Chain.within_iff (c : Chain) (depth limit : Nat) :
    (∀ k ∈ c.groupLevels, depth + k < limit) ↔ c.depth ≤ limit - depth := by
  rw [← Chain.groupLevels_lt_iff]
  exact forall₂_congr fun k _ => by omega

namespace Token

/-- A token is an operand exactly when it is the token of that operand. -/
theorem operand?_eq_some_iff {t : Token} {o : Operand} : t.operand? = some o ↔ t = o.token := by
  cases t <;> cases o <;> simp [operand?, Operand.token]

theorem relation?_eq_some_iff {t : Token} {r : Relation} :
    t.relation? = some r ↔ t = .relation r := by
  cases t <;> simp [relation?]

theorem connective?_eq_some_iff {t : Token} {k : Connective} :
    t.connective? = some k ↔ t = .connective k := by
  cases t <;> simp [connective?]

end Token

@[simp] theorem Operand.operand?_token (o : Operand) : o.token.operand? = some o :=
  Token.operand?_eq_some_iff.mpr rfl

theorem Operand.token_ne_leftParen (o : Operand) : o.token ≠ .leftParen := by
  cases o <;> simp [Operand.token]

end FilterLang
