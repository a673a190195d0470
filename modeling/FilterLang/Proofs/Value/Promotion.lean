import FilterLang.Proofs.Binary64.Nearest
import FilterLang.Proofs.Value.Coherence

/-! Comparing an integer with a real. The integer is compared as the nearest number that a double
denotes. As rounding gets past no such number, a comparison never reverses the exact order; and as
an integer of at most 53 bits is such a number itself, its comparisons are the exact ones. -/

namespace FilterLang

open Binary64 (IsNearest)

/-- Does the relation hold between two members of a linear order? -/
def Relation.between {α : Type} [LinearOrder α] (a b : α) : Relation → Bool
  | .equal => a = b
  | .notEqual => a ≠ b
  | .greater => b < a
  | .greaterOrEqual => b ≤ a
  | .less => a < b
  | .lessOrEqual => a ≤ b

theorem Relation.verdict_cmp {α : Type} [LinearOrder α] (op : Relation) (a b : α) :
    op.verdict (some (cmp a b)) = op.between a b := by
  rcases lt_trichotomy a b with h | h | h
  · rw [h.cmp_eq_lt]
    cases op <;> simp [verdict, holdsOnOrder, between, h, h.le, h.ne, h.not_gt]
  · rw [h.cmp_eq_eq]
    cases op <;> simp [verdict, holdsOnOrder, between, h]
  · rw [h.cmp_eq_gt]
    cases op <;> simp [verdict, holdsOnOrder, between, h, h.le, h.ne', h.not_gt]

namespace Value

variable {n : Int64} {x y : Binary64} {v : Extended} {w : ℚ}

theorem isNearest_integer (n : Int64) : ∃ w, (Binary64.ofInt n.toInt).IsNearest n.toInt w := by
  apply Binary64.isNearest_ofInt
  have hmin := n.le_toInt
  have hmax := n.toInt_lt
  omega

/-- An integer is compared with a real as the nearest number is. -/
theorem compare_of_isNearest (hy : y.IsNearest n.toInt w) (hx : x.number? = some v)
    (op : Relation) : op.compare (.integer n) (.real x) = .ok (op.between (w : Extended) v) := by
  obtain ⟨w', hn⟩ := isNearest_integer n
  obtain rfl := hn.unique hy
  have horder : (Value.integer n).order? (.real x) = some (some (cmp (w' : Extended) v)) :=
    congrArg some (Binary64.order?_eq_cmp hn.denotes hx)
  rw [Relation.compare_of_order? horder, Relation.verdict_cmp]

/-- An integer of at most 53 bits is compared with a real exactly. -/
theorem compare_exact (hn : n.toInt.natAbs ≤ 2 ^ 53) (hx : x.number? = some v) (op : Relation) :
    op.compare (.integer n) (.real x) = .ok (op.between ((n.toInt : ℚ) : Extended) v) := by
  obtain ⟨w, hw⟩ := isNearest_integer n
  obtain ⟨y, hy⟩ := Binary64.exists_number?_eq_int hn
  obtain rfl := hw.eq_of_number? hy
  exact compare_of_isNearest hw hx op

/-- Comparing an integer with a real never reverses the exact order. They are equal exactly when the
real denotes the number nearest to the integer, and up to 53 bits all relations are the exact
ones. -/
theorem compare_integer_real (n : Int64) (hx : x.number? = some v) :
    (((n.toInt : ℚ) : Extended) ≤ v →
      Relation.lessOrEqual.compare (.integer n) (.real x) = .ok true) ∧
    (v ≤ ((n.toInt : ℚ) : Extended) →
      Relation.greaterOrEqual.compare (.integer n) (.real x) = .ok true) ∧
    ((∃ y w, IsNearest y n.toInt w) ∧ ∀ y w, IsNearest y n.toInt w →
      (Relation.equal.compare (.integer n) (.real x) = .ok true ↔ v = (w : Extended))) ∧
    (n.toInt.natAbs ≤ 2 ^ 53 → ∀ op : Relation,
      op.compare (.integer n) (.real x) = .ok (op.between ((n.toInt : ℚ) : Extended) v)) := by
  obtain ⟨w, hw⟩ := isNearest_integer n
  refine ⟨fun h => ?_, fun h => ?_, ⟨⟨_, w, hw⟩, fun y w hy => ?_⟩, fun h => compare_exact h hx⟩
  · rw [compare_of_isNearest hw hx]
    exact congrArg Except.ok (decide_eq_true (hw.le_of_le hx h))
  · rw [compare_of_isNearest hw hx]
    exact congrArg Except.ok (decide_eq_true (hw.ge_of_ge hx h))
  · rw [compare_of_isNearest hy hx, Except.ok.injEq, Relation.between, decide_eq_true_iff, eq_comm]

/-- Two to the power of 53, from which on not every integer is denoted by a double. -/
def boundary : Binary64 := .finite false ⟨0x4340000000000000, by decide⟩

theorem number?_boundary : boundary.number? = some ((2 ^ 53 : ℚ) : Extended) := by
  have hfields : Magnitude.number ⟨0x4340000000000000, by decide⟩ = 2 ^ 53 := by
    norm_num [Magnitude.number, Magnitude.exponentField, Magnitude.fractionField]
  rw [boundary, Binary64.number?, hfields]
  rfl

/-- The integers beside the boundary. The one after it is halfway between two doubles and rounds to
the boundary, the one before it is compared exactly. -/
theorem compare_integer_real_boundary :
    boundary.number? = some ((2 ^ 53 : ℚ) : Extended) ∧
    ((2 ^ 53 : ℚ) : Extended) ≤ (((0x20000000000001 : Int64).toInt : ℚ) : Extended) ∧
    Relation.greaterOrEqual.compare (.integer 0x20000000000001) (.real boundary) = .ok true ∧
    (∃ y w, IsNearest y (0x20000000000001 : Int64).toInt w ∧
      ((2 ^ 53 : ℚ) : Extended) = (w : Extended)) ∧
    (((0x1fffffffffffff : Int64).toInt : ℚ) : Extended) ≤ ((2 ^ 53 : ℚ) : Extended) ∧
    Relation.lessOrEqual.compare (.integer 0x1fffffffffffff) (.real boundary) = .ok true ∧
    (0x1fffffffffffff : Int64).toInt.natAbs ≤ 2 ^ 53 ∧
    Relation.notEqual.compare (.integer 0x1fffffffffffff) (.real boundary) =
      .ok (Relation.between (((0x1fffffffffffff : Int64).toInt : ℚ) : Extended)
        ((2 ^ 53 : ℚ) : Extended) .notEqual) := by
  have hafter : ((2 ^ 53 : ℚ) : Extended) ≤ (((0x20000000000001 : Int64).toInt : ℚ) : Extended) := by
    have hint : (0x20000000000001 : Int64).toInt = 2 ^ 53 + 1 := by decide
    rw [hint]
    exact WithBotTop.coe_le_coe.mpr (by norm_num)
  have hbefore : (((0x1fffffffffffff : Int64).toInt : ℚ) : Extended) ≤ ((2 ^ 53 : ℚ) : Extended) := by
    have hint : (0x1fffffffffffff : Int64).toInt = 2 ^ 53 - 1 := by decide
    rw [hint]
    exact WithBotTop.coe_le_coe.mpr (by norm_num)
  have hsmall : (0x1fffffffffffff : Int64).toInt.natAbs ≤ 2 ^ 53 := by decide
  have hround : Relation.equal.compare (.integer 0x20000000000001) (.real boundary) = .ok true := by
    decide +kernel
  obtain ⟨-, hge, ⟨⟨y, w, hy⟩, hequal⟩, -⟩ :=
    compare_integer_real 0x20000000000001 number?_boundary
  obtain ⟨hle, -, -, hexact⟩ := compare_integer_real 0x1fffffffffffff number?_boundary
  exact ⟨number?_boundary, hafter, hge hafter, ⟨y, w, hy, (hequal y w hy).mp hround⟩, hbefore,
    hle hbefore, hsmall, hexact hsmall .notEqual⟩

end Value

end FilterLang
