import FilterLang.Value.Compare
import Mathlib.Logic.ExistsUnique

/-! How the answers of the six relations fit together. Equality and order are found in separate
ways, but where two values can be ordered, they are equal exactly when the order says so; and what
the order says turns round with the two sides. So every relation between values that can be ordered
is a verdict on one ordering, or on the lack of one where a NaN is concerned. -/

namespace FilterLang

/-! ### The order of reals -/

namespace Binary64

variable {x y : Binary64}

theorem rank?_eq_none_iff : x.rank? = none ↔ x = .nan := by
  cases x <;> simp [rank?]

theorem order?_eq_none_iff : x.order? y = none ↔ x = .nan ∨ y = .nan := by
  rw [← rank?_eq_none_iff, ← rank?_eq_none_iff]
  unfold order?
  cases x.rank? <;> cases y.rank? <;> simp

theorem signed_ne_nan (negative : Bool) (m : Option Magnitude) : signed negative m ≠ .nan := by
  cases m <;> simp [signed]

theorem ofInt_ne_nan (n : Int) : ofInt n ≠ .nan := signed_ne_nan _ _

theorem order?_swap (x y : Binary64) : y.order? x = (x.order? y).map Ordering.swap := by
  unfold order?
  cases x.rank? with
  | none => cases y.rank? <;> rfl
  | some a =>
    cases y.rank? with
    | none => rfl
    | some b => exact congrArg some Std.OrientedOrd.eq_swap

theorem same_comm (x y : Binary64) : y.same x = x.same y := by
  unfold same
  rw [order?_swap]
  rcases x.order? y with _ | _ | _ | _ <;> rfl

end Binary64

/-! ### Equality and order of values -/

namespace Value

/-- Is the value an integer or a real? -/
def IsNumber : Value → Prop
  | .integer _ => True
  | .real _ => True
  | _ => False

/-- Is the value a string? -/
def IsText : Value → Prop
  | .text _ => True
  | _ => False

/-- Is the value a truth value? -/
def IsBoolean : Value → Prop
  | .boolean _ => True
  | _ => False

/-- Is the value a NaN? -/
def IsNan : Value → Prop
  | .real x => x = .nan
  | _ => False

variable {l r : Value} {o : Option Ordering}

theorem order?_isSome_iff :
    (l.order? r).isSome ↔ (l.IsNumber ∧ r.IsNumber) ∨ (l.IsText ∧ r.IsText) := by
  cases l <;> cases r <;> simp [order?, IsNumber, IsText]

theorem equal?_isSome_iff :
    (l.equal? r).isSome ↔
      (l.IsNumber ∧ r.IsNumber) ∨ (l.IsText ∧ r.IsText) ∨ (l.IsBoolean ∧ r.IsBoolean) := by
  cases l <;> cases r <;> simp [equal?, IsNumber, IsText, IsBoolean]

/-- Values that go together stand in no order exactly where one of them is a NaN. -/
theorem isNan_iff_of_order? (h : l.order? r = some o) : o = none ↔ l.IsNan ∨ r.IsNan := by
  cases l <;> cases r <;> cases h <;>
    simp [IsNan, Binary64.order?_eq_none_iff, Binary64.ofInt_ne_nan]

/-- Where values can be ordered, they are equal exactly when the order says so. -/
theorem equal?_of_order? (h : l.order? r = some o) : l.equal? r = some (o == some .eq) := by
  cases l <;> cases r <;> cases h
  case integer.integer m n =>
    refine congrArg some (Bool.eq_iff_iff.mpr ?_)
    rw [beq_iff_eq, beq_iff_eq, Option.some.injEq, Std.compare_eq_iff_eq, Int64.toInt_inj]
  case text.text s t =>
    refine congrArg some (Bool.eq_iff_iff.mpr ?_)
    rw [beq_iff_eq, beq_iff_eq, Option.some.injEq, Std.compare_eq_iff_eq]
  all_goals rfl

theorem order?_swap (l r : Value) : r.order? l = (l.order? r).map (Option.map Ordering.swap) := by
  cases l <;> cases r
  case integer.integer | text.text => exact congrArg (some ∘ some) Std.OrientedOrd.eq_swap
  case integer.real | real.integer | real.real => exact congrArg some (Binary64.order?_swap _ _)
  all_goals rfl

theorem equal?_comm (l r : Value) : r.equal? l = l.equal? r := by
  cases l <;> cases r
  case integer.integer | text.text | boolean.boolean => exact congrArg some Bool.beq_comm
  case integer.real | real.integer | real.real => exact congrArg some (Binary64.same_comm _ _)
  all_goals rfl

end Value

/-! ### The relations -/

namespace Relation

variable {l r : Value} {o : Option Ordering} {e : EvalError} {op : Relation}

/-- What the relation says of values that stand so to each other. -/
def verdict : Relation → Option Ordering → Bool
  | .notEqual, o => o != some .eq
  | op, o => op.holdsOnOrder o

/-- The relation that says the same with the sides exchanged. -/
def mirror : Relation → Relation
  | .greater => .less
  | .greaterOrEqual => .lessOrEqual
  | .less => .greater
  | .lessOrEqual => .greaterOrEqual
  | op => op

/-- Between values that can be ordered every relation is a verdict on how they stand. -/
theorem compare_of_order? (h : l.order? r = some o) (op : Relation) :
    op.compare l r = .ok (op.verdict o) := by
  unfold compare
  rw [Value.equal?_of_order? h, h]
  cases op <;> rcases o with _ | _ | _ | _ <;> rfl

theorem compare_of_equal? {same : Bool} (hop : op.isEquality) (h : l.equal? r = some same) :
    op.compare l r = .ok (op.holdsOnEquality same) := by
  unfold compare
  rw [if_pos hop, h]

theorem compare_of_equal?_none (hop : op.isEquality) (h : l.equal? r = none) :
    op.compare l r = .error (.mismatch op l r) := by
  unfold compare
  rw [if_pos hop, h]

theorem compare_of_isBoolean (hop : ¬op.isEquality) (hl : l.IsBoolean) (r : Value) :
    op.compare l r = .error (.unordered op l) := by
  unfold compare
  rw [if_neg hop]
  cases l with
  | boolean b => rfl
  | _ => exact hl.elim

theorem compare_of_order?_none (hop : ¬op.isEquality) (hl : ¬l.IsBoolean)
    (h : l.order? r = none) : op.compare l r = .error (.mismatch op l r) := by
  unfold compare
  rw [if_neg hop, h]
  cases l with
  | boolean b => exact absurd trivial hl
  | _ => rfl

theorem exists_compare_iff_equal? (hop : op.isEquality) :
    (∃ b, op.compare l r = .ok b) ↔ (l.equal? r).isSome := by
  cases h : l.equal? r with
  | some same => simp [compare_of_equal? hop h]
  | none => simp [compare_of_equal?_none hop h]

theorem exists_compare_iff_order? (hop : ¬op.isEquality) :
    (∃ b, op.compare l r = .ok b) ↔ (l.order? r).isSome := by
  cases h : l.order? r with
  | some o => simp [compare_of_order? h]
  | none =>
    by_cases hl : l.IsBoolean
    · simp [compare_of_isBoolean hop hl]
    · simp [compare_of_order?_none hop hl h]

theorem exists_order?_of_compare {b : Bool} (hop : ¬op.isEquality) (h : op.compare l r = .ok b) :
    ∃ o, l.order? r = some o ∧ op.verdict o = b := by
  obtain ⟨o, ho⟩ := Option.isSome_iff_exists.mp ((exists_compare_iff_order? hop).mp ⟨b, h⟩)
  rw [compare_of_order? ho] at h
  exact ⟨o, ho, Except.ok.inj h⟩

theorem eq_mismatch_of_compare (h : op.compare l r = .error e)
    (hkind : ¬(¬op.isEquality ∧ l.IsBoolean)) : e = .mismatch op l r := by
  by_cases hop : op.isEquality
  · cases hequal : l.equal? r with
    | some same => simp [compare_of_equal? hop hequal] at h
    | none =>
      rw [compare_of_equal?_none hop hequal] at h
      exact (Except.error.inj h).symm
  · have hl : ¬l.IsBoolean := fun hl => hkind ⟨hop, hl⟩
    cases horder : l.order? r with
    | some o => simp [compare_of_order? horder] at h
    | none =>
      rw [compare_of_order?_none hop hl horder] at h
      exact (Except.error.inj h).symm

theorem isEquality_mirror (op : Relation) : op.mirror.isEquality = op.isEquality := by
  cases op <;> rfl

theorem verdict_mirror (op : Relation) (o : Option Ordering) :
    op.mirror.verdict (o.map Ordering.swap) = op.verdict o := by
  cases op <;> rcases o with _ | _ | _ | _ <;> rfl

/-- An ordering satisfies one of the three strict relations. -/
theorem existsUnique_verdict (o : Ordering) :
    ∃! op, op ∈ [Relation.less, .equal, .greater] ∧ op.verdict (some o) = true := by
  have hunique : ∀ op ∈ [Relation.less, .equal, .greater], ∀ op' ∈ [Relation.less, .equal, .greater],
      op.verdict (some o) = true → op'.verdict (some o) = true → op' = op := by
    cases o <;> decide
  have hexists : ∃ op ∈ [Relation.less, .equal, .greater], op.verdict (some o) = true := by
    cases o <;> decide
  obtain ⟨op, hop, h⟩ := hexists
  exact ⟨op, ⟨hop, h⟩, fun op' h' => hunique op hop op' h'.1 h h'.2⟩

/-- Exchanging the sides and turning the relation round keeps the answer. -/
theorem compare_mirror (op : Relation) (l r : Value) (b : Bool) :
    op.mirror.compare r l = .ok b ↔ op.compare l r = .ok b := by
  cases h : l.order? r with
  | some o =>
    have hswap : r.order? l = some (o.map Ordering.swap) := by
      rw [Value.order?_swap, h, Option.map_some]
    rw [compare_of_order? h, compare_of_order? hswap, verdict_mirror]
  | none =>
    have hswap : r.order? l = none := by rw [Value.order?_swap, h, Option.map_none]
    by_cases hop : op.isEquality
    · have hmirror : op.mirror = op := by cases op <;> first | rfl | cases hop
      rw [hmirror]
      cases hequal : l.equal? r with
      | some same =>
        rw [compare_of_equal? hop hequal,
          compare_of_equal? hop ((Value.equal?_comm l r).trans hequal)]
      | none =>
        rw [compare_of_equal?_none hop hequal,
          compare_of_equal?_none hop ((Value.equal?_comm l r).trans hequal)]
        simp
    · have hmirror : ¬op.mirror.isEquality := by rwa [isEquality_mirror]
      have hleft : ¬∃ b, op.compare l r = .ok b := by simp [exists_compare_iff_order? hop, h]
      have hright : ¬∃ b, op.mirror.compare r l = .ok b := by
        simp [exists_compare_iff_order? hmirror, hswap]
      exact iff_of_false (fun hb => hright ⟨b, hb⟩) fun hb => hleft ⟨b, hb⟩

end Relation

/-! ### Coherence -/

/-- The relations are coherent on two values: they succeed on the right kinds, fail with the right
errors, and where they succeed their answers fit together. -/
structure Coherent (l r : Value) : Prop where
  ordered_iff : ∀ op : Relation, ¬op.isEquality →
    ((∃ b, op.compare l r = .ok b) ↔ (l.IsNumber ∧ r.IsNumber) ∨ (l.IsText ∧ r.IsText))
  equated_iff : ∀ op : Relation, op.isEquality →
    ((∃ b, op.compare l r = .ok b) ↔
      (l.IsNumber ∧ r.IsNumber) ∨ (l.IsText ∧ r.IsText) ∨ (l.IsBoolean ∧ r.IsBoolean))
  unordered : ∀ (op : Relation) (e : EvalError), op.compare l r = .error e →
    ¬op.isEquality ∧ l.IsBoolean → e = .unordered op l
  mismatch : ∀ (op : Relation) (e : EvalError), op.compare l r = .error e →
    ¬(¬op.isEquality ∧ l.IsBoolean) → e = .mismatch op l r
  negation : ∀ b, Relation.notEqual.compare l r = .ok (!b) ↔ Relation.equal.compare l r = .ok b
  /-- Without a NaN, values that have an order are either less, equal or greater. -/
  trichotomy : (∃ b, Relation.less.compare l r = .ok b) → ¬l.IsNan → ¬r.IsNan →
    ∃! op, op ∈ [Relation.less, .equal, .greater] ∧ op.compare l r = .ok true
  lessOrEqual : ∀ a b, Relation.less.compare l r = .ok a → Relation.equal.compare l r = .ok b →
    Relation.lessOrEqual.compare l r = .ok (a || b)
  greaterOrEqual : ∀ a b, Relation.greater.compare l r = .ok a →
    Relation.equal.compare l r = .ok b → Relation.greaterOrEqual.compare l r = .ok (a || b)
  /-- A NaN is different from every number and satisfies nothing else. -/
  nan : l.IsNumber → r.IsNumber → l.IsNan ∨ r.IsNan →
    ∀ op : Relation, op.compare l r = .ok (op = .notEqual)
  mirrored : ∀ (op : Relation) (b : Bool),
    op.mirror.compare r l = .ok b ↔ op.compare l r = .ok b

namespace Value

variable {l r : Value}

theorem negation (l r : Value) (b : Bool) :
    Relation.notEqual.compare l r = .ok (!b) ↔ Relation.equal.compare l r = .ok b := by
  cases h : l.equal? r with
  | some same =>
    rw [Relation.compare_of_equal? rfl h, Relation.compare_of_equal? rfl h]
    simp [Relation.holdsOnEquality]
  | none =>
    rw [Relation.compare_of_equal?_none rfl h, Relation.compare_of_equal?_none rfl h]
    simp

/-- Values that have an order, and are no NaN, stand to each other in one of three ways. -/
theorem trichotomy (h : ∃ b, Relation.less.compare l r = .ok b) (hl : ¬l.IsNan) (hr : ¬r.IsNan) :
    ∃! op, op ∈ [Relation.less, .equal, .greater] ∧ op.compare l r = .ok true := by
  obtain ⟨b, hb⟩ := h
  obtain ⟨o, ho, -⟩ := Relation.exists_order?_of_compare (by decide) hb
  simp only [Relation.compare_of_order? ho, Except.ok.injEq]
  cases o with
  | none => exact absurd ((isNan_iff_of_order? ho).mp rfl) (by simp [hl, hr])
  | some o => exact Relation.existsUnique_verdict o

/-- The relations are coherent on every two values. -/
theorem coherent (l r : Value) : Coherent l r where
  ordered_iff op hop := (Relation.exists_compare_iff_order? hop).trans order?_isSome_iff
  equated_iff op hop := (Relation.exists_compare_iff_equal? hop).trans equal?_isSome_iff
  unordered op e he h := by
    rw [Relation.compare_of_isBoolean h.1 h.2] at he
    exact (Except.error.inj he).symm
  mismatch op e he h := Relation.eq_mismatch_of_compare he h
  negation := negation l r
  trichotomy := trichotomy
  lessOrEqual a b ha hb := by
    obtain ⟨o, ho, rfl⟩ := Relation.exists_order?_of_compare (by decide) ha
    rw [Relation.compare_of_order? ho] at hb ⊢
    obtain rfl := Except.ok.inj hb
    rcases o with _ | _ | _ | _ <;> rfl
  greaterOrEqual a b ha hb := by
    obtain ⟨o, ho, rfl⟩ := Relation.exists_order?_of_compare (by decide) ha
    rw [Relation.compare_of_order? ho] at hb ⊢
    obtain rfl := Except.ok.inj hb
    rcases o with _ | _ | _ | _ <;> rfl
  nan hl hr h op := by
    obtain ⟨o, ho⟩ := Option.isSome_iff_exists.mp (order?_isSome_iff.mpr (.inl ⟨hl, hr⟩))
    obtain rfl := (isNan_iff_of_order? ho).mpr h
    rw [Relation.compare_of_order? ho]
    cases op <;> rfl
  mirrored op b := Relation.compare_mirror op l r b

end Value

end FilterLang
