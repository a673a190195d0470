import FilterLang.Proofs.Value.Promotion
import Mathlib.Data.String.Basic
import Mathlib.Data.Sum.Order

/-! Chains of comparisons. Every value but a NaN or a truth value has a key, the number that it is
compared as or the string itself. Two keys stand in the order of numbers or of strings, or in none,
and the answer of a relation is that of the keys, unless it is about two integers: these are compared
exactly, and may share a key from 53 bits on. So to be less is transitive always, and to be equal or
less or equal is where all integers have a key of their own. -/

namespace FilterLang

/-- Does the comparison succeed with the answer true? -/
def Relation.Holds (op : Relation) (a b : Value) : Prop := op.compare a b = .ok true

instance (op : Relation) (a b : Value) : Decidable (op.Holds a b) :=
  inferInstanceAs (Decidable (op.compare a b = .ok true))

namespace Value

/-- What the value is compared as: a number that a double denotes, or a string. -/
def key? : Value → Option (Extended ⊕ String)
  | .integer n => (Binary64.ofInt n.toInt).number?.map .inl
  | .real x => x.number?.map .inl
  | .text s => some (.inr s)
  | .boolean _ => none

/-- Is the value no integer of a magnitude beyond `2 ^ 53`? -/
def FitsSignificand : Value → Prop
  | .integer n => n.toInt.natAbs ≤ 2 ^ 53
  | _ => True

variable {a b c : Value} {k l : Extended ⊕ String} {m n : Int64} {op : Relation}

/-! ### Keys -/

/-- The key of an integer is the nearest number. -/
theorem exists_key?_integer (n : Int64) : ∃ w, (Binary64.ofInt n.toInt).IsNearest n.toInt w ∧
    (integer n).key? = some (.inl (w : Extended)) := by
  obtain ⟨w, hw⟩ := isNearest_integer n
  exact ⟨w, hw, congrArg (Option.map Sum.inl) hw.denotes⟩

theorem key?_integer_of_fits (h : (integer n).FitsSignificand) :
    (integer n).key? = some (.inl ((n.toInt : ℚ) : Extended)) := by
  obtain ⟨w, hw, hkey⟩ := exists_key?_integer n
  obtain ⟨y, hy⟩ := Binary64.exists_number?_eq_int h
  rw [hkey, hw.eq_of_number? hy]

/-- The keys of integers do not decrease. -/
theorem key?_mono (h : m.toInt ≤ n.toInt) (hk : k ∈ (integer m).key?) (hl : l ∈ (integer n).key?) :
    k ≤ l := by
  obtain ⟨v, hv, hkv⟩ := exists_key?_integer m
  obtain ⟨w, hw, hlw⟩ := exists_key?_integer n
  obtain rfl := Option.some.inj (hkv.symm.trans hk)
  obtain rfl := Option.some.inj (hlw.symm.trans hl)
  exact Sum.inl_le_inl_iff.mpr (WithBotTop.coe_le_coe.mpr (hv.mono hw (Int.cast_le.mpr h)))

/-! ### Relations between keys -/

/-- No two integers are compared, or two that fit into a significand. -/
def GoesByKeys (a b : Value) : Prop :=
  ∀ m n, a = .integer m → b = .integer n → a.FitsSignificand ∧ b.FitsSignificand

theorem order?_of_numbers {u w : Extended} (h : a.GoesByKeys b) (ha : a.key? = some (.inl u))
    (hb : b.key? = some (.inl w)) : a.order? b = some (some (cmp u w)) := by
  have hreal : ∀ {x : Binary64} {v : Extended}, x.number?.map Sum.inl =
      some (Sum.inl v : Extended ⊕ String) → x.number? = some v := by
    intro x v hx
    obtain ⟨v', hv, heq⟩ := Option.map_eq_some_iff.mp hx
    rw [hv, Sum.inl.inj heq]
  cases a <;> cases b
  case integer.integer m n =>
    obtain ⟨hm, hn⟩ := h m n rfl rfl
    obtain rfl := Sum.inl.inj (Option.some.inj ((key?_integer_of_fits hm).symm.trans ha))
    obtain rfl := Sum.inl.inj (Option.some.inj ((key?_integer_of_fits hn).symm.trans hb))
    have hcast : StrictMono fun i : ℤ => ((i : ℚ) : Extended) :=
      fun i j hij => WithBotTop.coe_lt_coe.mpr (Int.cast_lt.mpr hij)
    rw [hcast.cmp_map_eq, cmp_eq_compare]
    rfl
  case integer.real | real.integer | real.real =>
    exact congrArg some (Binary64.order?_eq_cmp (hreal ha) (hreal hb))
  all_goals first | cases ha | cases hb

theorem key?_eq_inr_iff {s : String} : a.key? = some (.inr s) ↔ a = .text s := by
  cases a <;> simp [key?]

theorem order?_of_texts {s t : String} (ha : a.key? = some (.inr s)) (hb : b.key? = some (.inr t)) :
    a.order? b = some (some (cmp s t)) := by
  rw [key?_eq_inr_iff.mp ha, key?_eq_inr_iff.mp hb, cmp_eq_compare]
  rfl

theorem exists_key?_of_isNumber (h : a.IsNumber) (hnan : ¬a.IsNan) :
    ∃ u, a.key? = some (.inl u) := by
  cases a with
  | integer n =>
    obtain ⟨w, -, hw⟩ := exists_key?_integer n
    exact ⟨w, hw⟩
  | real x =>
    cases x with
    | nan => exact absurd rfl hnan
    | _ => exact ⟨_, rfl⟩
  | _ => exact h.elim

/-- What can be ordered has keys of one kind. -/
theorem exists_keys_of_order? {o : Ordering} (h : a.order? b = some (some o)) :
    (∃ u w, a.key? = some (.inl u) ∧ b.key? = some (.inl w)) ∨
      ∃ s t, a.key? = some (.inr s) ∧ b.key? = some (.inr t) := by
  have hnan : ¬(a.IsNan ∨ b.IsNan) := fun hn => nomatch (isNan_iff_of_order? h).mpr hn
  rw [not_or] at hnan
  rcases order?_isSome_iff.mp (Option.isSome_iff_exists.mpr ⟨_, h⟩) with ⟨ha, hb⟩ | ⟨ha, hb⟩
  · obtain ⟨u, hu⟩ := exists_key?_of_isNumber ha hnan.1
    obtain ⟨w, hw⟩ := exists_key?_of_isNumber hb hnan.2
    exact .inl ⟨u, w, hu, hw⟩
  · cases a <;> first | exact ha.elim | skip
    cases b <;> first | exact hb.elim | skip
    exact .inr ⟨_, _, rfl, rfl⟩

/-- How values stand to each other is how their keys do. -/
theorem order?_iff_keys {o : Ordering} (h : a.GoesByKeys b) :
    a.order? b = some (some o) ↔
      (∃ u w, a.key? = some (.inl u) ∧ b.key? = some (.inl w) ∧ o.Compares u w) ∨
        ∃ s t, a.key? = some (.inr s) ∧ b.key? = some (.inr t) ∧ o.Compares s t := by
  constructor
  · intro ho
    rcases exists_keys_of_order? ho with ⟨u, w, ha, hb⟩ | ⟨s, t, ha, hb⟩
    · rw [order?_of_numbers h ha hb, Option.some.injEq, Option.some.injEq] at ho
      exact .inl ⟨u, w, ha, hb, ho ▸ cmp_compares u w⟩
    · rw [order?_of_texts ha hb, Option.some.injEq, Option.some.injEq] at ho
      exact .inr ⟨s, t, ha, hb, ho ▸ cmp_compares s t⟩
  · rintro (⟨u, w, ha, hb, huw⟩ | ⟨s, t, ha, hb, hst⟩)
    · rw [order?_of_numbers h ha hb, huw.cmp_eq]
    · rw [order?_of_texts ha hb, hst.cmp_eq]

theorem order?_lt_iff (h : a.GoesByKeys b) :
    a.order? b = some (some .lt) ↔ ∃ k ∈ a.key?, ∃ l ∈ b.key?, k < l := by
  simp [order?_iff_keys h, Ordering.Compares]

theorem order?_eq_iff (h : a.GoesByKeys b) :
    a.order? b = some (some .eq) ↔ ∃ k, k ∈ a.key? ∧ k ∈ b.key? := by
  simp [order?_iff_keys h, Ordering.Compares]

/-! ### The relations of a chain -/

theorem holds_iff_verdict {o : Option Ordering} (h : a.order? b = some o) :
    op.Holds a b ↔ op.verdict o := by
  rw [Relation.Holds, Relation.compare_of_order? h, Except.ok.injEq]

theorem not_holds_of_order?_none (op : Relation) (hop : ¬op.isEquality) (h : a.order? b = none) :
    ¬op.Holds a b := by
  intro hholds
  obtain ⟨o, ho, -⟩ := Relation.exists_order?_of_compare hop hholds
  exact absurd (h.symm.trans ho) (Option.some_ne_none o).symm

theorem less_iff_order? : Relation.less.Holds a b ↔ a.order? b = some (some .lt) := by
  cases h : a.order? b with
  | none => simp [not_holds_of_order?_none .less (by decide) h]
  | some o =>
    rw [holds_iff_verdict h]
    rcases o with _ | _ | _ | _ <;> decide

theorem lessOrEqual_iff_order? : Relation.lessOrEqual.Holds a b ↔
    a.order? b = some (some .lt) ∨ a.order? b = some (some .eq) := by
  cases h : a.order? b with
  | none => simp [not_holds_of_order?_none .lessOrEqual (by decide) h]
  | some o =>
    rw [holds_iff_verdict h]
    rcases o with _ | _ | _ | _ <;> decide

/-- Besides what can be ordered, only truth values can be equal. -/
theorem equal_iff_order? : Relation.equal.Holds a b ↔
    a.order? b = some (some .eq) ∨ ∃ x, a = .boolean x ∧ b = .boolean x := by
  cases h : a.order? b with
  | some o =>
    have hboolean : ¬∃ x, a = .boolean x ∧ b = .boolean x := by
      rintro ⟨x, rfl, rfl⟩
      cases h
    rw [holds_iff_verdict h, or_iff_left hboolean]
    rcases o with _ | _ | _ | _ <;> decide
  | none =>
    unfold Relation.Holds Relation.compare
    cases a <;> cases b
    case boolean.boolean x y =>
      simp [Relation.isEquality, Relation.holdsOnEquality, equal?, eq_comm (a := x)]
    all_goals first | exact absurd h (Option.some_ne_none _) | simp [Relation.isEquality, equal?]

/-! ### Chains -/

/-- One value is less than another if it is a smaller integer or has a smaller key. -/
theorem less_iff : Relation.less.Holds a b ↔
    (∃ m n, a = .integer m ∧ b = .integer n ∧ m.toInt < n.toInt) ∨
      ∃ k ∈ a.key?, ∃ l ∈ b.key?, k < l := by
  by_cases hint : ∃ m n, a = .integer m ∧ b = .integer n
  · obtain ⟨m, n, rfl, rfl⟩ := hint
    have hexact : (integer m).order? (integer n) = some (some .lt) ↔ m.toInt < n.toInt := by
      simp [order?, compare_lt_iff_lt]
    have hkeys : (∃ k ∈ (integer m).key?, ∃ l ∈ (integer n).key?, k < l) → m.toInt < n.toInt := by
      rintro ⟨k, hk, l, hl, hkl⟩
      by_contra hle
      exact (key?_mono (not_lt.mp hle) hl hk).not_gt hkl
    rw [less_iff_order?, hexact]
    simpa using hkeys
  · have hmixed : a.GoesByKeys b := fun m n ha hb => absurd ⟨m, n, ha, hb⟩ hint
    rw [less_iff_order?, order?_lt_iff hmixed, iff_or_self]
    rintro ⟨m, n, ha, hb, -⟩
    exact absurd ⟨m, n, ha, hb⟩ hint

theorem less_iff_keys (h : a.GoesByKeys b) :
    Relation.less.Holds a b ↔ ∃ k ∈ a.key?, ∃ l ∈ b.key?, k < l :=
  less_iff_order?.trans (order?_lt_iff h)

theorem lessOrEqual_iff (h : a.GoesByKeys b) :
    Relation.lessOrEqual.Holds a b ↔ ∃ k ∈ a.key?, ∃ l ∈ b.key?, k ≤ l := by
  rw [lessOrEqual_iff_order?, order?_lt_iff h, order?_eq_iff h]
  constructor
  · rintro (⟨k, hk, l, hl, hlt⟩ | ⟨k, hk, hl⟩)
    · exact ⟨k, hk, l, hl, hlt.le⟩
    · exact ⟨k, hk, k, hl, le_rfl⟩
  · rintro ⟨k, hk, l, hl, hle⟩
    rcases hle.lt_or_eq with hlt | rfl
    · exact .inl ⟨k, hk, l, hl, hlt⟩
    · exact .inr ⟨k, hk, hl⟩

theorem equal_iff (h : a.GoesByKeys b) : Relation.equal.Holds a b ↔
    (∃ k, k ∈ a.key? ∧ k ∈ b.key?) ∨ ∃ x, a = .boolean x ∧ b = .boolean x := by
  rw [equal_iff_order?, order?_eq_iff h]

/-- To be less is transitive, whatever the three values are. -/
theorem less_trans (hab : Relation.less.Holds a b) (hbc : Relation.less.Holds b c) :
    Relation.less.Holds a c := by
  rw [less_iff] at hab hbc ⊢
  rcases hab with ⟨m, n, rfl, rfl, hmn⟩ | ⟨k, hk, l, hl, hkl⟩
  · rcases hbc with ⟨n', r, hn, rfl, hnr⟩ | ⟨l, hl, j, hj, hlj⟩
    · obtain rfl := integer.inj hn
      exact .inl ⟨m, r, rfl, rfl, hmn.trans hnr⟩
    · obtain ⟨v, -, hv⟩ := exists_key?_integer m
      exact .inr ⟨_, hv, j, hj, (key?_mono hmn.le hv hl).trans_lt hlj⟩
  · rcases hbc with ⟨n, r, rfl, rfl, hnr⟩ | ⟨l', hl', j, hj, hlj⟩
    · obtain ⟨w, -, hw⟩ := exists_key?_integer r
      exact .inr ⟨k, hk, _, hw, hkl.trans_le (key?_mono hnr.le hl hw)⟩
    · obtain rfl := Option.mem_unique hl hl'
      exact .inr ⟨k, hk, j, hj, hkl.trans hlj⟩

theorem equal_trans (ha : a.GoesByKeys b) (hb : b.GoesByKeys c) (hc : a.GoesByKeys c)
    (hab : Relation.equal.Holds a b) (hbc : Relation.equal.Holds b c) :
    Relation.equal.Holds a c := by
  rw [equal_iff ha] at hab
  rw [equal_iff hb] at hbc
  rw [equal_iff hc]
  rcases hab with ⟨k, hk, hl⟩ | ⟨x, rfl, rfl⟩
  · rcases hbc with ⟨l, hl', hj⟩ | ⟨x, rfl, -⟩
    · obtain rfl := Option.mem_unique hl hl'
      exact .inl ⟨k, hk, hj⟩
    · cases hl
  · rcases hbc with ⟨l, hl, -⟩ | ⟨y, hy, rfl⟩
    · cases hl
    · exact .inr ⟨x, rfl, hy.symm⟩

/-- A value has one key, through which relations of keys are joined. -/
theorem exists_keys_trans {r r' r'' : Extended ⊕ String → Extended ⊕ String → Prop}
    (hab : ∃ k ∈ a.key?, ∃ l ∈ b.key?, r k l) (hbc : ∃ l ∈ b.key?, ∃ j ∈ c.key?, r' l j)
    (h : ∀ k l j, r k l → r' l j → r'' k j) : ∃ k ∈ a.key?, ∃ j ∈ c.key?, r'' k j := by
  obtain ⟨k, hk, l, hl, hkl⟩ := hab
  obtain ⟨l', hl', j, hj, hlj⟩ := hbc
  obtain rfl := Option.mem_unique hl hl'
  exact ⟨k, hk, j, hj, h k l j hkl hlj⟩

theorem lessOrEqual_trans (ha : a.GoesByKeys b) (hb : b.GoesByKeys c) (hc : a.GoesByKeys c)
    (hab : Relation.lessOrEqual.Holds a b) (hbc : Relation.lessOrEqual.Holds b c) :
    Relation.lessOrEqual.Holds a c := by
  rw [lessOrEqual_iff ha] at hab
  rw [lessOrEqual_iff hb] at hbc
  rw [lessOrEqual_iff hc]
  exact exists_keys_trans hab hbc fun _ _ _ => le_trans

theorem less_of_less_of_lessOrEqual (ha : a.GoesByKeys b) (hb : b.GoesByKeys c)
    (hc : a.GoesByKeys c) (hab : Relation.less.Holds a b) (hbc : Relation.lessOrEqual.Holds b c) :
    Relation.less.Holds a c := by
  rw [less_iff_keys ha] at hab
  rw [lessOrEqual_iff hb] at hbc
  rw [less_iff_keys hc]
  exact exists_keys_trans hab hbc fun _ _ _ => lt_of_lt_of_le

theorem less_of_lessOrEqual_of_less (ha : a.GoesByKeys b) (hb : b.GoesByKeys c)
    (hc : a.GoesByKeys c) (hab : Relation.lessOrEqual.Holds a b) (hbc : Relation.less.Holds b c) :
    Relation.less.Holds a c := by
  rw [lessOrEqual_iff ha] at hab
  rw [less_iff_keys hb] at hbc
  rw [less_iff_keys hc]
  exact exists_keys_trans hab hbc fun _ _ _ => lt_of_le_of_lt

/-- Comparisons can be chained: to be less always, and where no integer is beyond `2 ^ 53`, also to
be equal or less or equal, and to be less on either side of less or equal. -/
theorem compare_trans (a b c : Value) :
    (Relation.less.Holds a b → Relation.less.Holds b c → Relation.less.Holds a c) ∧
    (a.FitsSignificand → b.FitsSignificand → c.FitsSignificand →
      (Relation.equal.Holds a b → Relation.equal.Holds b c → Relation.equal.Holds a c) ∧
      (Relation.lessOrEqual.Holds a b → Relation.lessOrEqual.Holds b c →
        Relation.lessOrEqual.Holds a c) ∧
      (Relation.less.Holds a b → Relation.lessOrEqual.Holds b c → Relation.less.Holds a c) ∧
      (Relation.lessOrEqual.Holds a b → Relation.less.Holds b c → Relation.less.Holds a c)) := by
  refine ⟨less_trans, fun ha hb hc => ?_⟩
  have hab : a.GoesByKeys b := fun _ _ _ _ => ⟨ha, hb⟩
  have hbc : b.GoesByKeys c := fun _ _ _ _ => ⟨hb, hc⟩
  have hac : a.GoesByKeys c := fun _ _ _ _ => ⟨ha, hc⟩
  exact ⟨equal_trans hab hbc hac, lessOrEqual_trans hab hbc hac,
    less_of_less_of_lessOrEqual hab hbc hac, less_of_lessOrEqual_of_less hab hbc hac⟩

/-- The double after the boundary, `2 ^ 53 + 2`. -/
def pastBoundary : Binary64 := .finite false ⟨0x4340000000000001, by decide⟩

/-- A chain of integers and a double past the boundary, one that comes back at the boundary, one
from there to the next double, and one from below that stops at the boundary. -/
theorem compare_trans_boundary :
    (Relation.less.Holds (.integer 0x20000000000000) (.integer 0x20000000000001) ∧
      Relation.less.Holds (.integer 0x20000000000001) (.real pastBoundary) ∧
      Relation.less.Holds (.integer 0x20000000000000) (.real pastBoundary)) ∧
    FitsSignificand (.integer 0x1fffffffffffff) ∧ FitsSignificand (.integer 0x20000000000000) ∧
    (Relation.equal.Holds (.integer 0x20000000000000) (.real boundary) ∧
      Relation.equal.Holds (.real boundary) (.integer 0x20000000000000) ∧
      Relation.equal.Holds (.integer 0x20000000000000) (.integer 0x20000000000000)) ∧
    (Relation.lessOrEqual.Holds (.integer 0x20000000000000) (.real boundary) ∧
      Relation.lessOrEqual.Holds (.real boundary) (.real pastBoundary) ∧
      Relation.lessOrEqual.Holds (.integer 0x20000000000000) (.real pastBoundary)) ∧
    (Relation.less.Holds (.integer 0x1fffffffffffff) (.integer 0x20000000000000) ∧
      Relation.less.Holds (.integer 0x1fffffffffffff) (.real boundary)) ∧
    Relation.less.Holds (.real boundary) (.real pastBoundary) ∧
    Relation.less.Holds (.integer 0x20000000000000) (.real pastBoundary) := by
  have hbelow : FitsSignificand (.integer 0x1fffffffffffff) := by
    show (0x1fffffffffffff : Int64).toInt.natAbs ≤ 2 ^ 53
    decide
  have hfits : FitsSignificand (.integer 0x20000000000000) := by
    show (0x20000000000000 : Int64).toInt.natAbs ≤ 2 ^ 53
    decide
  have hless : Relation.less.Holds (.integer 0x20000000000000) (.integer 0x20000000000001) ∧
      Relation.less.Holds (.integer 0x20000000000001) (.real pastBoundary) ∧
      Relation.less.Holds (.integer 0x1fffffffffffff) (.integer 0x20000000000000) := by
    decide +kernel
  have hequal : Relation.equal.Holds (.integer 0x20000000000000) (.real boundary) ∧
      Relation.equal.Holds (.real boundary) (.integer 0x20000000000000) := by
    decide +kernel
  have hle : Relation.lessOrEqual.Holds (.integer 0x20000000000000) (.real boundary) ∧
      Relation.lessOrEqual.Holds (.real boundary) (.real pastBoundary) ∧
      Relation.less.Holds (.real boundary) (.real pastBoundary) := by
    decide +kernel
  obtain ⟨hback, -⟩ :=
    (compare_trans (.integer 0x20000000000000) (.real boundary) (.integer 0x20000000000000)).2
      hfits trivial hfits
  obtain ⟨-, -, hstop, -⟩ :=
    (compare_trans (.integer 0x1fffffffffffff) (.integer 0x20000000000000) (.real boundary)).2
      hbelow hfits trivial
  obtain ⟨-, hon, -, hstrict⟩ :=
    (compare_trans (.integer 0x20000000000000) (.real boundary) (.real pastBoundary)).2
      hfits trivial trivial
  exact ⟨⟨hless.1, hless.2.1, (compare_trans _ _ _).1 hless.1 hless.2.1⟩, hbelow, hfits,
    ⟨hequal.1, hequal.2, hback hequal.1 hequal.2⟩, ⟨hle.1, hle.2.1, hon hle.1 hle.2.1⟩,
    ⟨hless.2.2, hstop hless.2.2 hle.1⟩, hle.2.2, hstrict hle.1 hle.2.2⟩

-- An integer further, two that are equal to one real are not equal to each other.
example : Relation.equal.Holds (.integer 0x20000000000001) (.real boundary) ∧
    Relation.equal.Holds (.real boundary) (.integer 0x20000000000000) ∧
    ¬Relation.equal.Holds (.integer 0x20000000000001) (.integer 0x20000000000000) := by
  decide +kernel

end Value

end FilterLang
