import FilterLang.Binary64
import Mathlib.Algebra.Order.Field.Basic
import Mathlib.Algebra.Order.Ring.Rat
import Mathlib.Data.Int.ConditionallyCompleteOrder
import Mathlib.Order.ConditionallyCompleteLattice.Basic
import Mathlib.Order.Monotone.Odd
import Mathlib.Order.WithBotTop
import Mathlib.Tactic.FieldSimp
import Mathlib.Tactic.Ring

/-! The numbers that doubles denote, read off their exponent and fraction fields. The places of the
magnitudes go up with the numbers: from a place to the next one the number grows by one unit of the
scale, also where the scale changes. So the order of ranks is the order of the numbers, with the two
infinities at the ends. -/

namespace FilterLang

/-- The rational numbers with an infinity at either end. -/
abbrev Extended := WithBotTop ℚ

namespace Magnitude

/-- The exponent field. -/
def exponentField (m : Magnitude) : ℕ := m.val / 2 ^ 52

/-- The fraction field. -/
def fractionField (m : Magnitude) : ℕ := m.val % 2 ^ 52

/-- The number that the fields denote. The significand has a leading bit besides the fraction, unless
the exponent field is zero. -/
def number (m : Magnitude) : ℚ :=
  if m.exponentField = 0 then m.fractionField * 2 ^ (-1074 : ℤ)
  else (2 ^ 52 + m.fractionField) * 2 ^ ((m.exponentField : ℤ) - 1075)

/-! ### Units by place -/

/-- The units of the magnitude at a place, if the places went on for ever. -/
def unitsAt (place : ℕ) : ℕ :=
  (place - (place / binade - 1) * binade) * twoTo (place / binade - 1)

variable {s b : ℕ}

/-- A significand with its scale stands at its place. -/
theorem unitsAt_scaled (hb : b < 2 * binade) (hs : s = 0 ∨ binade ≤ b) :
    unitsAt (s * binade + b) = b * twoTo s := by
  have hscale : (s * binade + b) / binade - 1 = s := by
    unfold binade at *
    omega
  rw [unitsAt, hscale, Nat.add_sub_cancel_left]

/-- The next place is one unit of the scale further on, also behind the last significand. -/
theorem unitsAt_scaled_succ (hb : b < 2 * binade) (hs : s = 0 ∨ binade ≤ b) :
    unitsAt (s * binade + b + 1) = (b + 1) * twoTo s := by
  by_cases hlast : b + 1 < 2 * binade
  · rw [Nat.add_assoc]
    exact unitsAt_scaled hlast (hs.imp_right fun h => Nat.le_succ_of_le h)
  · have hfull : b + 1 = 2 * binade := by omega
    have hcarry : s * binade + b + 1 = (s + 1) * binade + binade := by
      rw [Nat.add_assoc, hfull, Nat.two_mul, Nat.succ_mul, Nat.add_assoc]
    rw [hcarry, unitsAt_scaled (by decide) (.inr (Nat.le_refl _)), twoTo_succ, hfull,
      Nat.mul_comm 2, Nat.mul_assoc, Nat.mul_comm 2]

theorem exists_scaled (place : ℕ) :
    ∃ s b, place = s * binade + b ∧ b < 2 * binade ∧ (s = 0 ∨ binade ≤ b) := by
  refine ⟨place / binade - 1, place - (place / binade - 1) * binade, ?_, ?_, ?_⟩ <;>
    unfold binade <;> omega

theorem strictMono_unitsAt : StrictMono unitsAt := by
  apply strictMono_nat_of_lt_succ
  intro place
  obtain ⟨s, b, rfl, hb, hs⟩ := exists_scaled place
  rw [unitsAt_scaled hb hs, unitsAt_scaled_succ hb hs, Nat.succ_mul]
  exact Nat.lt_add_of_pos_right (twoTo_pos s)

theorem unitsAt_zero : unitsAt 0 = 0 := rfl

/-! ### Numbers by place -/

theorem cast_twoTo (n : ℕ) : (twoTo n : ℚ) = 2 ^ (n : ℤ) := by
  rw [twoTo, zpow_natCast]
  exact Nat.cast_pow 2 n

theorem cast_one : (one : ℚ) = 2 ^ (1074 : ℤ) := cast_twoTo 1074

/-- The number is the number of units. -/
theorem number_eq (m : Magnitude) : m.number = unitsAt m.val / one := by
  have hfields : m.val = m.exponentField * binade + m.fractionField := by
    unfold exponentField fractionField binade
    omega
  have hfraction : m.fractionField < binade := by
    unfold fractionField binade
    omega
  have hbinade : (binade : ℚ) = 2 ^ 52 := by norm_num [binade]
  rw [number, cast_one, hfields]
  split
  next h =>
    rw [h, unitsAt_scaled (by omega) (.inl rfl), twoTo_zero, Nat.mul_one, zpow_neg, div_eq_mul_inv]
  next h =>
    obtain ⟨e, he⟩ := Nat.exists_eq_succ_of_ne_zero h
    have hplace : (e + 1) * binade + m.fractionField = e * binade + (binade + m.fractionField) := by
      rw [Nat.succ_mul, Nat.add_assoc]
    have hexponent : ((e + 1 : ℕ) : ℤ) - 1075 = e - 1074 := by omega
    rw [he, hplace, unitsAt_scaled (by omega) (.inr (Nat.le_add_right _ _)), hexponent,
      zpow_sub₀ two_ne_zero, Nat.cast_mul, Nat.cast_add, cast_twoTo, hbinade, mul_div_assoc]

end Magnitude

namespace Binary64

open Magnitude

/-- The number that a double denotes. A NaN denotes none. -/
def number? : Binary64 → Option Extended
  | .finite negative m => some ((if negative then -m.number else m.number : ℚ) : Extended)
  | .infinite negative => some (if negative then ⊥ else ⊤)
  | .nan => none

/-! ### Numbers by rank -/

/-- The rank of positive infinity. -/
abbrev top : ℤ := 0x7ff0000000000000

/-- The number at a finite rank. -/
def numberAt (rank : ℤ) : ℚ := rank.sign * unitsAt rank.natAbs / one

/-- The number at a rank, or the infinity from the last ranks on. -/
def extendedAt (rank : ℤ) : Extended :=
  if rank ≤ -top then ⊥ else if top ≤ rank then ⊤ else numberAt rank

theorem numberAt_neg (rank : ℤ) : numberAt (-rank) = -numberAt rank := by
  rw [numberAt, Int.sign_neg, Int.natAbs_neg, Int.cast_neg, neg_mul, neg_div, numberAt]

theorem numberAt_natCast (place : ℕ) : numberAt place = unitsAt place / one := by
  rw [numberAt, Int.natAbs_natCast]
  rcases Nat.eq_zero_or_pos place with rfl | h
  · rw [unitsAt_zero, Nat.cast_zero, Nat.cast_zero, mul_zero]
  · rw [Int.sign_natCast_of_ne_zero (Nat.ne_of_gt h), Int.cast_one, one_mul]

theorem strictMono_numberAt : StrictMono numberAt := by
  have hone : (0 : ℚ) < one := Nat.cast_pos.mpr (twoTo_pos _)
  refine strictMono_of_odd_strictMonoOn_nonneg numberAt_neg fun a ha b hb hab => ?_
  obtain ⟨m, rfl⟩ := Int.eq_ofNat_of_zero_le ha
  obtain ⟨n, rfl⟩ := Int.eq_ofNat_of_zero_le hb
  rw [numberAt_natCast, numberAt_natCast]
  refine div_lt_div_of_pos_right (Nat.cast_lt.mpr (strictMono_unitsAt ?_)) hone
  exact Int.ofNat_lt.mp hab

/-- The rank of a finite double. -/
def finiteRank (negative : Bool) (m : Magnitude) : ℤ := if negative then -m.val else m.val

theorem rank?_finite (negative : Bool) (m : Magnitude) :
    (finite negative m).rank? = some (finiteRank negative m) := rfl

theorem number?_finite (negative : Bool) (m : Magnitude) :
    (finite negative m).number? = some (numberAt (finiteRank negative m) : Extended) := by
  cases negative
  · show some ((m.number : ℚ) : Extended) = some (numberAt m.val : Extended)
    rw [numberAt_natCast, number_eq]
  · show some ((-m.number : ℚ) : Extended) = some (numberAt (-m.val) : Extended)
    rw [numberAt_neg, numberAt_natCast, number_eq]

theorem number?_infinite_ne (negative : Bool) (q : ℚ) :
    (infinite negative).number? ≠ some (q : Extended) := by
  intro h
  cases negative
  · exact WithBotTop.coe_ne_top q (Option.some.inj h).symm
  · exact WithBotTop.coe_ne_bot q (Option.some.inj h).symm

theorem finiteRank_lt (negative : Bool) (m : Magnitude) :
    -top < finiteRank negative m ∧ finiteRank negative m < top := by
  have := m.isLt
  unfold finiteRank top
  split <;> omega

variable {x y : Binary64} {a b : ℤ} {v w : Extended}

theorem extendedAt_of_lt (h : -top < a ∧ a < top) : extendedAt a = numberAt a := by
  rw [extendedAt, if_neg (not_le_of_gt h.1), if_neg (not_le_of_gt h.2)]

/-- A double denotes the number at its rank. -/
theorem number?_eq (x : Binary64) : x.number? = x.rank?.map extendedAt := by
  cases x with
  | finite negative m =>
    rw [number?_finite, rank?_finite, Option.map_some, extendedAt_of_lt (finiteRank_lt negative m)]
  | infinite negative => cases negative <;> rfl
  | nan => rfl

theorem strictMonoOn_extendedAt : StrictMonoOn extendedAt (Set.Icc (-top) top) := by
  intro a ha b hb hab
  have hbottom : extendedAt (-top) = ⊥ := rfl
  have htop : extendedAt top = ⊤ := rfl
  rcases eq_or_lt_of_le ha.1 with rfl | hlower
  · rcases eq_or_lt_of_le hb.2 with rfl | hupper
    · decide
    · rw [hbottom, extendedAt_of_lt ⟨hab, hupper⟩]
      exact (WithBotTop.coe_ne_bot _).bot_lt
  · have hleft := extendedAt_of_lt ⟨hlower, lt_of_lt_of_le hab hb.2⟩
    rcases eq_or_lt_of_le hb.2 with rfl | hupper
    · rw [hleft, htop]
      exact (WithBotTop.coe_ne_top _).lt_top
    · rw [hleft, extendedAt_of_lt ⟨lt_trans hlower hab, hupper⟩]
      exact WithBotTop.coe_lt_coe.mpr (strictMono_numberAt hab)

theorem rank?_mem_Icc (h : x.rank? = some a) : a ∈ Set.Icc (-top) top := by
  cases x with
  | finite negative m =>
    obtain rfl := Option.some.inj h
    exact ⟨(finiteRank_lt negative m).1.le, (finiteRank_lt negative m).2.le⟩
  | infinite negative => cases negative <;> cases h <;> decide
  | nan => cases h

theorem exists_rank?_of_number? (h : x.number? = some v) :
    ∃ a ∈ Set.Icc (-top) top, x.rank? = some a ∧ extendedAt a = v := by
  rw [number?_eq, Option.map_eq_some_iff] at h
  obtain ⟨a, ha, rfl⟩ := h
  exact ⟨a, rank?_mem_Icc ha, ha, rfl⟩

/-- The order of doubles is the order of the numbers that they denote. -/
theorem order?_eq_cmp (hx : x.number? = some v) (hy : y.number? = some w) :
    x.order? y = some (cmp v w) := by
  obtain ⟨a, ha, hrank, rfl⟩ := exists_rank?_of_number? hx
  obtain ⟨b, hb, hrank', rfl⟩ := exists_rank?_of_number? hy
  rw [order?, hrank, hrank', strictMonoOn_extendedAt.cmp_map_eq ha hb]
  exact congrArg some (cmp_eq_compare a b).symm

end Binary64

end FilterLang
