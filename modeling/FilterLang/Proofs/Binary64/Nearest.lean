import FilterLang.Proofs.Binary64.Number
import FilterLang.Proofs.Binary64.Rounding
import Mathlib.Algebra.Order.Group.Unbundled.Abs
import Mathlib.Tactic.Linarith

/-! Rounding to the nearest double, a tie going to the even significand. There is never more than
one such number, and it does not decrease when the number to be rounded increases; nor does it get
past any number that a double denotes. Rounding a quotient gives it: the quotient lies between the
numbers at two neighbouring places, and the place of the nearer one is chosen. -/

namespace FilterLang

namespace Binary64

open Magnitude

/-- Is the significand even? -/
def HasEvenSignificand : Binary64 → Prop
  | .finite _ m => Even m.significand
  | _ => False

/-- The double denotes `v`, the number nearest to `q`; of two that are equally near, the one with an
even significand. -/
structure IsNearest (x : Binary64) (q v : ℚ) : Prop where
  denotes : x.number? = some (v : Extended)
  nearest : ∀ (y : Binary64) (w : ℚ), y.number? = some (w : Extended) → |v - q| ≤ |w - q|
  even : ∀ (y : Binary64) (w : ℚ), y.number? = some (w : Extended) → |w - q| = |v - q| → w ≠ v →
    x.HasEvenSignificand

variable {x y : Binary64} {a b : ℤ} {p q v w : ℚ}

/-! ### Ranks of finite doubles -/

theorem exists_rank?_of_finite (h : x.number? = some (v : Extended)) :
    ∃ a, x.rank? = some a ∧ (-top < a ∧ a < top) ∧ numberAt a = v := by
  cases x with
  | finite negative m =>
    rw [number?_finite, Option.some.injEq, WithBotTop.coe_injective.eq_iff] at h
    exact ⟨_, rfl, finiteRank_lt negative m, h⟩
  | infinite negative => exact absurd h (number?_infinite_ne negative v)
  | nan => cases h

/-- Every rank between the infinities is that of a double. -/
theorem exists_number?_eq (h : -top < a ∧ a < top) :
    ∃ x : Binary64, x.number? = some (numberAt a : Extended) := by
  obtain ⟨n, rfl | rfl⟩ := a.eq_nat_or_neg
  · have hn : n < 0x7ff0000000000000 := by
      unfold top at h
      omega
    exact ⟨.finite false ⟨n, hn⟩, number?_finite _ _⟩
  · have hn : n < 0x7ff0000000000000 := by
      unfold top at h
      omega
    exact ⟨.finite true ⟨n, hn⟩, number?_finite _ _⟩

theorem even_significand_iff (m : Magnitude) : Even m.significand ↔ Even m.val := by
  rw [Nat.even_iff, Nat.even_iff]
  unfold significand scale binade
  omega

theorem even_rank (h : x.HasEvenSignificand) (hrank : x.rank? = some a) : Even a := by
  cases x with
  | finite negative m =>
    obtain rfl := Option.some.inj hrank
    have hplace : Even (m.val : ℤ) := (Int.even_coe_nat _).mpr ((even_significand_iff m).mp h)
    cases negative
    · exact hplace
    · exact hplace.neg
  | infinite negative => exact h.elim
  | nan => exact h.elim

/-! ### What is nearest -/

/-- What is nearer to the left one of two numbers is left of their middle. -/
theorem two_mul_le_add (hvw : v < w) (h : |v - q| ≤ |w - q|) : 2 * q ≤ v + w := by
  by_contra hlt
  have hw : |w - q| < q - v := abs_lt.mpr ⟨by linarith, by linarith⟩
  have hv : q - v ≤ |v - q| := by
    rw [abs_sub_comm]
    exact le_abs_self _
  linarith

theorem add_le_two_mul (hvw : v < w) (h : |w - q| ≤ |v - q|) : v + w ≤ 2 * q := by
  by_contra hlt
  have hv : |v - q| < w - q := abs_lt.mpr ⟨by linarith, by linarith⟩
  have hw : w - q ≤ |w - q| := le_abs_self _
  linarith

namespace IsNearest

theorem le (hx : x.IsNearest q v) (hy : y.IsNearest q w) : w ≤ v := by
  by_contra hlt
  rw [not_le] at hlt
  obtain ⟨a, hrank, ha, rfl⟩ := exists_rank?_of_finite hx.denotes
  obtain ⟨b, hrank', hb, rfl⟩ := exists_rank?_of_finite hy.denotes
  have hequal : |numberAt a - q| = |numberAt b - q| :=
    le_antisymm (hx.nearest y _ hy.denotes) (hy.nearest x _ hx.denotes)
  have hmiddle : numberAt a + numberAt b ≤ 2 * q := add_le_two_mul hlt hequal.ge
  -- Both significands are even, so the ranks are no neighbours and a number lies between.
  have heven := even_rank (hx.even y _ hy.denotes hequal.symm hlt.ne') hrank
  have heven' := even_rank (hy.even x _ hx.denotes hequal hlt.ne) hrank'
  have hnext : a + 1 < b := by
    have hab : a < b := strictMono_numberAt.lt_iff_lt.mp hlt
    rw [Int.even_iff] at heven heven'
    omega
  obtain ⟨z, hz⟩ := exists_number?_eq (a := a + 1) ⟨by omega, by omega⟩
  have hbetween : numberAt (a + 1) < numberAt b := strictMono_numberAt hnext
  have hnear : 2 * q ≤ numberAt a + numberAt (a + 1) :=
    two_mul_le_add (strictMono_numberAt (by omega)) (hx.nearest z _ hz)
  linarith

/-- There are no two nearest numbers. -/
theorem unique (hx : x.IsNearest q v) (hy : y.IsNearest q w) : v = w :=
  le_antisymm (hy.le hx) (hx.le hy)

/-- The nearest number does not decrease. -/
theorem mono (hx : x.IsNearest p v) (hy : y.IsNearest q w) (h : p ≤ q) : v ≤ w := by
  by_contra hlt
  rw [not_le] at hlt
  have hp : w + v ≤ 2 * p := add_le_two_mul hlt (hx.nearest y _ hy.denotes)
  have hq : 2 * q ≤ w + v := two_mul_le_add hlt (hy.nearest x _ hx.denotes)
  obtain rfl : p = q := by linarith
  exact hlt.ne (hy.unique hx)

variable {u : Extended}

/-- The nearest number gets past no number of a double upwards. -/
theorem le_of_le (hx : x.IsNearest q v) (hy : y.number? = some u) (h : (q : Extended) ≤ u) :
    (v : Extended) ≤ u := by
  induction u using WithBotTop.rec with
  | bot => exact absurd h (WithBotTop.coe_ne_bot q).bot_lt.not_ge
  | top => exact le_top
  | coe w =>
    rw [WithBotTop.coe_le_coe] at h ⊢
    by_contra hlt
    have := add_le_two_mul (not_le.mp hlt) (hx.nearest y w hy)
    linarith

/-- The nearest number gets past no number of a double downwards. -/
theorem ge_of_ge (hx : x.IsNearest q v) (hy : y.number? = some u) (h : u ≤ (q : Extended)) :
    u ≤ (v : Extended) := by
  induction u using WithBotTop.rec with
  | bot => exact bot_le
  | top => exact absurd h (WithBotTop.coe_ne_top q).lt_top.not_ge
  | coe w =>
    rw [WithBotTop.coe_le_coe] at h ⊢
    by_contra hlt
    have := two_mul_le_add (not_le.mp hlt) (hx.nearest y w hy)
    linarith

/-- A number that a double denotes is nearest to itself. -/
theorem eq_of_number? (hx : x.IsNearest q v) (hy : y.number? = some (q : Extended)) : v = q := by
  have hle := hx.nearest y q hy
  rwa [sub_self, abs_zero, abs_nonpos_iff, sub_eq_zero] at hle

end IsNearest

end Binary64

/-! ### Rounding a quotient -/

namespace Magnitude

variable {n d : ℕ} {m : Magnitude}

/-- The significand of a quotient at its scale. -/
theorem quotient_scaled (n d : ℕ) :
    n / (d * twoTo ((n / d).log2 - 52)) < 2 * binade ∧
      ((n / d).log2 - 52 = 0 ∨ binade ≤ n / (d * twoTo ((n / d).log2 - 52))) := by
  rw [← Nat.div_div_eq_div_mul]
  generalize n / d = k
  have hpos := twoTo_pos (k.log2 - 52)
  constructor
  · rw [Nat.div_lt_iff_lt_mul hpos]
    calc k < twoTo (k.log2 + 1) := Nat.lt_log2_self
      _ ≤ twoTo (53 + (k.log2 - 52)) := twoTo_le_twoTo (by omega)
      _ = 2 * binade * twoTo (k.log2 - 52) := twoTo_add 53 _
  · rcases Nat.eq_zero_or_pos (k.log2 - 52) with h | h
    · exact .inl h
    · have hk : k ≠ 0 := by
        rintro rfl
        simp at h
      right
      rw [Nat.le_div_iff_mul_le hpos]
      calc binade * twoTo (k.log2 - 52) = twoTo (52 + (k.log2 - 52)) := (twoTo_add 52 _).symm
        _ ≤ twoTo k.log2 := twoTo_le_twoTo (by omega)
        _ ≤ k := Nat.log2_self_le hk

/-- A quotient lies between the units at two neighbouring places and is rounded to the nearer one,
from halfway to the even one. -/
theorem nearestPlace_cases (n : ℕ) (hd : 0 < d) :
    ∃ p, unitsAt p * d ≤ n ∧ n < unitsAt (p + 1) * d ∧
      ((nearestPlace n d = p ∧ (2 * n < unitsAt p * d + unitsAt (p + 1) * d ∨
          2 * n = unitsAt p * d + unitsAt (p + 1) * d ∧ Even p)) ∨
        (nearestPlace n d = p + 1 ∧ (unitsAt p * d + unitsAt (p + 1) * d < 2 * n ∨
          2 * n = unitsAt p * d + unitsAt (p + 1) * d ∧ Even (p + 1)))) := by
  obtain ⟨hb, hs⟩ := quotient_scaled n d
  generalize hscale : (n / d).log2 - 52 = s at hb hs
  have hplace : nearestPlace n d = s * binade +
      if 2 * (n % (d * twoTo s)) < d * twoTo s ∨
        (2 * (n % (d * twoTo s)) = d * twoTo s ∧ n / (d * twoTo s) % 2 = 0)
      then n / (d * twoTo s) else n / (d * twoTo s) + 1 := by
    rw [← hscale]
    rfl
  have hsum : d * twoTo s * (n / (d * twoTo s)) + n % (d * twoTo s) = n := Nat.div_add_mod _ _
  have hrest : n % (d * twoTo s) < d * twoTo s :=
    Nat.mod_lt _ (Nat.mul_pos hd (twoTo_pos s))
  have hlower := unitsAt_scaled hb hs
  have hupper := unitsAt_scaled_succ hb hs
  generalize n / (d * twoTo s) = b at *
  generalize n % (d * twoTo s) = e at *
  have hleft : unitsAt (s * binade + b) * d = d * twoTo s * b := by
    rw [hlower]
    ring
  have hright : unitsAt (s * binade + b + 1) * d = d * twoTo s * b + d * twoTo s := by
    rw [hupper]
    ring
  refine ⟨s * binade + b, ?_⟩
  rw [hleft, hright, hplace]
  generalize d * twoTo s * b = low at *
  generalize d * twoTo s = step at *
  have hparity : Even (s * binade + b) ↔ b % 2 = 0 := by
    rw [Nat.even_iff]
    unfold binade
    omega
  have hparity' : Even (s * binade + b + 1) ↔ b % 2 = 1 := by
    rw [Nat.even_iff]
    unfold binade
    omega
  rw [hparity, hparity']
  split <;> omega

theorem nearestPlace_le (n d : ℕ) :
    nearestPlace n d ≤ ((n / d).log2 - 52) * binade + 2 * binade := by
  obtain ⟨hb, -⟩ := quotient_scaled n d
  unfold nearestPlace
  dsimp only
  split <;> omega

theorem log2_le_of_lt_twoTo {k : ℕ} (h : n < twoTo (k + 1)) : n.log2 ≤ k := by
  rcases Nat.eq_zero_or_pos n with rfl | hpos
  · exact Nat.zero_le k
  · exact Nat.le_of_lt_succ ((Nat.log2_lt (Nat.ne_of_gt hpos)).mpr h)

/-- An integer of 64 bits is rounded to a magnitude. -/
theorem exists_ofNat? (h : n ≤ 2 ^ 63) : ∃ m, ofNat? n = some m := by
  have hle : n ≤ twoTo 63 := h
  have hlt : n * one < twoTo (63 + 1074 + 1) :=
    calc n * one ≤ twoTo 63 * one := Nat.mul_le_mul_right one hle
      _ = twoTo (63 + 1074) := by rw [twoTo_add, one_eq]
      _ < twoTo (63 + 1074 + 1) := twoTo_lt_twoTo_succ _
  have hlog : (n * one / 1).log2 ≤ 1137 := by
    rw [Nat.div_one]
    exact log2_le_of_lt_twoTo hlt
  have hplace : nearestPlace (n * one) 1 < 0x7ff0000000000000 :=
    calc nearestPlace (n * one) 1 ≤ ((n * one / 1).log2 - 52) * binade + 2 * binade :=
          nearestPlace_le _ _
      _ ≤ 1085 * binade + 2 * binade :=
          Nat.add_le_add_right (Nat.mul_le_mul_right _ (by omega)) _
      _ < 0x7ff0000000000000 := by decide
  exact ⟨_, dif_pos hplace⟩

/-- The units of an integer of at most 53 bits stand at a place. -/
theorem exists_unitsAt_eq (h : n ≤ 2 ^ 53) :
    ∃ p < 0x7ff0000000000000, unitsAt p = n * one := by
  rcases Nat.eq_zero_or_pos n with rfl | hpos
  · exact ⟨0, by decide, by rw [unitsAt_zero, Nat.zero_mul]⟩
  rcases Nat.eq_or_lt_of_le h with rfl | hlt
  · refine ⟨1075 * binade + binade, by decide, ?_⟩
    have hfull : 2 ^ 53 = binade * 2 := rfl
    rw [unitsAt_scaled (by decide) (.inr (Nat.le_refl _)), twoTo_succ, ← one_eq, hfull,
      Nat.mul_right_comm, Nat.mul_assoc]
  · -- The integer is shifted to the left until it has a full significand.
    have hne := Nat.ne_of_gt hpos
    have hlog : n.log2 ≤ 52 := log2_le_of_lt_twoTo hlt
    obtain ⟨e, he⟩ := Nat.exists_eq_add_of_le hlog
    have hfull : binade ≤ n * twoTo e :=
      calc binade = twoTo n.log2 * twoTo e := by rw [← twoTo_add, ← he]; rfl
        _ ≤ n * twoTo e := Nat.mul_le_mul_right _ (Nat.log2_self_le hne)
    have hfits : n * twoTo e < 2 * binade :=
      calc n * twoTo e < twoTo (n.log2 + 1) * twoTo e :=
            (Nat.mul_lt_mul_right (twoTo_pos e)).mpr Nat.lt_log2_self
        _ = 2 * binade := by rw [← twoTo_add, Nat.add_right_comm, ← he]; rfl
    refine ⟨(1074 - e) * binade + n * twoTo e, ?_, ?_⟩
    · unfold binade at *
      omega
    · rw [unitsAt_scaled hfits (.inr hfull), Nat.mul_assoc, ← twoTo_add,
        Nat.add_sub_of_le (by omega : e ≤ 1074), one_eq]

theorem place_of_nearest? (h : nearest? n d = some m) : nearestPlace n d = m.val := by
  unfold nearest? at h
  dsimp only at h
  split at h
  · obtain rfl := Option.some.inj h
    rfl
  · cases h

end Magnitude

namespace Binary64

open Magnitude

variable {q v w low high : ℚ} {n d : ℕ} {m : Magnitude}

/-- The nearer one of two neighbours is nearer than all that lies beyond them, and as near as
something else only halfway. -/
theorem nearest_of_neighbours (hlow : low ≤ q) (hhigh : q ≤ high)
    (hv : v = low ∧ 2 * q ≤ low + high ∨ v = high ∧ low + high ≤ 2 * q)
    (hw : w ≤ low ∨ high ≤ w) :
    |v - q| ≤ |w - q| ∧ (|w - q| = |v - q| → w ≠ v → 2 * q = low + high) := by
  have hside : |w - q| = q - w ∧ w ≤ low ∨ |w - q| = w - q ∧ high ≤ w := by
    refine hw.imp (fun hw => ⟨?_, hw⟩) fun hw => ⟨?_, hw⟩
    · rw [abs_sub_comm]
      exact abs_of_nonneg (by linarith)
    · exact abs_of_nonneg (by linarith)
  have hnear : |v - q| = q - low ∧ v = low ∧ 2 * q ≤ low + high ∨
      |v - q| = high - q ∧ v = high ∧ low + high ≤ 2 * q := by
    rcases hv with ⟨rfl, hv⟩ | ⟨rfl, hv⟩
    · rw [abs_sub_comm]
      exact .inl ⟨abs_of_nonneg (by linarith), rfl, hv⟩
    · exact .inr ⟨abs_of_nonneg (by linarith), rfl, hv⟩
  rcases hside with ⟨hside, hw⟩ | ⟨hside, hw⟩ <;>
    rcases hnear with ⟨hnear, rfl, hv⟩ | ⟨hnear, rfl, hv⟩ <;> rw [hside, hnear]
  · refine ⟨by linarith, fun htie hne => absurd ?_ hne⟩
    linarith
  · exact ⟨by linarith, fun htie _ => by linarith⟩
  · exact ⟨by linarith, fun htie _ => by linarith⟩
  · refine ⟨by linarith, fun htie hne => absurd ?_ hne⟩
    linarith

/-- The number at a place, as a fraction with the denominator of a quotient. -/
theorem numberAt_eq_div (hd : 0 < d) (p : ℕ) :
    numberAt p = (unitsAt p * d : ℕ) / (d * one : ℕ) := by
  have hne : (d : ℚ) ≠ 0 := Nat.cast_ne_zero.mpr (Nat.ne_of_gt hd)
  rw [numberAt_natCast, Nat.cast_mul, Nat.cast_mul, mul_comm (d : ℚ), mul_div_mul_right _ _ hne]

/-- A quotient lies between the numbers at two neighbouring places and is rounded to the nearer
one, from halfway to the even one. -/
theorem nearestPlace_numberAt_cases (n : ℕ) (hd : 0 < d) (hq : q = n / (d * one : ℕ)) :
    ∃ p : ℕ, numberAt p ≤ q ∧ q < numberAt (p + 1 : ℕ) ∧
      ((nearestPlace n d = p ∧ (2 * q < numberAt p + numberAt (p + 1 : ℕ) ∨
          2 * q = numberAt p + numberAt (p + 1 : ℕ) ∧ Even p)) ∨
        (nearestPlace n d = p + 1 ∧ (numberAt p + numberAt (p + 1 : ℕ) < 2 * q ∨
          2 * q = numberAt p + numberAt (p + 1 : ℕ) ∧ Even (p + 1)))) := by
  obtain ⟨p, hcases⟩ := nearestPlace_cases n hd
  refine ⟨p, ?_⟩
  -- All numbers here are multiples of one unit, so that their order is that of natural numbers.
  have hunit : StrictMono fun a : ℕ => (a : ℚ) / (d * one : ℕ) := fun a b hab =>
    div_lt_div_of_pos_right (Nat.cast_lt.mpr hab)
      (Nat.cast_pos.mpr (Nat.mul_pos hd Magnitude.one_pos))
  have htwice : 2 * q = (2 * n : ℕ) / (d * one : ℕ) := by
    rw [hq, Nat.cast_mul 2 n, Nat.cast_ofNat, mul_div_assoc]
  have hsum : numberAt p + numberAt (p + 1 : ℕ) =
      (unitsAt p * d + unitsAt (p + 1) * d : ℕ) / (d * one : ℕ) := by
    rw [numberAt_eq_div hd, numberAt_eq_div hd, ← add_div, ← Nat.cast_add]
  rw [hsum, htwice, hq, numberAt_eq_div hd, numberAt_eq_div hd, hunit.le_iff_le, hunit.lt_iff_lt,
    hunit.lt_iff_lt, hunit.lt_iff_lt, hunit.injective.eq_iff]
  exact hcases

/-- A quotient of natural numbers is rounded to the nearest number. -/
theorem isNearest_of_nearest? (hd : 0 < d) (h : nearest? n d = some m) :
    (finite false m).IsNearest (n / (d * one : ℕ)) (numberAt m.val) := by
  obtain ⟨p, hlow, hhigh, hcases⟩ := nearestPlace_numberAt_cases n hd rfl
  rw [place_of_nearest? h] at hcases
  generalize (n : ℚ) / (d * one : ℕ) = q at *
  have hnear : numberAt m.val = numberAt p ∧ 2 * q ≤ numberAt p + numberAt (p + 1 : ℕ) ∨
      numberAt m.val = numberAt (p + 1 : ℕ) ∧ numberAt p + numberAt (p + 1 : ℕ) ≤ 2 * q := by
    rcases hcases with ⟨hm, hcase⟩ | ⟨hm, hcase⟩ <;> rw [hm]
    · exact .inl ⟨rfl, hcase.elim le_of_lt fun h => h.1.le⟩
    · exact .inr ⟨rfl, hcase.elim le_of_lt fun h => h.1.ge⟩
  have hbeside : ∀ (y : Binary64) (w : ℚ), y.number? = some (w : Extended) →
      w ≤ numberAt p ∨ numberAt (p + 1 : ℕ) ≤ w := by
    intro y w hy
    obtain ⟨a, -, -, rfl⟩ := exists_rank?_of_finite hy
    rcases lt_or_ge (p : ℤ) a with ha | ha
    · exact .inr (strictMono_numberAt.monotone (by omega))
    · exact .inl (strictMono_numberAt.monotone ha)
  refine ⟨number?_finite false m, fun y w hy => ?_, fun y w hy htie hne => ?_⟩
  · exact (nearest_of_neighbours hlow hhigh.le hnear (hbeside y w hy)).1
  · have hmiddle := (nearest_of_neighbours hlow hhigh.le hnear (hbeside y w hy)).2 htie hne
    refine (even_significand_iff m).mpr ?_
    rcases hcases with ⟨hm, hcase⟩ | ⟨hm, hcase⟩ <;> rw [hm]
    · exact (hcase.resolve_left hmiddle.not_lt).2
    · exact (hcase.resolve_left hmiddle.not_gt).2

/-! ### Signs -/

/-- The double with the other sign. -/
def opposite : Binary64 → Binary64
  | .finite negative m => .finite (!negative) m
  | .infinite negative => .infinite (!negative)
  | .nan => .nan

theorem number?_opposite {x : Binary64} (h : x.number? = some (v : Extended)) :
    x.opposite.number? = some ((-v : ℚ) : Extended) := by
  cases x with
  | finite negative m =>
    rw [number?_finite, Option.some.injEq, WithBotTop.coe_injective.eq_iff] at h
    have hrank : finiteRank (!negative) m = -finiteRank negative m := by
      cases negative <;> simp [finiteRank]
    rw [opposite, number?_finite, hrank, numberAt_neg, h]
  | infinite negative => exact absurd h (number?_infinite_ne negative v)
  | nan => cases h

/-- What is nearest is found alike on both sides of zero. -/
theorem IsNearest.opposite {x : Binary64} (h : x.IsNearest q v) :
    x.opposite.IsNearest (-q) (-v) := by
  have hdistance : ∀ w : ℚ, |-w - q| = |w - -q| := fun w => by
    rw [← abs_neg, neg_sub, sub_neg_eq_add, sub_neg_eq_add, add_comm]
  have hself : |-v - -q| = |v - q| := by rw [← hdistance, neg_neg]
  refine ⟨number?_opposite h.denotes, fun y w hy => ?_, fun y w hy htie hne => ?_⟩
  · rw [hself, ← hdistance]
    exact h.nearest y.opposite (-w) (number?_opposite hy)
  · rw [hself, ← hdistance] at htie
    have heven := h.even y.opposite (-w) (number?_opposite hy) htie fun h => hne (by rw [← h, neg_neg])
    cases x with
    | finite negative m => exact heven
    | _ => exact heven.elim

/-! ### Integers -/

theorem cast_natAbs_div (i : ℤ) : ((i.natAbs * one : ℕ) : ℚ) / (1 * one : ℕ) = |(i : ℚ)| := by
  rw [Nat.one_mul, Nat.cast_mul, Nat.cast_natAbs, Int.cast_abs]
  exact mul_div_cancel_right₀ _ (Nat.cast_ne_zero.mpr (Nat.ne_of_gt Magnitude.one_pos))

/-- An integer of 64 bits is rounded to the nearest number. -/
theorem isNearest_ofInt {i : ℤ} (h : i.natAbs ≤ 2 ^ 63) : ∃ v, (ofInt i).IsNearest i v := by
  obtain ⟨m, hm⟩ := exists_ofNat? h
  have hnear := isNearest_of_nearest? Nat.one_pos hm
  rw [cast_natAbs_div] at hnear
  unfold ofInt
  rw [hm]
  rcases lt_or_ge i 0 with hi | hi
  · have habs : |(i : ℚ)| = -i := abs_of_neg (Int.cast_lt_zero.mpr hi)
    rw [habs] at hnear
    have hopposite := hnear.opposite
    rw [neg_neg] at hopposite
    exact ⟨_, by rwa [decide_eq_true hi]⟩
  · have habs : |(i : ℚ)| = i := abs_of_nonneg (Int.cast_nonneg hi)
    rw [habs] at hnear
    exact ⟨_, by rwa [decide_eq_false (not_lt_of_ge hi)]⟩

/-- Every integer of at most 53 bits is denoted by a double. -/
theorem exists_number?_eq_int {i : ℤ} (h : i.natAbs ≤ 2 ^ 53) :
    ∃ x : Binary64, x.number? = some ((i : ℚ) : Extended) := by
  obtain ⟨p, hp, hunits⟩ := exists_unitsAt_eq h
  have hnumber : numberAt p = |(i : ℚ)| := by
    rw [numberAt_natCast, hunits, ← cast_natAbs_div, Nat.one_mul]
  rcases abs_choice (i : ℚ) with hi | hi
  · refine ⟨.finite false ⟨p, hp⟩, (number?_finite _ _).trans ?_⟩
    rw [← hi, ← hnumber]
    rfl
  · refine ⟨.finite true ⟨p, hp⟩, (number?_finite _ _).trans ?_⟩
    rw [← neg_eq_iff_eq_neg.mpr hi, ← hnumber, ← numberAt_neg]
    rfl

end Binary64

end FilterLang
