import FilterLang.Binary64.Shortest
import Mathlib.Tactic.Ring

/-! Rounding depends on the quotient alone, and magnitudes round to themselves. Hence a decimal
number reads as the magnitude nearest to it whatever power of ten it is scaled by, the exact
expansion of a magnitude reads back, and so does its shortest decimal. -/

namespace FilterLang

theorem twoTo_add (m n : Nat) : twoTo (m + n) = twoTo m * twoTo n := Nat.pow_add 2 m n

theorem tenTo_add (m n : Nat) : tenTo (m + n) = tenTo m * tenTo n := Nat.pow_add 10 m n

theorem twoTo_le_twoTo {m n : Nat} (h : m ≤ n) : twoTo m ≤ twoTo n :=
  Nat.pow_le_pow_right (by decide) h

theorem twoTo_lt_twoTo_succ (n : Nat) : twoTo n < twoTo (n + 1) :=
  Nat.pow_lt_pow_right Nat.one_lt_two (Nat.lt_succ_self n)

theorem twoTo_le_tenTo (n : Nat) : twoTo (3 * n) ≤ tenTo n :=
  calc twoTo (3 * n) = 8 ^ n := Nat.pow_mul 2 3 n
    _ ≤ tenTo n := Nat.pow_le_pow_left (by decide) n

namespace Magnitude

variable {n d : Nat}

theorem one_eq : one = twoTo 1074 := rfl

theorem one_pos : 0 < one := twoTo_pos _

/-! ### The nearest magnitude -/

theorem nearestPlace_mul (n d : Nat) {k : Nat} (hk : 0 < k) :
    nearestPlace (n * k) (d * k) = nearestPlace n d := by
  have hquotient : n * k / (d * k) = n / d := Nat.mul_div_mul_right n d hk
  unfold nearestPlace
  simp only [hquotient]
  generalize twoTo ((n / d).log2 - 52) = t
  rw [Nat.mul_right_comm d k t, Nat.mul_div_mul_right _ _ hk, Nat.mul_mod_mul_right]
  have hlt : 2 * (n % (d * t) * k) < d * t * k ↔ 2 * (n % (d * t)) < d * t := by
    rw [← Nat.mul_assoc]
    exact Nat.mul_lt_mul_right hk
  have heq : 2 * (n % (d * t) * k) = d * t * k ↔ 2 * (n % (d * t)) = d * t := by
    rw [← Nat.mul_assoc]
    exact Nat.mul_left_inj (Nat.pos_iff_ne_zero.mp hk)
  simp only [hlt, heq]

theorem nearest?_mul (n d : Nat) {k : Nat} (hk : 0 < k) :
    nearest? (n * k) (d * k) = nearest? n d := by
  unfold nearest?
  simp only [nearestPlace_mul n d hk]

/-- What is less than half a unit rounds to zero. -/
theorem nearest?_of_small (h : 2 * n < d) : nearest? n d = some zero := by
  have hquotient : n / d = 0 := Nat.div_eq_of_lt (by omega)
  have hplace : nearestPlace n d = 0 := by
    unfold nearestPlace
    simp only [hquotient, Nat.log2_zero, Nat.zero_sub, twoTo_zero, Nat.mul_one, Nat.zero_mul,
      Nat.mod_eq_of_lt (show n < d by omega)]
    rw [if_pos (.inl h)]
  unfold nearest?
  simp only [hplace]
  rfl

theorem place_le_nearestPlace {e : Nat} (h : twoTo (52 + e) ≤ n) :
    (e + 1) * binade ≤ nearestPlace n 1 := by
  have hn : n ≠ 0 := by
    have := twoTo_pos (52 + e)
    omega
  have he : 52 + e ≤ n.log2 := (Nat.le_log2 hn).mpr h
  obtain ⟨s, hs⟩ := Nat.exists_eq_add_of_le (show 52 ≤ n.log2 by omega)
  have hbelow : binade ≤ n / twoTo s := by
    rw [Nat.le_div_iff_mul_le (twoTo_pos s)]
    calc binade * twoTo s = twoTo (52 + s) := (twoTo_add 52 s).symm
      _ ≤ n := (Nat.le_log2 hn).mp (by omega)
  have hle : s * binade + n / twoTo s ≤ nearestPlace n 1 := by
    unfold nearestPlace
    simp only [Nat.div_one, Nat.one_mul, hs, Nat.add_sub_cancel_left]
    split <;> omega
  calc (e + 1) * binade ≤ (s + 1) * binade := Nat.mul_le_mul_right _ (by omega)
    _ = s * binade + binade := Nat.succ_mul s binade
    _ ≤ s * binade + n / twoTo s := Nat.add_le_add_left hbelow _
    _ ≤ nearestPlace n 1 := hle

/-- What is beyond the greatest magnitude rounds to none. -/
theorem nearest?_of_large (h : twoTo 2098 ≤ n) : nearest? n 1 = none := by
  have hplace : (2046 + 1) * 0x10000000000000 ≤ nearestPlace n 1 := place_le_nearestPlace h
  unfold nearest?
  exact dif_neg (by omega)

/-- A significand with its scale is a magnitude, and rounds to its own place. -/
theorem nearestPlace_scaled {s e : Nat} (hs : s < 2 * binade) (he : e = 0 ∨ binade ≤ s) :
    nearestPlace (s * twoTo e) 1 = e * binade + s := by
  have hscale : (s * twoTo e).log2 - 52 = e := by
    by_cases hzero : s = 0
    · rcases he with rfl | he
      · rw [hzero, Nat.zero_mul, Nat.log2_zero]
      · omega
    have hpos := twoTo_pos e
    have hne : s * twoTo e ≠ 0 := Nat.mul_ne_zero hzero (by omega)
    have hlt : s * twoTo e < twoTo (53 + e) := by
      rw [twoTo_add]
      exact (Nat.mul_lt_mul_right hpos).mpr hs
    have hupper : (s * twoTo e).log2 < 53 + e := (Nat.log2_lt hne).mpr hlt
    rcases he with rfl | he
    · omega
    · have hle : twoTo (52 + e) ≤ s * twoTo e := by
        rw [twoTo_add]
        exact Nat.mul_le_mul_right _ he
      have hlower : 52 + e ≤ (s * twoTo e).log2 := (Nat.le_log2 hne).mpr hle
      omega
  unfold nearestPlace
  simp only [Nat.div_one, Nat.one_mul, hscale, Nat.mul_mod_left, Nat.mul_zero, twoTo_pos, true_or,
    ↓reduceIte, Nat.mul_div_cancel s (twoTo_pos e)]

theorem nearest?_units (m : Magnitude) : nearest? m.units 1 = some m := by
  have hsignificand : m.significand < 2 * binade := by
    unfold significand scale binade
    omega
  have hscale : m.scale = 0 ∨ binade ≤ m.significand := by
    unfold significand scale binade
    omega
  have hplace : m.scale * binade + m.significand = m.val := by
    unfold significand scale binade
    omega
  have hnearest : nearestPlace m.units 1 = m.val := by
    rw [units, nearestPlace_scaled hsignificand hscale, hplace]
  unfold nearest?
  simp only [hnearest]
  exact dif_pos m.isLt

/-! ### Reading decimals -/

theorem ofDecimal?_ofNat (digits e : Nat) :
    ofDecimal? digits (.ofNat e) = nearest? (digits * tenTo e * one) 1 := by
  rw [ofDecimal?]
  split
  next h =>
    rw [h, Nat.zero_mul, Nat.zero_mul, nearest?_of_small (by decide)]
  next h =>
    split
    next hlarge =>
      refine (nearest?_of_large ?_).symm
      calc twoTo 2098 ≤ twoTo (digits.log2 + 3 * e + 1074) := twoTo_le_twoTo (by omega)
        _ = twoTo digits.log2 * twoTo (3 * e) * one := by rw [twoTo_add, twoTo_add, one_eq]
        _ ≤ digits * tenTo e * one :=
            Nat.mul_le_mul_right _ (Nat.mul_le_mul (Nat.log2_self_le h) (twoTo_le_tenTo e))
    next => rfl

theorem ofDecimal?_negSucc (digits e : Nat) :
    ofDecimal? digits (.negSucc e) = nearest? (digits * one) (tenTo (e + 1)) := by
  rw [ofDecimal?]
  split
  next h =>
    refine (nearest?_of_small ?_).symm
    rcases h with rfl | hsmall
    · rw [Nat.zero_mul]
      exact tenTo_pos _
    · calc 2 * (digits * one) < 2 * (twoTo (digits.log2 + 1) * one) := by
            have hlt : digits < twoTo (digits.log2 + 1) := Nat.lt_log2_self
            have := (Nat.mul_lt_mul_right one_pos).mpr hlt
            omega
        _ = twoTo (digits.log2 + 1 + 1074 + 1) := by
            rw [twoTo_succ (digits.log2 + 1 + 1074), twoTo_add _ 1074, one_eq, Nat.mul_comm]
        _ ≤ twoTo (3 * (e + 1)) := twoTo_le_twoTo (by omega)
        _ ≤ tenTo (e + 1) := twoTo_le_tenTo _
  next => rfl

/-- A decimal number reads as the magnitude nearest to its exact value. -/
theorem ofDecimal?_sub (digits a b : Nat) :
    ofDecimal? digits ((a : Int) - b) = nearest? (digits * tenTo a * one) (tenTo b) := by
  by_cases h : b ≤ a
  · obtain ⟨e, rfl⟩ := Nat.exists_eq_add_of_le h
    have hexp : ((b + e : Nat) : Int) - b = .ofNat e := by
      rw [Int.ofNat_eq_natCast]
      omega
    have hnum : digits * (tenTo b * tenTo e) * one = digits * tenTo e * one * tenTo b := by
      generalize one = u
      ring
    rw [hexp, ofDecimal?_ofNat, ← nearest?_mul _ _ (tenTo_pos b), tenTo_add, Nat.one_mul, hnum]
  · obtain ⟨e, rfl⟩ := Nat.exists_eq_add_of_lt (Nat.lt_of_not_le h)
    have hexp : (a : Int) - ((a + e + 1 : Nat) : Int) = .negSucc e := by
      rw [Int.negSucc_eq]
      omega
    have hnum : digits * tenTo a * one = digits * one * tenTo a := Nat.mul_right_comm _ _ _
    rw [hexp, ofDecimal?_negSucc, ← nearest?_mul _ _ (tenTo_pos a), Nat.add_assoc, tenTo_add a,
      hnum, Nat.mul_comm (tenTo a)]

/-- Zeros behind the digits go into the exponent. -/
theorem ofDecimal?_mul_tenTo (digits k : Nat) (e : Int) :
    ofDecimal? (digits * tenTo k) (e - k) = ofDecimal? digits e := by
  obtain ⟨a, b, rfl⟩ : ∃ a b : Nat, e = (a : Int) - b := ⟨e.toNat, (-e).toNat, by omega⟩
  have hexp : (a : Int) - b - k = (a : Int) - ((b + k : Nat) : Int) := by omega
  have hnum : digits * tenTo k * tenTo a * one = digits * tenTo a * one * tenTo k := by
    generalize one = u
    ring
  rw [hexp, ofDecimal?_sub, ofDecimal?_sub, tenTo_add, hnum, nearest?_mul _ _ (tenTo_pos k)]

theorem ofDecimal?_zero (e : Int) : ofDecimal? 0 e = some zero := by
  cases e <;> simp [ofDecimal?]

theorem nearest?_mul_pow_five (n e : Nat) :
    nearest? (n * Nat.pow 5 e * twoTo e) (tenTo e) = nearest? n 1 := by
  have hpow : Nat.pow 5 e * twoTo e = tenTo e := (Nat.mul_pow 5 2 e).symm
  rw [Nat.mul_assoc, hpow, ← nearest?_mul n 1 (tenTo_pos e), Nat.one_mul]

/-- The exact expansion reads back. -/
theorem read?_expansion (m : Magnitude) : m.expansion.read? = some m := by
  have hread : m.expansion.read? = ofDecimal? (m.units * Nat.pow 5 1074) (.negSucc 1073) := rfl
  rw [hread, ofDecimal?_negSucc, one_eq, show 1073 + 1 = 1074 from rfl]
  -- No step may compute a power this large.
  generalize 1074 = e
  rw [nearest?_mul_pow_five, nearest?_units]

/-- The shortest decimal reads back. -/
theorem read?_shortest (m : Magnitude) : m.shortest.read? = some m := by
  rw [shortest]
  cases hfound : (List.range 17).findSome? fun i =>
      (m.neighbours (m.leadingExponent - (i : Nat))).find? fun d => d.read? = some m with
  | none => exact read?_expansion m
  | some d =>
    obtain ⟨i, -, hi⟩ := List.exists_of_findSome?_eq_some hfound
    simpa using List.find?_some hi

end Magnitude

end FilterLang
