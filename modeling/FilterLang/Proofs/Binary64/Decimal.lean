import FilterLang.Proofs.Binary64.Nearest

/-! Rounding decimal numbers. A decimal number is rounded to the nearest double, however many digits
it has and however far it is scaled. It is too large from halfway between the greatest magnitude and
the one that would come next: the greatest significand is odd, so a tie there goes to the next. -/

namespace FilterLang

namespace Binary64

open Magnitude

/-- The least magnitude that is rounded to infinity: halfway between the greatest finite number and
the power of two that would come next. -/
def overflow : ℚ := 2 ^ 1024 - 2 ^ 970

/-- The number at a place whose unit is one or greater. -/
theorem numberAt_scaled {s b : ℕ} (e : ℕ) (hb : b < 2 * binade) (hs : binade ≤ b)
    (he : s = e + 1074) : numberAt (s * binade + b : ℕ) = b * 2 ^ e := by
  have hone : (one : ℚ) ≠ 0 := Nat.cast_ne_zero.mpr (Nat.ne_of_gt Magnitude.one_pos)
  have hpow : (twoTo e : ℚ) = 2 ^ e := Nat.cast_pow 2 e
  rw [numberAt_natCast, unitsAt_scaled hb (.inr hs), he, twoTo_add, ← one_eq, ← Nat.mul_assoc,
    Nat.cast_mul, mul_div_cancel_right₀ _ hone, Nat.cast_mul, hpow]

/-- The greatest magnitude and the number at the place behind it are as far from the overflow. -/
theorem two_mul_overflow :
    numberAt (0x7fefffffffffffff : ℕ) + numberAt (0x7ff0000000000000 : ℕ) = 2 * overflow := by
  rw [show 0x7fefffffffffffff = 2045 * binade + (2 * binade - 1) from rfl,
    show 0x7ff0000000000000 = 2046 * binade + binade from rfl,
    numberAt_scaled 971 (by decide) (by decide) rfl,
    numberAt_scaled 972 (by decide) (by decide) rfl, overflow]
  have hbinade : ((2 * binade - 1 : ℕ) : ℚ) = 2 ^ 53 - 1 := by norm_num [binade]
  have hbinade' : (binade : ℚ) = 2 ^ 52 := by norm_num [binade]
  rw [hbinade, hbinade', show 971 = 970 + 1 from rfl, show 972 = 970 + 2 from rfl,
    show 1024 = 970 + 54 from rfl, pow_add, pow_add, pow_add]
  generalize (2 : ℚ) ^ 970 = t
  norm_num
  ring

end Binary64

namespace Magnitude

open Binary64

variable {n d digits : ℕ} {m : Magnitude}

theorem nearest?_eq_none_iff : nearest? n d = none ↔ 0x7ff0000000000000 ≤ nearestPlace n d := by
  unfold nearest?
  dsimp only
  split <;> simp <;> omega

/-- A quotient has no nearest magnitude from the overflow on. -/
theorem nearest?_eq_none_iff_overflow (hd : 0 < d) :
    nearest? n d = none ↔ overflow ≤ n / (d * one : ℕ) := by
  obtain ⟨p, hlow, hhigh, hcases⟩ := nearestPlace_numberAt_cases n hd rfl
  have hmiddle := two_mul_overflow
  rw [nearest?_eq_none_iff]
  generalize (n : ℚ) / (d * one : ℕ) = q at *
  have hmono : ∀ {a b : ℕ}, a ≤ b → numberAt a ≤ numberAt b := fun h =>
    strictMono_numberAt.monotone (Int.ofNat_le.mpr h)
  have hgap : numberAt (0x7fefffffffffffff : ℕ) < numberAt (0x7ff0000000000000 : ℕ) :=
    strictMono_numberAt (by decide)
  have hplace : nearestPlace n d = p ∨ nearestPlace n d = p + 1 := hcases.imp And.left And.left
  rcases lt_trichotomy p 0x7fefffffffffffff with hp | rfl | hp
  · have := hmono (a := p + 1) hp
    exact iff_of_false (by omega) (by linarith)
  · rcases hcases with ⟨hplace, hcase⟩ | ⟨hplace, hcase⟩ <;> rw [hplace]
    · have heven : ¬Even 0x7fefffffffffffff := by decide
      exact iff_of_false (by omega) (by linarith [hcase.resolve_right fun h => heven h.2])
    · exact iff_of_true (by omega) (by linarith [hcase.elim le_of_lt fun h => h.1.ge])
  · have := hmono (a := 0x7ff0000000000000) hp
    exact iff_of_true (by omega) (by linarith)

/-- A decimal number as a quotient of units. -/
theorem cast_decimal (digits a b : ℕ) :
    ((digits * tenTo a * one : ℕ) : ℚ) / (tenTo b * one : ℕ) = digits * 10 ^ ((a : ℤ) - b) := by
  have hone : (one : ℚ) ≠ 0 := Nat.cast_ne_zero.mpr (Nat.ne_of_gt Magnitude.one_pos)
  have hpow : ∀ k : ℕ, (tenTo k : ℚ) = 10 ^ k := Nat.cast_pow 10
  rw [Nat.cast_mul, Nat.cast_mul, Nat.cast_mul, mul_div_mul_right _ _ hone, hpow, hpow,
    zpow_sub₀ (by norm_num), zpow_natCast, zpow_natCast, mul_div_assoc]

/-- A decimal number is rounded to the nearest number. -/
theorem isNearest_of_ofDecimal? {e : ℤ} (h : ofDecimal? digits e = some m) :
    (finite false m).IsNearest (digits * 10 ^ e) (numberAt m.val) := by
  obtain ⟨a, b, rfl⟩ : ∃ a b : ℕ, e = (a : ℤ) - b := ⟨e.toNat, (-e).toNat, by omega⟩
  rw [ofDecimal?_sub] at h
  rw [← cast_decimal]
  exact isNearest_of_nearest? (tenTo_pos b) h

/-- A decimal number has no nearest magnitude from the overflow on. -/
theorem ofDecimal?_eq_none_iff {e : ℤ} :
    ofDecimal? digits e = none ↔ overflow ≤ digits * 10 ^ e := by
  obtain ⟨a, b, rfl⟩ : ∃ a b : ℕ, e = (a : ℤ) - b := ⟨e.toNat, (-e).toNat, by omega⟩
  rw [ofDecimal?_sub, ← cast_decimal]
  exact nearest?_eq_none_iff_overflow (tenTo_pos b)

end Magnitude

end FilterLang
