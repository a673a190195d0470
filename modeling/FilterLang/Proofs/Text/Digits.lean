import FilterLang.Text.Digits
import FilterLang.Power

/-! Numerals read back as the numbers they were written for. A zero behind the digits multiplies
their value by ten, and a zero before them changes nothing. -/

namespace FilterLang.Text.Digits

variable {c : Char} {cs : List Char}

/-- The text does not begin with a sign. -/
def BeginsUnsigned (cs : List Char) : Prop := ∀ c, cs.head? = some c → c ≠ '+' ∧ c ≠ '-'

theorem value_eq_ofDigitChars (ds : List Char) : value ds = Nat.ofDigitChars 10 ds 0 := by
  have hstep : (fun n d => n * 10 + digitValue d) =
      fun (n : Nat) (d : Char) => 10 * n + (d.toNat - '0'.toNat) := by
    funext n d
    rw [Nat.mul_comm]
    rfl
  rw [value, hstep, Nat.ofDigitChars_eq_foldl]

theorem value_toDigits (n : Nat) : value (Nat.toDigits 10 n) = n := by
  rw [value_eq_ofDigitChars, Nat.ofDigitChars_ten_toDigits]

theorem value_zeros_append (n : Nat) (ds : List Char) :
    value (List.replicate n '0' ++ ds) = value ds := by
  rw [value_eq_ofDigitChars, Nat.ofDigitChars_append, Nat.ofDigitChars_replicate_zero, Nat.mul_zero,
    value_eq_ofDigitChars]

theorem value_append_zeros (ds : List Char) (n : Nat) :
    value (ds ++ List.replicate n '0') = value ds * tenTo n := by
  rw [value_eq_ofDigitChars, Nat.ofDigitChars_append, Nat.ofDigitChars_replicate_zero,
    ← value_eq_ofDigitChars, Nat.mul_comm]
  rfl

theorem ne_sign_of_isDigit (h : c.isDigit) : c ≠ '+' ∧ c ≠ '-' := by
  constructor <;> (rintro rfl; cases h)

theorem splitSign_of_beginsUnsigned (h : BeginsUnsigned cs) : splitSign cs = (false, cs) := by
  cases cs with
  | nil => rfl
  | cons c cs =>
    obtain ⟨hplus, hminus⟩ := h c rfl
    unfold splitSign
    split <;> simp_all

theorem beginsUnsigned_toDigits (n : Nat) : BeginsUnsigned (Nat.toDigits 10 n) := fun c hc =>
  ne_sign_of_isDigit (Nat.isDigit_of_mem_toDigits (by decide) (by decide) (List.mem_of_head? hc))

/-- A numeral reads back as its integer. -/
theorem signedValue_numeral (n : Int) : signedValue (numeral n) = n := by
  cases n with
  | ofNat n =>
    rw [numeral, signedValue, splitSign_of_beginsUnsigned (beginsUnsigned_toDigits n)]
    simp [value_toDigits]
  | negSucc n =>
    rw [numeral, signedValue, splitSign]
    simp [value_toDigits, Int.negSucc_eq]

theorem fit?_toInt (n : Int64) : fit? n.toInt = some n := by
  have hmin := n.minValue_le_toInt
  have hmax := n.toInt_le
  rw [fit?, if_pos ⟨by simpa using hmin, by simpa using hmax⟩, Int64.ofInt_toInt]

end FilterLang.Text.Digits
