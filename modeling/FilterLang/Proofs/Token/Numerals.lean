import FilterLang.Proofs.Binary64.Decimal
import FilterLang.Proofs.Binary64.Text
import FilterLang.Proofs.Token.Locality
import FilterLang.Value
import Mathlib.Data.Nat.Digits.Defs

/-! The numbers that numerals denote. A numeral is read as its number if there is room for it: an
integer of any length if it fits in 64 bits, a real numeral as the nearest double, with the sign it
is written with, if that is finite. Otherwise the whole numeral is an invalid token. -/

namespace FilterLang.Token

open Computability
open Text

/-- The number that a run of digits denotes. -/
def natural (ds : List Char) : ℕ := Nat.ofDigits 10 (ds.reverse.map Digits.digitValue)

/-- The numeral denotes the integer. -/
inductive IntegerDenotes : List Char → ℤ → Prop
  | unsigned {ds : List Char} : ds ∈ many Char.isDigit → IntegerDenotes ds (natural ds)
  | negative {ds : List Char} : ds ∈ many Char.isDigit → IntegerDenotes ('-' :: ds) (-natural ds)

/-- The exponent of a real numeral denotes the integer; without an exponent that is zero. -/
inductive ExponentDenotes : List Char → ℤ → Prop
  | missing : ExponentDenotes [] 0
  | unsigned {c : Char} {ds : List Char} : isMark c → ds ∈ many Char.isDigit →
      ExponentDenotes (c :: ds) (natural ds)
  | positive {c : Char} {ds : List Char} : isMark c → ds ∈ many Char.isDigit →
      ExponentDenotes (c :: '+' :: ds) (natural ds)
  | negative {c : Char} {ds : List Char} : isMark c → ds ∈ many Char.isDigit →
      ExponentDenotes (c :: '-' :: ds) (-natural ds)

/-- The real numeral without a sign denotes the rational number. It has a point, with or without
digits before it, or an exponent. -/
inductive UnsignedDenotes : List Char → ℚ → Prop
  | point {whole fraction exponent : List Char} {e : ℤ} : (∀ c ∈ whole, c.isDigit) →
      fraction ∈ many Char.isDigit → ExponentDenotes exponent e →
      UnsignedDenotes (whole ++ '.' :: (fraction ++ exponent))
        ((natural whole + natural fraction / 10 ^ fraction.length) * 10 ^ e)
  | pointless {whole exponent : List Char} {e : ℤ} : whole ∈ many Char.isDigit →
      ExponentDenotes exponent e → exponent ≠ [] →
      UnsignedDenotes (whole ++ exponent) (natural whole * 10 ^ e)

/-- The real numeral denotes the rational number, and is written with a minus or without. -/
inductive RealDenotes : List Char → Bool → ℚ → Prop
  | unsigned {cs : List Char} {q : ℚ} : UnsignedDenotes cs q → RealDenotes cs false q
  | negative {cs : List Char} {q : ℚ} : UnsignedDenotes cs q → RealDenotes ('-' :: cs) true (-q)

section

variable {c : Char} {cs ds rest : List Char} {l : Language Char} {n e : ℤ} {q : ℚ}

/-! ### The numerals are the texts of the patterns -/

theorem mem_oneOf_mul {p : Char → Bool} :
    cs ∈ oneOf p * l ↔ ∃ c rest, cs = c :: rest ∧ p c ∧ rest ∈ l := by
  cases cs <;> simp

theorem mem_single_mul : cs ∈ single c * l ↔ ∃ rest, cs = c :: rest ∧ rest ∈ l := by
  cases cs <;> simp

theorem mem_minusSign_mul : cs ∈ minusSign * l ↔ cs ∈ l ∨ ∃ rest, cs = '-' :: rest ∧ rest ∈ l := by
  rw [minusSign, optional_mul_eq, Language.mem_add, mem_single_mul]

theorem mem_integer_iff : cs ∈ Pattern.integer.language ↔ ∃ n, IntegerDenotes cs n := by
  rw [Pattern.language, mem_minusSign_mul]
  constructor
  · rintro (h | ⟨ds, rfl, h⟩)
    · exact ⟨_, .unsigned h⟩
    · exact ⟨_, .negative h⟩
  · rintro ⟨_, h | h⟩
    · exact .inl h
    · exact .inr ⟨_, rfl, h⟩

theorem mem_exponentPart_iff :
    cs ∈ exponentPart ↔ ∃ c rest, cs = c :: rest ∧ isMark c ∧
      (rest ∈ many Char.isDigit ∨
        ∃ ds ∈ many Char.isDigit, rest = '+' :: ds ∨ rest = '-' :: ds) := by
  rw [exponentPart, mem_oneOf_mul]
  simp only [optional_mul_eq, Language.mem_add, mem_oneOf_mul, Bool.or_eq_true, beq_iff_eq]
  refine exists_congr fun c => exists_congr fun rest => and_congr_right' (and_congr_right' ?_)
  refine or_congr_right ⟨?_, ?_⟩
  · rintro ⟨d, ds, rfl, rfl | rfl, hds⟩
    · exact ⟨ds, hds, .inl rfl⟩
    · exact ⟨ds, hds, .inr rfl⟩
  · rintro ⟨ds, hds, rfl | rfl⟩
    · exact ⟨_, ds, rfl, .inl rfl, hds⟩
    · exact ⟨_, ds, rfl, .inr rfl, hds⟩

theorem mem_exponent_iff : cs ∈ optional exponentPart ↔ ∃ e, ExponentDenotes cs e := by
  rw [mem_optional, mem_exponentPart_iff]
  constructor
  · rintro (rfl | ⟨c, rest, rfl, hc, hds | ⟨ds, hds, rfl | rfl⟩⟩)
    · exact ⟨0, .missing⟩
    · exact ⟨_, .unsigned hc hds⟩
    · exact ⟨_, .positive hc hds⟩
    · exact ⟨_, .negative hc hds⟩
  · rintro ⟨_, h | ⟨hc, hds⟩ | ⟨hc, hds⟩ | ⟨hc, hds⟩⟩
    · exact .inl rfl
    · exact .inr ⟨_, _, rfl, hc, .inl hds⟩
    · exact .inr ⟨_, _, rfl, hc, .inr ⟨_, hds, .inl rfl⟩⟩
    · exact .inr ⟨_, _, rfl, hc, .inr ⟨_, hds, .inr rfl⟩⟩

/-- The patterns of reals, without the sign that they have in common. -/
theorem mem_unsigned_iff :
    cs ∈ many Char.isDigit * (single '.' * (many Char.isDigit * optional exponentPart)) +
        single '.' * (many Char.isDigit * optional exponentPart) +
        many Char.isDigit * exponentPart ↔ ∃ q, UnsignedDenotes cs q := by
  rw [Language.mem_add, Language.mem_add]
  constructor
  · rintro ((⟨whole, hwhole, _, hpoint, rfl⟩ | hpoint) | ⟨whole, hwhole, exponent, hexponent, rfl⟩)
    · obtain ⟨_, rfl, fraction, hfraction, exponent, hexponent, rfl⟩ := mem_single_mul.mp hpoint
      obtain ⟨e, he⟩ := mem_exponent_iff.mp hexponent
      exact ⟨_, .point (mem_many.mp hwhole).2 hfraction he⟩
    · obtain ⟨_, rfl, fraction, hfraction, exponent, hexponent, rfl⟩ := mem_single_mul.mp hpoint
      obtain ⟨e, he⟩ := mem_exponent_iff.mp hexponent
      have hwhole : ∀ c ∈ ([] : List Char), c.isDigit := by simp
      exact ⟨_, .point hwhole hfraction he⟩
    · obtain ⟨e, he⟩ := mem_exponent_iff.mp (.inr hexponent)
      refine ⟨_, .pointless hwhole he ?_⟩
      rintro rfl
      exact nil_notMem_exponentPart hexponent
  · rintro ⟨_, @⟨whole, fraction, exponent, e, hwhole, hfraction, he⟩ | ⟨hwhole, he, hne⟩⟩
    · have hexponent := mem_exponent_iff.mpr ⟨e, he⟩
      have hpoint : '.' :: (fraction ++ exponent) ∈ single '.' * _ :=
        cons_mem_single_mul.mpr ⟨rfl, Language.append_mem_mul hfraction hexponent⟩
      by_cases hnil : whole = []
      · rw [hnil]
        exact .inl (.inr hpoint)
      · exact .inl (.inl (Language.append_mem_mul (mem_many.mpr ⟨hnil, hwhole⟩) hpoint))
    · have hexponent := (mem_optional.mp (mem_exponent_iff.mpr ⟨_, he⟩)).resolve_left hne
      exact .inr (Language.append_mem_mul hwhole hexponent)

theorem mem_real_iff :
    cs ∈ Pattern.real.language ↔ ∃ negative q, RealDenotes cs negative q := by
  rw [Pattern.language, ← mul_add, ← mul_add, mem_minusSign_mul]
  simp only [mem_unsigned_iff]
  constructor
  · rintro (⟨q, h⟩ | ⟨rest, rfl, q, h⟩)
    · exact ⟨_, _, .unsigned h⟩
    · exact ⟨_, _, .negative h⟩
  · rintro ⟨_, _, h | h⟩
    · exact .inl ⟨_, h⟩
    · exact .inr ⟨_, rfl, _, h⟩

/-! ### The parts of a numeral -/

theorem value_eq_natural (ds : List Char) : Digits.value ds = natural ds := by
  induction ds using List.reverseRecOn with
  | nil => rfl
  | append_singleton ds d ih =>
    rw [Digits.value, List.foldl_append, ← Digits.value, ih, natural, natural]
    simp [Nat.ofDigits_cons]
    omega

theorem natural_append (ds more : List Char) :
    natural (ds ++ more) = natural ds * 10 ^ more.length + natural more := by
  simp only [natural, List.reverse_append, List.map_append, Nat.ofDigits_append, List.length_map,
    List.length_reverse]
  ring

theorem signedValue_of_digits (hds : ds ∈ many Char.isDigit) :
    Digits.signedValue ds = natural ds := by
  have hunsigned := beginsUnsigned_append hds []
  rw [List.append_nil] at hunsigned
  rw [Digits.signedValue, Digits.splitSign_of_beginsUnsigned hunsigned, ← value_eq_natural]
  rfl

theorem IntegerDenotes.signedValue_eq (h : IntegerDenotes cs n) : Digits.signedValue cs = n := by
  cases h with
  | unsigned hds => exact signedValue_of_digits hds
  | negative hds =>
    rw [Digits.signedValue, Digits.splitSign, ← value_eq_natural]
    rfl

theorem ExponentDenotes.signedValue_eq (h : ExponentDenotes cs e) :
    Digits.signedValue (cs.drop 1) = e := by
  cases h with
  | missing => rfl
  | unsigned _ hds => exact signedValue_of_digits hds
  | positive _ hds | negative _ hds =>
    rw [List.drop_one, List.tail_cons, Digits.signedValue, Digits.splitSign, ← value_eq_natural]
    rfl

theorem ExponentDenotes.head (h : ExponentDenotes cs e) :
    ∀ c, cs.head? = some c → c.isDigit = false ∧ c ≠ '.' := by
  have hmark : ∀ c, isMark c → c.isDigit = false ∧ c ≠ '.' := by
    intro c hc
    rcases isMark_iff.mp hc with rfl | rfl <;> decide
  intro c hc
  cases h with
  | missing => cases hc
  | unsigned h | positive h | negative h =>
    cases hc
    exact hmark _ h

theorem beginsUnsigned_of_digits (hds : ∀ c ∈ ds, c.isDigit) (hrest : Digits.BeginsUnsigned rest) :
    Digits.BeginsUnsigned (ds ++ rest) := by
  by_cases hnil : ds = []
  · rwa [hnil]
  · exact beginsUnsigned_append (mem_many.mpr ⟨hnil, hds⟩) rest

/-- What a real numeral denotes is what its parts denote. -/
theorem UnsignedDenotes.realParts_eq (h : UnsignedDenotes cs q) (negative : Bool) :
    ∃ digits e, realParts (Binary64.signText negative ++ cs) = (negative, digits, e) ∧
      q = digits * 10 ^ e := by
  have hten : (10 : ℚ) ≠ 0 := by norm_num
  unfold realParts
  cases h with
  | @point whole fraction exponent e hwhole hfraction he =>
    have hunsigned : Digits.BeginsUnsigned (whole ++ '.' :: (fraction ++ exponent)) :=
      beginsUnsigned_of_digits hwhole fun c hc => by cases hc; decide
    have hdot : ∀ c, ('.' :: (fraction ++ exponent)).head? = some c → c.isDigit = false := by
      rintro c ⟨⟩
      rfl
    have hexponent := fun c hc => (he.head c hc).1
    have hdigits := (mem_many.mp hfraction).2
    rw [splitSign_signText negative hunsigned]
    simp only [takeWhile_isDigit_append hwhole hdot, dropWhile_isDigit_append hwhole hdot,
      takeWhile_isDigit_append hdigits hexponent, dropWhile_isDigit_append hdigits hexponent,
      he.signedValue_eq, value_eq_natural]
    refine ⟨_, _, rfl, ?_⟩
    rw [natural_append, zpow_sub₀ hten, zpow_natCast]
    push_cast
    field_simp
  | @pointless whole exponent e hwhole he hne =>
    have hexponent := fun c hc => (he.head c hc).1
    have hdigits := (mem_many.mp hwhole).2
    rw [splitSign_signText negative (beginsUnsigned_append hwhole _)]
    simp only [takeWhile_isDigit_append hdigits hexponent,
      dropWhile_isDigit_append hdigits hexponent]
    split
    next => exact absurd rfl (he.head '.' rfl).2
    next =>
      refine ⟨_, _, rfl, ?_⟩
      rw [he.signedValue_eq, List.append_nil, value_eq_natural, List.length_nil, Nat.cast_zero,
        sub_zero]

/-- A real numeral is rounded to the nearest finite double, with the sign that it is written with,
unless it reaches the overflow. -/
theorem RealDenotes.real?_cases {negative : Bool} (h : RealDenotes cs negative q) :
    (|q| < Binary64.overflow ∧ ∃ m v, real? cs = some (.finite negative m) ∧
        (Binary64.finite negative m).IsNearest q v) ∨
      (Binary64.overflow ≤ |q| ∧ real? cs = none) := by
  have hparts : ∃ digits e, realParts cs = (negative, digits, e) ∧ |q| = digits * 10 ^ e ∧
      q = if negative then -|q| else |q| := by
    have hpos : ∀ (digits : ℕ) (e : ℤ), (0 : ℚ) ≤ digits * 10 ^ e := fun digits e =>
      mul_nonneg (Nat.cast_nonneg digits) (zpow_nonneg (by norm_num) e)
    cases h with
    | unsigned h =>
      obtain ⟨digits, e, hparts, rfl⟩ := h.realParts_eq false
      exact ⟨digits, e, hparts, abs_of_nonneg (hpos digits e), (abs_of_nonneg (hpos digits e)).symm⟩
    | negative h =>
      obtain ⟨digits, e, hparts, rfl⟩ := h.realParts_eq true
      refine ⟨digits, e, hparts, ?_, ?_⟩
      · rw [abs_neg, abs_of_nonneg (hpos digits e)]
      · rw [if_pos rfl, abs_neg, abs_of_nonneg (hpos digits e)]
  obtain ⟨digits, e, hparts, habs, hq⟩ := hparts
  simp only [real?, hparts]
  cases hm : Magnitude.ofDecimal? digits e with
  | none => exact .inr ⟨habs ▸ Magnitude.ofDecimal?_eq_none_iff.mp hm, rfl⟩
  | some m =>
    have hsmall : |q| < Binary64.overflow := by
      rw [← not_le, habs, ← Magnitude.ofDecimal?_eq_none_iff, hm]
      exact Option.some_ne_none m
    have hnear := Magnitude.isNearest_of_ofDecimal? hm
    rw [← habs] at hnear
    refine .inl ⟨hsmall, m, ?_⟩
    rw [hq]
    cases negative with
    | false => exact ⟨_, rfl, hnear⟩
    | true => exact ⟨_, rfl, hnear.opposite⟩

/-- The scan of a source that is all one lexeme. -/
theorem scan_of_reads {p : Pattern} {source : String} (hp : p.Reads source.toList) :
    scan source = match p.token? source.toList with
      | none => .error (.invalidToken source 0)
      | some t => .ok [⟨t, 0⟩] := by
  have hlong := longestFront_of_ends ⟨p, hp.1⟩ endsLexeme_nil
  have hbest := munch_best_of_reads (hp.begins []) hlong hp
  have hscan : scanFrom [] 0 0 (source.toList ++ []) = _ :=
    scanFrom_match hlong.holds.ne_nil hbest
  rw [List.append_nil, ← hp.token?_eq] at hscan
  rw [scan, hscan]
  cases ht : p.token? source.toList with
  | none => simp
  | some t =>
    have hne : t ≠ .blank := by
      rintro rfl
      exact Pattern.token?_ne_blank ht
    simp [hne, scanFrom]

theorem IntegerDenotes.integer?_eq (h : IntegerDenotes cs n) :
    integer? cs = if -2 ^ 63 ≤ n ∧ n ≤ 2 ^ 63 - 1 then some (.ofInt n) else none := by
  rw [integer?, h.signedValue_eq]
  rfl

end

/-- The texts of the integer pattern and of the real patterns are the numerals that denote a number.
Scanned alone, an integer numeral gives its number if that fits in 64 bits, and a real numeral gives
the nearest double, with the sign that it is written with, if the number does not reach the
overflow. Otherwise the whole numeral is an invalid token. -/
theorem scan_numeral (source : String) :
    (source.toList ∈ Pattern.integer.language ↔ ∃ n, IntegerDenotes source.toList n) ∧
    (source.toList ∈ Pattern.real.language ↔
      ∃ negative q, RealDenotes source.toList negative q) ∧
    (∀ n, IntegerDenotes source.toList n →
      (-2 ^ 63 ≤ n ∧ n ≤ 2 ^ 63 - 1 → ∃ i : Int64, i.toInt = n ∧
        scan source = .ok [⟨.literal (.integer i), 0⟩]) ∧
      (¬(-2 ^ 63 ≤ n ∧ n ≤ 2 ^ 63 - 1) → scan source = .error (.invalidToken source 0))) ∧
    ∀ negative q, RealDenotes source.toList negative q →
      (|q| < 2 ^ 1024 - 2 ^ 970 → ∃ m v, (Binary64.finite negative m).IsNearest q v ∧
        scan source = .ok [⟨.literal (.real (.finite negative m)), 0⟩]) ∧
      (2 ^ 1024 - 2 ^ 970 ≤ |q| → scan source = .error (.invalidToken source 0)) := by
  refine ⟨mem_integer_iff, mem_real_iff, fun n h => ?_, fun negative q h => ?_⟩
  · have hreads : Pattern.integer.Reads source.toList := ⟨mem_integer_iff.mpr ⟨n, h⟩, by simp⟩
    rw [scan_of_reads hreads, Pattern.token?]
    refine ⟨fun hfits => ⟨.ofInt n, Int64.toInt_ofInt_of_le hfits.1 (by omega), ?_⟩,
      fun hlarge => ?_⟩
    · rw [h.integer?_eq, if_pos hfits]
      rfl
    · rw [h.integer?_eq, if_neg hlarge]
      rfl
  · have hreads : Pattern.real.Reads source.toList := ⟨mem_real_iff.mpr ⟨_, q, h⟩, by simp⟩
    rw [scan_of_reads hreads, Pattern.token?]
    rcases h.real?_cases with ⟨hsmall, m, v, hread, hnear⟩ | ⟨hlarge, hread⟩
    · refine ⟨fun _ => ⟨m, v, hnear, by rw [hread]; rfl⟩, fun hlarge => ?_⟩
      exact absurd hsmall (not_lt_of_ge hlarge)
    · refine ⟨fun hsmall => absurd hsmall (not_lt_of_ge hlarge), fun _ => ?_⟩
      rw [hread]
      rfl

/-- The least integer of 64 bits, the integer behind the greatest one, and a zero with a minus. -/
theorem scan_numeral_limits :
    IntegerDenotes "-09223372036854775808".toList (-2 ^ 63) ∧
    (∃ i : Int64, i.toInt = -2 ^ 63 ∧
      scan "-09223372036854775808" = .ok [⟨.literal (.integer i), 0⟩]) ∧
    IntegerDenotes "9223372036854775808".toList (2 ^ 63) ∧
    scan "9223372036854775808" = .error (.invalidToken "9223372036854775808" 0) ∧
    RealDenotes "-.00E+7".toList true 0 ∧
    ∃ m v, (Binary64.finite true m).IsNearest 0 v ∧
      scan "-.00E+7" = .ok [⟨.literal (.real (.finite true m)), 0⟩] := by
  have hdigits : ∀ ds : List Char, ds ≠ [] → ds.all Char.isDigit → ds ∈ many Char.isDigit :=
    fun _ hne hall => mem_many.mpr ⟨hne, List.all_eq_true.mp hall⟩
  have hleast : IntegerDenotes "-09223372036854775808".toList (-2 ^ 63) :=
    .negative (hdigits _ (by decide) (by decide))
  have hgreat : IntegerDenotes "9223372036854775808".toList (2 ^ 63) :=
    .unsigned (hdigits _ (by decide) (by decide))
  have hzero : RealDenotes "-.00E+7".toList true 0 := by
    have hmark : ExponentDenotes ['E', '+', '7'] 7 :=
      .positive rfl (hdigits _ (by decide) (by decide))
    have hparts : UnsignedDenotes ([] ++ '.' :: (['0', '0'] ++ ['E', '+', '7'])) _ :=
      .point (by simp) (hdigits _ (by decide) (by decide)) hmark
    have hnumber := RealDenotes.negative hparts
    rwa [show natural [] = 0 from rfl, show natural ['0', '0'] = 0 from rfl, Nat.cast_zero,
      zero_div, add_zero, zero_mul, neg_zero] at hnumber
  obtain ⟨-, -, hinteger, -⟩ := scan_numeral "-09223372036854775808"
  obtain ⟨-, -, hinteger', -⟩ := scan_numeral "9223372036854775808"
  obtain ⟨-, -, -, hreal⟩ := scan_numeral "-.00E+7"
  refine ⟨hleast, (hinteger _ hleast).1 (by decide), hgreat, (hinteger' _ hgreat).2 (by decide),
    hzero, (hreal true 0 hzero).1 ?_⟩
  rw [abs_zero, sub_pos]
  exact pow_lt_pow_right₀ one_lt_two (by decide)

end FilterLang.Token
