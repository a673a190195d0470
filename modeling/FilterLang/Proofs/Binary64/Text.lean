import FilterLang.Binary64.Text
import FilterLang.Proofs.Binary64.Rounding
import FilterLang.Proofs.Text.Digits
import FilterLang.Proofs.Token.Pattern
import Mathlib.Data.List.TakeWhile

/-! The written form of a finite number is a real numeral that reads back as the number, its sign
included. A numeral has a point, an exponent, or both; each form that a decimal is written in
denotes the value of its significant digits, scaled so that the leading one has the exponent of
the decimal. -/

namespace FilterLang

open Computability Text.Digits
open Token (many oneOf mem_many optional)

/-! ### Real numerals -/

/-- The real numerals without a sign that have digits before the point or exponent, with all their
digits as one number and the power of ten it is scaled by. -/
inductive RealNumeral : List Char → Nat → Int → Prop
  | point {whole fraction : List Char} :
      whole ∈ many Char.isDigit → fraction ∈ many Char.isDigit →
      RealNumeral (whole ++ '.' :: fraction) (value (whole ++ fraction)) (-(fraction.length : Int))
  | pointExponent {whole fraction : List Char} (e : Int) :
      whole ∈ many Char.isDigit → fraction ∈ many Char.isDigit →
      RealNumeral (whole ++ '.' :: (fraction ++ 'e' :: numeral e)) (value (whole ++ fraction))
        (e - (fraction.length : Int))
  | exponent {whole : List Char} (e : Int) :
      whole ∈ many Char.isDigit → RealNumeral (whole ++ 'e' :: numeral e) (value whole) e

section Numerals

variable {c : Char} {cs ds rest : List Char} {n : Nat} {e : Int}

theorem toDigits_mem_many (n : Nat) : Nat.toDigits 10 n ∈ many Char.isDigit :=
  mem_many.mpr ⟨Nat.toDigits_ne_nil, fun _ hc =>
    Nat.isDigit_of_mem_toDigits (by decide) (by decide) hc⟩

/-- A numeral is digits behind a minus or nothing. -/
theorem numeral_mem_mul {l : Language Char} (hnil : [] ∈ l) (hminus : ['-'] ∈ l) (e : Int) :
    numeral e ∈ l * many Char.isDigit := by
  cases e with
  | ofNat n => exact Language.append_mem_mul hnil (toDigits_mem_many n)
  | negSucc n => exact Language.append_mem_mul hminus (toDigits_mem_many (n + 1))

theorem exponent_mem_exponentPart (e : Int) : 'e' :: numeral e ∈ Token.exponentPart :=
  Token.cons_mem_exponentPart.mpr
    ⟨rfl, numeral_mem_mul (.inl rfl) (.inr ⟨'-', rfl, rfl⟩) e⟩

theorem signText_mem_minusSign (negative : Bool) :
    Binary64.signText negative ∈ Token.minusSign := by
  cases negative
  · exact .inl rfl
  · exact .inr ⟨'-', rfl, rfl⟩

/-- A real numeral with or without a minus is of the pattern of reals. -/
theorem RealNumeral.signed_mem_language (h : RealNumeral cs n e) (negative : Bool) :
    Binary64.signText negative ++ cs ∈ Token.Pattern.real.language := by
  have hsign := signText_mem_minusSign negative
  have hpoint : ['.'] ∈ Token.single '.' := Token.cons_mem_single.mpr ⟨rfl, rfl⟩
  cases h with
  | @point whole fraction hwhole hfraction =>
    have htail : fraction ++ [] ∈ many Char.isDigit * optional Token.exponentPart :=
      Language.append_mem_mul hfraction (.inl rfl)
    rw [List.append_nil] at htail
    exact .inl (.inl (Language.append_mem_mul hsign (Language.append_mem_mul hwhole
      (Language.append_mem_mul hpoint htail))))
  | @pointExponent whole fraction e hwhole hfraction =>
    have htail : fraction ++ 'e' :: numeral e ∈
        many Char.isDigit * optional Token.exponentPart :=
      Language.append_mem_mul hfraction (.inr (exponent_mem_exponentPart e))
    exact .inl (.inl (Language.append_mem_mul hsign (Language.append_mem_mul hwhole
      (Language.append_mem_mul hpoint htail))))
  | @exponent whole e hwhole =>
    exact .inr (Language.append_mem_mul hsign
      (Language.append_mem_mul hwhole (exponent_mem_exponentPart e)))

theorem takeWhile_isDigit_append (hds : ∀ c ∈ ds, c.isDigit)
    (hrest : ∀ c, rest.head? = some c → c.isDigit = false) :
    (ds ++ rest).takeWhile Char.isDigit = ds := by
  rw [List.takeWhile_append_of_pos hds]
  cases rest with
  | nil => simp
  | cons c rest => simp [hrest c rfl]

theorem dropWhile_isDigit_append (hds : ∀ c ∈ ds, c.isDigit)
    (hrest : ∀ c, rest.head? = some c → c.isDigit = false) :
    (ds ++ rest).dropWhile Char.isDigit = rest := by
  rw [List.dropWhile_append_of_pos hds]
  cases rest with
  | nil => simp
  | cons c rest => simp [hrest c rfl]

theorem beginsUnsigned_append (hds : ds ∈ many Char.isDigit) (rest : List Char) :
    BeginsUnsigned (ds ++ rest) := by
  obtain ⟨hne, hall⟩ := mem_many.mp hds
  obtain ⟨d, ds, rfl⟩ := List.exists_cons_of_ne_nil hne
  intro c hc
  obtain rfl : d = c := by simpa using hc
  exact ne_sign_of_isDigit (hall d List.mem_cons_self)

theorem splitSign_signText (negative : Bool) (h : BeginsUnsigned cs) :
    splitSign (Binary64.signText negative ++ cs) = (negative, cs) := by
  cases negative
  · exact splitSign_of_beginsUnsigned h
  · rfl

/-- A real numeral has the parts it is written with. -/
theorem RealNumeral.realParts_eq (h : RealNumeral cs n e) (negative : Bool) :
    Token.realParts (Binary64.signText negative ++ cs) = (negative, n, e) := by
  have hdot : ∀ rest c, ('.' :: rest).head? = some c → c.isDigit = false := by
    rintro rest c ⟨⟩
    rfl
  have hmark : ∀ rest c, ('e' :: rest).head? = some c → c.isDigit = false := by
    rintro rest c ⟨⟩
    rfl
  unfold Token.realParts
  cases h with
  | @point whole fraction hwhole hfraction =>
    have hfront := (mem_many.mp hwhole).2
    have hback := (mem_many.mp hfraction).2
    rw [splitSign_signText negative (beginsUnsigned_append hwhole _)]
    simp only [takeWhile_isDigit_append hfront (hdot _), dropWhile_isDigit_append hfront (hdot _),
      List.takeWhile_eq_self_iff.mpr hback, List.dropWhile_eq_nil_iff.mpr hback]
    simp [signedValue, splitSign, value]
  | @pointExponent whole fraction e hwhole hfraction =>
    have hfront := (mem_many.mp hwhole).2
    have hback := (mem_many.mp hfraction).2
    rw [splitSign_signText negative (beginsUnsigned_append hwhole _)]
    simp only [takeWhile_isDigit_append hfront (hdot _), dropWhile_isDigit_append hfront (hdot _),
      takeWhile_isDigit_append hback (hmark _), dropWhile_isDigit_append hback (hmark _),
      List.drop_one, List.tail_cons, signedValue_numeral]
  | @exponent whole e hwhole =>
    have hfront := (mem_many.mp hwhole).2
    rw [splitSign_signText negative (beginsUnsigned_append hwhole _)]
    simp only [takeWhile_isDigit_append hfront (hmark _), dropWhile_isDigit_append hfront (hmark _)]
    simp [signedValue_numeral]

end Numerals

/-! ### The written form of a decimal -/

namespace Decimal

variable {ds : List Char}

/-- The digits of a decimal are the significant ones with zeros behind them. -/
theorem exists_toDigits_eq (d : Decimal) :
    ∃ j, Nat.toDigits 10 d.digits = d.significant ++ List.replicate j '0' := by
  have hsplit : Nat.toDigits 10 d.digits =
      ((Nat.toDigits 10 d.digits).reverse.dropWhile (· = '0')).reverse ++
        ((Nat.toDigits 10 d.digits).reverse.takeWhile (· = '0')).reverse := by
    rw [← List.reverse_append, List.takeWhile_append_dropWhile, List.reverse_reverse]
  have hzeros : ((Nat.toDigits 10 d.digits).reverse.takeWhile (· = '0')).reverse =
      List.replicate ((Nat.toDigits 10 d.digits).reverse.takeWhile (· = '0')).length '0' := by
    refine List.eq_replicate_iff.mpr ⟨List.length_reverse, fun c hc => ?_⟩
    have hall := List.all_eq_true.mp List.all_takeWhile c (List.mem_reverse.mp hc)
    simpa using hall
  rw [hzeros] at hsplit
  unfold significant
  split
  next h =>
    -- All digits are zeros, so there is only one.
    rw [h, List.nil_append] at hsplit
    have hvalue := value_toDigits d.digits
    rw [hsplit, ← List.append_nil (List.replicate _ _), value_zeros_append] at hvalue
    refine ⟨0, ?_⟩
    rw [← hvalue]
    rfl
  next => exact ⟨_, hsplit⟩

theorem significant_mem_many (d : Decimal) : d.significant ∈ many Char.isDigit := by
  have hne : d.significant ≠ [] := by
    unfold significant
    split
    · simp
    next h => exact h
  obtain ⟨j, hj⟩ := d.exists_toDigits_eq
  refine mem_many.mpr ⟨hne, fun c hc => (mem_many.mp (toDigits_mem_many d.digits)).2 c ?_⟩
  rw [hj]
  exact List.mem_append_left _ hc

/-- A decimal reads as its significant digits, scaled by their place. -/
theorem read?_eq (d : Decimal) :
    d.read? = Magnitude.ofDecimal? (value d.significant)
      (d.leading + 1 - (d.significant.length : Int)) := by
  obtain ⟨j, hj⟩ := d.exists_toDigits_eq
  have hdigits : d.digits = value d.significant * tenTo j := by
    rw [← value_append_zeros, ← hj, value_toDigits]
  have hexponent : d.exponent = d.leading + 1 - (d.significant.length : Int) - j := by
    rw [leading, hj, List.length_append, List.length_replicate]
    omega
  rw [read?, hexponent, hdigits, Magnitude.ofDecimal?_mul_tenTo]

theorem positional_of_le {e : Nat} (h : ds.length ≤ e + 1) :
    positional ds (.ofNat e) =
      (ds ++ List.replicate (e + 1 - ds.length) '0') ++ '.' :: ['0'] := by
  rw [positional, List.drop_eq_nil_of_le h, List.take_of_length_le h]

theorem positional_of_lt {e : Nat} (h : e + 1 < ds.length) :
    positional ds (.ofNat e) = ds.take (e + 1) ++ '.' :: ds.drop (e + 1) := by
  obtain ⟨c, cs, hcs⟩ := List.exists_cons_of_ne_nil (l := ds.drop (e + 1)) (by
    rw [ne_eq, List.drop_eq_nil_iff]
    omega)
  rw [positional, hcs, show e + 1 - ds.length = 0 by omega, List.replicate_zero, List.append_nil]

/-- Digits with zeros before and behind them. -/
theorem zeros_mem_many (hds : ds ∈ many Char.isDigit) (m n : Nat) :
    List.replicate m '0' ++ (ds ++ List.replicate n '0') ∈ many Char.isDigit := by
  obtain ⟨hne, hall⟩ := mem_many.mp hds
  refine mem_many.mpr ⟨by simp [hne], fun c hc => ?_⟩
  have hzero : ('0' : Char).isDigit := rfl
  simp only [List.mem_append, List.mem_replicate] at hc
  rcases hc with ⟨-, rfl⟩ | hc | ⟨-, rfl⟩
  · exact hzero
  · exact hall c hc
  · exact hzero

theorem positional_numeral (hds : ds ∈ many Char.isDigit) (leading : Int) :
    ∃ n e, RealNumeral (positional ds leading) n e ∧
      Magnitude.ofDecimal? n e =
        Magnitude.ofDecimal? (value ds) (leading + 1 - (ds.length : Int)) := by
  have hzero : ['0'] ∈ many Char.isDigit := mem_many.mpr ⟨by simp, by simp⟩
  cases leading with
  | ofNat e =>
    by_cases hlen : ds.length ≤ e + 1
    · -- The digits end before the point, and zeros fill up the places to it.
      obtain ⟨k, hk⟩ := Nat.exists_eq_add_of_le hlen
      have hwhole : ds ++ List.replicate k '0' ∈ many Char.isDigit := zeros_mem_many hds 0 k
      have hdigits : value (ds ++ List.replicate k '0' ++ ['0']) = value ds * tenTo (k + 1) := by
        rw [List.append_assoc, ← List.replicate_succ', value_append_zeros]
      have hexp : (-((['0'] : List Char).length : Int)) =
          Int.ofNat e + 1 - (ds.length : Int) - ((k + 1 : Nat) : Int) := by
        simp only [List.length_singleton, Int.ofNat_eq_natCast]
        omega
      rw [positional_of_le hlen, show e + 1 - ds.length = k by omega]
      refine ⟨_, _, .point hwhole hzero, ?_⟩
      rw [hdigits, hexp, Magnitude.ofDecimal?_mul_tenTo]
    · obtain ⟨hne, hall⟩ := mem_many.mp hds
      have hwhole : ds.take (e + 1) ∈ many Char.isDigit :=
        mem_many.mpr ⟨by simp [hne], fun c hc => hall c (List.mem_of_mem_take hc)⟩
      have hfraction : ds.drop (e + 1) ∈ many Char.isDigit := by
        refine mem_many.mpr ⟨?_, fun c hc => hall c (List.mem_of_mem_drop hc)⟩
        rw [ne_eq, List.drop_eq_nil_iff]
        exact hlen
      have hexp : (-((ds.drop (e + 1)).length : Int)) = Int.ofNat e + 1 - (ds.length : Int) := by
        simp only [List.length_drop, Int.ofNat_eq_natCast]
        omega
      rw [positional_of_lt (by omega)]
      refine ⟨_, _, .point hwhole hfraction, ?_⟩
      rw [List.take_append_drop, hexp]
  | negSucc e =>
    have hfraction : List.replicate e '0' ++ ds ∈ many Char.isDigit := by
      simpa using zeros_mem_many hds e 0
    have hdigits : value (['0'] ++ (List.replicate e '0' ++ ds)) = value ds :=
      (value_zeros_append 1 _).trans (value_zeros_append e ds)
    have hexp : (-((List.replicate e '0' ++ ds).length : Int)) =
        Int.negSucc e + 1 - (ds.length : Int) := by
      simp only [List.length_append, List.length_replicate, Int.negSucc_eq]
      omega
    refine ⟨_, _, .point hzero hfraction, ?_⟩
    rw [hdigits, hexp]

theorem scientific_numeral (hds : ds ∈ many Char.isDigit) (leading : Int) :
    ∃ e, RealNumeral (scientific ds leading) (value ds) e ∧
      e = leading + 1 - (ds.length : Int) := by
  obtain ⟨hne, hall⟩ := mem_many.mp hds
  match ds, hne with
  | [c], _ => exact ⟨_, .exponent leading hds, by simp⟩
  | c :: f :: fs, _ =>
    have hwhole : [c] ∈ many Char.isDigit :=
      mem_many.mpr ⟨by simp, fun a ha => hall a (by simp_all)⟩
    have hfraction : f :: fs ∈ many Char.isDigit :=
      mem_many.mpr ⟨by simp, fun a ha => hall a (List.mem_cons_of_mem c ha)⟩
    refine ⟨_, .pointExponent leading hwhole hfraction, ?_⟩
    simp only [List.length_cons]
    omega

/-- A decimal is written as a real numeral that reads as the decimal does. -/
theorem text_numeral (d : Decimal) :
    ∃ n e, RealNumeral d.text n e ∧ Magnitude.ofDecimal? n e = d.read? := by
  rw [read?_eq]
  unfold text
  split
  · exact positional_numeral d.significant_mem_many d.leading
  · obtain ⟨e, he, rfl⟩ := scientific_numeral d.significant_mem_many d.leading
    exact ⟨_, _, he, rfl⟩

end Decimal

/-! ### The written form of a number -/

theorem Magnitude.text_numeral (m : Magnitude) :
    ∃ n e, RealNumeral m.text n e ∧ Magnitude.ofDecimal? n e = some m := by
  unfold Magnitude.text
  split
  next h =>
    have hread : (⟨0, 0⟩ : Decimal).read? = some m := by rw [h, Decimal.read?, ofDecimal?_zero]
    rw [← hread]
    exact Decimal.text_numeral _
  next h =>
    rw [← m.read?_shortest]
    exact Decimal.text_numeral _

namespace Binary64

theorem text_mem_language (negative : Bool) (m : Magnitude) :
    (finite negative m).text ∈ Token.Pattern.real.language := by
  obtain ⟨n, e, hnumeral, -⟩ := m.text_numeral
  exact hnumeral.signed_mem_language negative

/-- A finite number is written as a numeral that reads back as it, bit for bit. -/
theorem real?_text (negative : Bool) (m : Magnitude) :
    Token.real? (finite negative m).text = some (.finite negative m) := by
  obtain ⟨n, e, hnumeral, hread⟩ := m.text_numeral
  rw [text, Token.real?, hnumeral.realParts_eq negative]
  simp only [hread, Option.map_some]

end Binary64

end FilterLang
