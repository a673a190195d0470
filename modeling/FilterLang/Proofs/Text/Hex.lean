import FilterLang.Text.Hex
import Mathlib.Data.List.Forall2
import Mathlib.Data.Nat.Digits.Defs

/-! Hexadecimal numerals. The last digit counts ones and each digit before it sixteen times as much,
in either case; reading a numeral gives the number that it stands for so, and every number has one
that stands for it. -/

namespace FilterLang.Text.Hex

variable {c : Char} {cs : List Char} {d n : Nat}

/-- The character is a digit, in either case, and counts so much. -/
def Counts (c : Char) (d : Nat) : Prop :=
  d < 16 ∧ (c = Nat.digitChar d ∨ c = (Nat.digitChar d).toUpper)

/-- The digits, of which there is at least one, stand for the number. -/
def Denotes (digits : List Char) (n : Nat) : Prop :=
  digits ≠ [] ∧ ∃ ds, List.Forall₂ Counts digits.reverse ds ∧ n = Nat.ofDigits 16 ds

theorem digit?_digitChar : ∀ d < 16, digit? (Nat.digitChar d) = some d := by decide

theorem digit?_toUpper_digitChar : ∀ d < 16, digit? (Nat.digitChar d).toUpper = some d := by decide

theorem digit?_eq_none_of_le (h : 128 ≤ c.toNat) : digit? c = none := by
  simp only [digit?, Char.le_def, UInt32.le_iff_toNat_le]
  change 128 ≤ c.val.toNat at h
  have h9 : '9'.val.toNat = 57 := rfl
  have hf : 'f'.val.toNat = 102 := rfl
  have hF : 'F'.val.toNat = 70 := rfl
  rw [if_neg (by omega), if_neg (by omega), if_neg (by omega)]

theorem digit?_eq_some_iff : digit? c = some d ↔ Counts c d := by
  constructor
  · intro h
    have hsmall : c.toNat < 128 := by
      by_contra hlarge
      rw [digit?_eq_none_of_le (Nat.le_of_not_lt hlarge)] at h
      cases h
    have hall : ∀ n < 128, ∀ d ∈ digit? (Char.ofNat n), d < 16 ∧
        (Char.ofNat n = Nat.digitChar d ∨ Char.ofNat n = (Nat.digitChar d).toUpper) := by
      decide
    have hc := hall c.toNat hsmall d
    rw [Char.ofNat_toNat] at hc
    exact hc h
  · rintro ⟨hd, rfl | rfl⟩
    · exact digit?_digitChar d hd
    · exact digit?_toUpper_digitChar d hd

theorem continued?_append (v : Nat) (cs ds : List Char) :
    continued? v (cs ++ ds) = (continued? v cs).bind (continued? · ds) := by
  induction cs generalizing v with
  | nil => rfl
  | cons c cs ih =>
    rw [List.cons_append, continued?, continued?]
    cases digit? c with
    | none => rfl
    | some d => exact ih _

theorem continued?_reverse_eq_some_iff (cs : List Char) (n : Nat) :
    continued? 0 cs.reverse = some n ↔ ∃ ds, List.Forall₂ Counts cs ds ∧ n = Nat.ofDigits 16 ds := by
  induction cs generalizing n with
  | nil => simp [continued?, eq_comm]
  | cons c cs ih =>
    rw [List.reverse_cons, continued?_append, Option.bind_eq_some_iff]
    constructor
    · rintro ⟨m, hm, hn⟩
      obtain ⟨d, hd, hn⟩ := Option.bind_eq_some_iff.mp hn
      obtain ⟨ds, hds, rfl⟩ := (ih m).mp hm
      refine ⟨d :: ds, .cons (digit?_eq_some_iff.mp hd) hds, ?_⟩
      rw [Nat.ofDigits_cons, Nat.add_comm, Nat.mul_comm]
      exact (Option.some.inj hn).symm
    · rintro ⟨all, hall, rfl⟩
      obtain ⟨d, ds, hd, hds, rfl⟩ := List.forall₂_cons_left_iff.mp hall
      refine ⟨_, (ih _).mpr ⟨ds, hds, rfl⟩, ?_⟩
      rw [continued?, digit?_eq_some_iff.mpr hd, Nat.ofDigits_cons, Nat.add_comm, Nat.mul_comm]
      rfl

/-- Reading gives the number that the digits stand for, and fails if there is none. -/
theorem value?_eq_some_iff : value? cs = some n ↔ Denotes cs n := by
  cases cs with
  | nil => simp [value?, Denotes]
  | cons c cs =>
    have hread := continued?_reverse_eq_some_iff (c :: cs).reverse n
    rw [List.reverse_reverse] at hread
    rw [value?, hread, Denotes, and_iff_right (List.cons_ne_nil c cs)]
    exact List.cons_ne_nil c cs

/-- A single digit stands for less than sixteen. -/
theorem Denotes.lt_of_singleton (h : Denotes [c] n) : n < 16 := by
  obtain ⟨-, ds, hds, rfl⟩ := h
  obtain ⟨d, others, hd, hothers, rfl⟩ := List.forall₂_cons_left_iff.mp hds
  obtain rfl := List.forall₂_nil_left_iff.mp hothers
  rw [Nat.ofDigits_singleton]
  exact hd.1

theorem isDigit_of_counts (h : Counts c d) : isDigit c := by
  rw [isDigit, digit?_eq_some_iff.mpr h]
  rfl

theorem Denotes.isDigit (h : Denotes cs n) (hc : c ∈ cs) : isDigit c := by
  obtain ⟨-, ds, hds, -⟩ := h
  have hdigits := hds.imp fun c d hd => And.intro (isDigit_of_counts hd) hd
  exact ((List.forall₂_and_left _ _).mp hdigits).1 c (List.mem_reverse.mpr hc)

theorem numeral_append {k : Nat} (hn : 0 < n) (hk : k < 16) :
    numeral (16 * n + k) = numeral n ++ [Nat.digitChar k] := by
  rw [numeral, ← Nat.toDigits_append_toDigits (by decide) hn hk, Nat.toDigits_of_lt_base hk]
  rfl

theorem continued?_numeral (n : Nat) : continued? 0 (numeral n) = some n := by
  induction n using Nat.base_induction 16 (by decide) with
  | single m hm =>
    rw [numeral, Nat.toDigits_of_lt_base hm, continued?, digit?_digitChar m hm, Nat.zero_mul,
      Option.bind_some, Nat.zero_add]
    rfl
  | digit m k hk hm ih =>
    rw [numeral_append hm hk, continued?_append, ih, Option.bind_some, continued?,
      digit?_digitChar k hk, Nat.mul_comm]
    rfl

/-- The numeral of a number stands for it. -/
theorem denotes_numeral (n : Nat) : Denotes (numeral n) n := by
  have hne : numeral n ≠ [] := Nat.toDigits_ne_nil
  obtain ⟨c, cs, hcs⟩ := List.exists_cons_of_ne_nil hne
  rw [← value?_eq_some_iff, hcs, value?, ← hcs, continued?_numeral]
  exact hcs ▸ List.cons_ne_nil c cs

theorem toNat_ofNat : ∀ n < 128, (Char.ofNat n).toNat = n := by decide

theorem character?_eq_some_iff : character? n = some c ↔ c.toNat = n := by
  constructor
  · intro h
    by_cases hn : n.isValidChar
    · rw [character?, dif_pos hn] at h
      cases h
      rfl
    · rw [character?, dif_neg hn] at h
      cases h
  · rintro rfl
    have h : c.toNat.isValidChar := c.valid
    rw [character?, dif_pos h]
    exact congrArg some (Char.toNat_inj.mp rfl)

/-- A numeral names the character whose code point it stands for. -/
theorem value?_bind_character?_eq_some_iff :
    (value? cs).bind character? = some c ↔ Denotes cs c.toNat := by
  rw [Option.bind_eq_some_iff]
  constructor
  · rintro ⟨n, hn, hc⟩
    rw [character?_eq_some_iff.mp hc]
    exact value?_eq_some_iff.mp hn
  · intro h
    exact ⟨c.toNat, value?_eq_some_iff.mpr h, character?_eq_some_iff.mpr rfl⟩

end FilterLang.Text.Hex
