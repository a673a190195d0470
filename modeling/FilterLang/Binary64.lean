import FilterLang.Power

/-! Double-precision numbers as exact mathematical objects. A finite number is a sign and the
place of its magnitude among all finite magnitudes, counted upwards from zero; that place is also
the pattern of its exponent and fraction fields, so encoding needs no arithmetic and the order of
the places is the order of the numbers. Every magnitude is a whole number of units of `2 ^ -1074`,
and rounding is integer division in those units: to the nearest magnitude, a tie going to the even
significand. -/

namespace FilterLang

/-- The finite magnitudes in increasing order. Their number is the pattern of infinity. -/
abbrev Magnitude := Fin 0x7ff0000000000000

/-- A double-precision number; all NaN patterns are one value. -/
inductive Binary64 where
  | finite (negative : Bool) (magnitude : Magnitude)
  | infinite (negative : Bool)
  | nan
  deriving DecidableEq

namespace Magnitude

/-- The magnitude of zero. -/
def zero : Magnitude := ⟨0, by decide⟩

/-- How many magnitudes share a scale: `2 ^ 52`. The significands of the lowest ones lie below it,
those of all others between it and its double. -/
abbrev binade : Nat := 0x10000000000000

/-- The power of two, counted from the least one, that scales the significand. -/
def scale (m : Magnitude) : Nat := m.val / binade - 1

/-- The significand, of 53 bits at most. -/
def significand (m : Magnitude) : Nat := m.val - m.scale * binade

/-- The magnitude in units of `2 ^ -1074`. -/
def units (m : Magnitude) : Nat := m.significand * twoTo m.scale

/-- One, in units. -/
def one : Nat := twoTo 1074

/-- The place of the magnitude nearest to `n / d` units, a tie going to the even significand. A
quotient beyond the greatest magnitude gets a place that no magnitude has. Rounding a significand
up to `2 ^ 53` needs no case of its own: the next place is the next magnitude. -/
def nearestPlace (n d : Nat) : Nat :=
  let scale := (n / d).log2 - 52
  let step := d * twoTo scale
  let below := n / step
  let excess := n % step
  scale * binade +
    if 2 * excess < step ∨ (2 * excess = step ∧ below % 2 = 0) then below else below + 1

/-- The magnitude nearest to `n / d` units, unless that is infinite. -/
def nearest? (n d : Nat) : Option Magnitude :=
  let place := nearestPlace n d
  if h : place < 0x7ff0000000000000 then some ⟨place, h⟩ else none

/-- The magnitude nearest to a natural number. -/
def ofNat? (n : Nat) : Option Magnitude := nearest? (n * one) 1

/-- The magnitude nearest to `digits * 10 ^ exponent`. As `10 > 2 ^ 3`, an exponent far out of
range is decided by the length of the digits alone, without computing the power. -/
def ofDecimal? (digits : Nat) : Int → Option Magnitude
  | .ofNat e =>
    if digits = 0 then some zero
    else if 1024 ≤ digits.log2 + 3 * e then none
    else nearest? (digits * tenTo e * one) 1
  | .negSucc e =>
    if digits = 0 ∨ digits.log2 + 1077 ≤ 3 * (e + 1) then some zero
    else nearest? (digits * one) (tenTo (e + 1))

/-- The product, rounded once. -/
def mul? (x y : Magnitude) : Option Magnitude := nearest? (x.units * y.units) one

/-- The quotient, rounded once. -/
def div? (x y : Magnitude) : Option Magnitude := nearest? (x.units * one) y.units

end Magnitude

namespace Binary64

/-- A rounded magnitude with its sign; what is too large becomes infinite. -/
def signed (negative : Bool) : Option Magnitude → Binary64
  | some m => .finite negative m
  | none => .infinite negative

/-- The number nearest to an integer. -/
def ofInt (n : Int) : Binary64 := signed (n < 0) (Magnitude.ofNat? n.natAbs)

/-- Reads the 64-bit interchange pattern. -/
def ofBits (bits : UInt64) : Binary64 :=
  let negative := 0x8000000000000000 ≤ bits.toNat
  let place := bits.toNat % 0x8000000000000000
  if h : place < 0x7ff0000000000000 then .finite negative ⟨place, h⟩
  else if place = 0x7ff0000000000000 then .infinite negative
  else .nan

/-- The weight of the sign in the interchange pattern. -/
def signBit (negative : Bool) : Nat := if negative then 0x8000000000000000 else 0

/-- The 64-bit interchange pattern; a NaN gets the usual quiet one. -/
def toBits : Binary64 → UInt64
  | .finite negative m => UInt64.ofNat (signBit negative + m.val)
  | .infinite negative => UInt64.ofNat (signBit negative + 0x7ff0000000000000)
  | .nan => 0x7ff8000000000000

/-- The place among all numbers from the least to the greatest; both zeros stand at 0. -/
def rank? : Binary64 → Option Int
  | .finite negative m => some (if negative then -(m.val : Int) else m.val)
  | .infinite negative => some (if negative then -0x7ff0000000000000 else 0x7ff0000000000000)
  | .nan => none

/-- The order of two numbers; a NaN stands in no order, and the two zeros are equal. -/
def order? (x y : Binary64) : Option Ordering :=
  match x.rank?, y.rank? with
  | some a, some b => some (compare a b)
  | _, _ => none

/-- Equality of numbers: a NaN differs from itself, and the two zeros are equal. -/
def same (x y : Binary64) : Bool := x.order? y == some .eq

end Binary64

end FilterLang
