import FilterLang.Binary64

/-! The shortest decimal of a magnitude: on the coarsest decimal grid that has a point reading
back as the magnitude, the one of its two neighbours that reads back and lies nearer. -/

namespace FilterLang

/-- The decimal number `digits * 10 ^ exponent`. -/
structure Decimal where
  digits : Nat
  exponent : Int
  deriving DecidableEq

namespace Decimal

/-- The magnitude that the decimal reads as. -/
def read? (d : Decimal) : Option Magnitude := Magnitude.ofDecimal? d.digits d.exponent

end Decimal

namespace Magnitude

/-- How many decimal digits a number is written with. -/
def decimalLength (n : Nat) : Nat := (Nat.toDigits 10 n).length

/-- The exponent of the leading decimal digit of a magnitude other than zero. Below one it is
found from the reciprocal, whose digits are as few. -/
def leadingExponent (m : Magnitude) : Int :=
  if one ≤ m.units then (decimalLength (m.units / one) : Int) - 1
  else -(decimalLength ((one - 1) / m.units) : Int)

/-- The magnitude in units of `10 ^ exponent`, as a fraction. -/
def onGrid (m : Magnitude) : Int → Nat × Nat
  | .ofNat e => (m.units, one * tenTo e)
  | .negSucc e => (m.units * tenTo (e + 1), one)

/-- The neighbours of the magnitude among the multiples of `10 ^ exponent`, the nearer one first;
halfway between two, the upper one. -/
def neighbours (m : Magnitude) (exponent : Int) : List Decimal :=
  let (n, d) := m.onGrid exponent
  let below := n / d
  if 2 * (n % d) < d then [⟨below, exponent⟩, ⟨below + 1, exponent⟩]
  else [⟨below + 1, exponent⟩, ⟨below, exponent⟩]

/-- The exact decimal expansion. -/
def expansion (m : Magnitude) : Decimal := ⟨m.units * Nat.pow 5 1074, -1074⟩

/-- The decimal with the fewest digits that reads back as the magnitude. Seventeen digits always
suffice; the exact expansion stands in for a grid finer than that. -/
def shortest (m : Magnitude) : Decimal :=
  let leading := m.leadingExponent
  ((List.range 17).findSome? fun i =>
    (m.neighbours (leading - (i : Nat))).find? fun d => d.read? = some m).getD m.expansion

end Magnitude

end FilterLang
