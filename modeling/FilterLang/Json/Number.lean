import FilterLang.Json
import FilterLang.Text.Digits

/-! The value of a JSON numeral, found as serde_json 1.0 finds it without its feature for exact
round trips. An integer that fits in 64 bits is kept exactly, but for `-0`, which is the real
negative zero. Any other numeral is a real, found with a few roundings: as many digits as fit in an
unsigned 64-bit significand are taken, further digits of the whole part count as places and further
digits of the fraction are passed over; the significand is rounded, and then multiplied or divided
by the rounded power of ten, in steps of `10 ^ 308` where the exponent is lower than that. A real
that would be infinite makes the numeral invalid. -/

namespace FilterLang.Json

open Text.Digits

/-- The parts of a numeral. -/
structure Numeral where
  negative : Bool
  whole : List Char
  fraction : Option (List Char)
  exponent : Option Int

/-- Reads a run of decimal digits, which is not empty. -/
def digits? (cs : List Char) : Option (List Char × List Char) :=
  match cs.takeWhile Char.isDigit with
  | [] => none
  | ds => some (ds, cs.dropWhile Char.isDigit)

/-- Reads the fraction of a numeral, if there is one. -/
def fraction? : List Char → Option (Option (List Char) × List Char)
  | '.' :: rest => (digits? rest).map fun (ds, rest) => (some ds, rest)
  | rest => some (none, rest)

/-- Reads the exponent of a numeral, if there is one. -/
def exponent? (cs : List Char) : Option (Option Int × List Char) :=
  match cs with
  | c :: rest =>
    if c = 'e' ∨ c = 'E' then
      let (negative, rest) := splitSign rest
      (digits? rest).map fun (ds, rest) =>
        let n : Int := value ds
        (some (if negative then -n else n), rest)
    else some (none, cs)
  | [] => some (none, cs)

/-- Reads the whole part of a numeral, which begins with a zero only if that is all of it. -/
def whole? (cs : List Char) : Option (List Char × List Char) :=
  match digits? cs with
  | some ('0' :: _ :: _, _) => none
  | other => other

/-- Reads a numeral from the front of a text. -/
def numeral? (cs : List Char) : Option (Numeral × List Char) :=
  let (negative, cs) := match cs with
    | '-' :: rest => (true, rest)
    | rest => (false, rest)
  (whole? cs).bind fun (whole, cs) =>
  (fraction? cs).bind fun (fraction, cs) =>
  (exponent? cs).map fun (exponent, cs) => (⟨negative, whole, fraction, exponent⟩, cs)

/-- Appends digits to a significand while it stays below `2 ^ 64`; the second component counts the
digits that are left. -/
def absorb (significand : Nat) : List Char → Nat × Nat
  | [] => (significand, 0)
  | d :: ds =>
    let more := significand * 10 + digitValue d
    if more < UInt64.size then absorb more ds else (significand, ds.length + 1)

/-- The significand of a numeral and the power of ten it is scaled by. -/
def Numeral.scaled (n : Numeral) : Nat × Int :=
  let (significand, places) := absorb 0 n.whole
  let fraction := n.fraction.getD []
  let (significand, left) := absorb significand fraction
  (significand, (places : Int) - ((fraction.length - left : Nat) : Int) + n.exponent.getD 0)

/-- Multiplies by a power of ten. -/
def timesTen? (m : Magnitude) (exponent : Nat) : Option Magnitude :=
  if m = .zero then some m else (Magnitude.ofDecimal? 1 exponent).bind m.mul?

/-- Divides by a power of ten of a magnitude's range. -/
def overTen? (m : Magnitude) (exponent : Nat) : Option Magnitude :=
  (Magnitude.ofDecimal? 1 exponent).bind m.div?

/-- Divides by `10 ^ 308` repeatedly, until zero is reached. -/
def overTenSteps? (m : Magnitude) : (times : Nat) → Option Magnitude
  | 0 => some m
  | times + 1 =>
    if m = .zero then some m else (overTen? m 308).bind fun m => overTenSteps? m times

/-- Scales a rounded significand. -/
def scale? (m : Magnitude) : Int → Option Magnitude
  | .ofNat e => timesTen? m e
  | .negSucc e => (overTenSteps? m (e / 308)).bind fun m => overTen? m (e % 308 + 1)

/-- The value of a numeral as a real. -/
def Numeral.real? (n : Numeral) : Option Binary64 :=
  let (significand, exponent) := n.scaled
  ((Magnitude.ofNat? significand).bind fun m => scale? m exponent).map (.finite n.negative)

/-- The value of a numeral as an exact integer: it has neither fraction nor exponent, is not `-0`,
and fits in 64 bits. -/
def Numeral.integer? (n : Numeral) : Option Int64 :=
  match n.fraction, n.exponent with
  | none, none =>
    let magnitude : Int := value n.whole
    if n.negative then
      if magnitude = 0 then none else fit? (-magnitude)
    else fit? magnitude
  | _, _ => none

/-- The value of a numeral. -/
def Numeral.value? (n : Numeral) : Option Number :=
  match n.integer? with
  | some i => some (.integer i)
  | none => n.real?.map .real

end FilterLang.Json
