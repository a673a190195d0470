/-! Decimal numerals. -/

namespace FilterLang.Text.Digits

/-- The value of a decimal digit. -/
def digitValue (c : Char) : Nat := c.toNat - 48

/-- The value of a run of decimal digits, zero if it is empty. -/
def value (ds : List Char) : Nat := ds.foldl (fun n d => n * 10 + digitValue d) 0

/-- Splits off a sign; the first component tells whether it is a minus. -/
def splitSign : List Char → Bool × List Char
  | '+' :: rest => (false, rest)
  | '-' :: rest => (true, rest)
  | rest => (false, rest)

/-- The value of a run of decimal digits with or without a sign. -/
def signedValue (cs : List Char) : Int :=
  let (negative, ds) := splitSign cs
  if negative then -(value ds : Int) else value ds

/-- The integer as a 64-bit one, if it fits. -/
def fit? (n : Int) : Option Int64 :=
  if Int64.minValue.toInt ≤ n ∧ n ≤ Int64.maxValue.toInt then some (Int64.ofInt n) else none

/-- The numeral of an integer, with a minus if it is negative. -/
def numeral : Int → List Char
  | .ofNat n => Nat.toDigits 10 n
  | .negSucc n => '-' :: Nat.toDigits 10 (n + 1)

end FilterLang.Text.Digits
