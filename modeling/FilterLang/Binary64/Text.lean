import FilterLang.Binary64.Shortest
import FilterLang.Text.Digits

/-! The written form of a double-precision number: its shortest decimal, positional with at least
one digit after the point where the leading digit stands between the fourth place after the point
and the sixteenth before it, otherwise scientific with one digit before the point. -/

namespace FilterLang

namespace Decimal

/-- The significant digits, without zeros at the end; zero keeps one digit. -/
def significant (d : Decimal) : List Char :=
  match ((Nat.toDigits 10 d.digits).reverse.dropWhile (· = '0')).reverse with
  | [] => ['0']
  | ds => ds

/-- The exponent of the leading digit. -/
def leading (d : Decimal) : Int := d.exponent + ((Nat.toDigits 10 d.digits).length : Int) - 1

/-- Digits written around a decimal point, `leading` being the exponent of the first one. -/
def positional (digits : List Char) : (leading : Int) → List Char
  | .ofNat e =>
    let whole := digits.take (e + 1) ++ List.replicate (e + 1 - digits.length) '0'
    match digits.drop (e + 1) with
    | [] => whole ++ ['.', '0']
    | fraction => whole ++ '.' :: fraction
  | .negSucc e => '0' :: '.' :: (List.replicate e '0' ++ digits)

/-- Digits written with one of them before the point and an exponent. -/
def scientific (digits : List Char) (leading : Int) : List Char :=
  match digits with
  | [] => []
  | [d] => d :: 'e' :: Text.Digits.numeral leading
  | d :: ds => d :: '.' :: (ds ++ 'e' :: Text.Digits.numeral leading)

/-- The written form of a decimal. -/
def text (d : Decimal) : List Char :=
  if d.digits = 0 ∨ (-4 ≤ d.leading ∧ d.leading < 16) then positional d.significant d.leading
  else scientific d.significant d.leading

end Decimal

namespace Magnitude

/-- The written form of a magnitude. -/
def text (m : Magnitude) : List Char :=
  if m = zero then Decimal.text ⟨0, 0⟩ else m.shortest.text

end Magnitude

namespace Binary64

/-- The minus sign of a negative number. -/
def signText (negative : Bool) : List Char := if negative then ['-'] else []

/-- The written form of a number. -/
def text : Binary64 → List Char
  | .finite negative m => signText negative ++ m.text
  | .infinite negative => signText negative ++ ['i', 'n', 'f']
  | .nan => ['N', 'a', 'N']

end Binary64

end FilterLang
