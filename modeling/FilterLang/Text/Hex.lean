/-! Hexadecimal numerals and the characters they name. -/

namespace FilterLang.Text.Hex

/-- The value of a digit of either case. -/
def digit? (c : Char) : Option Nat :=
  if '0' ≤ c ∧ c ≤ '9' then some (c.toNat - 48)
  else if 'a' ≤ c ∧ c ≤ 'f' then some (c.toNat - 87)
  else if 'A' ≤ c ∧ c ≤ 'F' then some (c.toNat - 55)
  else none

/-- Is the character a digit of either case? -/
def isDigit (c : Char) : Bool := (digit? c).isSome

/-- The value of a numeral continued by more digits. -/
def continued? (value : Nat) : List Char → Option Nat
  | [] => some value
  | c :: cs => (digit? c).bind fun d => continued? (value * 16 + d) cs

/-- The value of a numeral, which has at least one digit. -/
def value? : List Char → Option Nat
  | [] => none
  | cs => continued? 0 cs

/-- The numeral of a number in lower case, without leading zeros. -/
def numeral (n : Nat) : List Char := Nat.toDigits 16 n

/-- The character with the given code point; surrogates and numbers beyond the last code point
name none. -/
def character? (n : Nat) : Option Char :=
  if h : n.isValidChar then some (Char.ofNatAux n h) else none

end FilterLang.Text.Hex
