import FilterLang.Text.Extending
import FilterLang.Text.Graphic
import FilterLang.Text.Hex
import FilterLang.Text.Ignorable

/-! Quoted text. Writing escapes the quote, the backslash and four control characters by a letter
or sign. It escapes by its code point whatever has no shape of its own, attaches to its neighbour
or may stay invisible. Reading accepts those escapes and more: the further letters, a code below
128 after `x`, four digits or a braced numeral after `u`. -/

namespace FilterLang.Text.Quoted

/-- The escape of a character by its code point. -/
def codeEscape (c : Char) : List Char :=
  ['\\', 'u', '\x7b'] ++ Hex.numeral c.toNat ++ ['\x7d']

/-- Does the character show up between quotes, and apart from its neighbours? -/
def isPlain (c : Char) : Bool := isGraphic c && !isExtending c && !isIgnorable c

/-- How a character is written between quotes. -/
def written : Char → List Char
  | '\x00' => ['\\', '0']
  | '\t' => ['\\', 't']
  | '\r' => ['\\', 'r']
  | '\n' => ['\\', 'n']
  | '"' => ['\\', '"']
  | '\\' => ['\\', '\\']
  | c => if isPlain c then [c] else codeEscape c

/-- The body of a quoted text. -/
def body (cs : List Char) : List Char := cs.flatMap written

/-- The text between quotes. -/
def encode (cs : List Char) : List Char := '"' :: (body cs ++ ['"'])

/-- The character that a single letter or sign stands for after a backslash. -/
def letterEscape? : Char → Option Char
  | '"' => some '"'
  | '\\' => some '\\'
  | '/' => some '/'
  | '\'' => some '\''
  | 'n' => some '\n'
  | 'r' => some '\r'
  | 't' => some '\t'
  | '0' => some '\x00'
  | 'a' => some '\x07'
  | 'b' => some '\x08'
  | 'f' => some '\x0c'
  | 'v' => some '\x0b'
  | _ => none

/-- Reads the escape that follows a backslash, with the number of characters it takes. After `x`
the next two characters, or the last one of the text, have to be digits of a code below 128. -/
def escape? : List Char → Option (Char × Nat)
  | 'x' :: rest =>
    let digits := rest.take 2
    match Hex.value? digits with
    | some n => if n < 128 then some (Char.ofNat n, digits.length + 1) else none
    | none => none
  | 'u' :: '\x7b' :: rest =>
    let digits := rest.takeWhile (· ≠ '\x7d')
    match rest.dropWhile (· ≠ '\x7d') with
    | [] => none
    | _ => ((Hex.value? digits).bind Hex.character?).map fun c => (c, digits.length + 3)
  | 'u' :: rest =>
    let digits := rest.take 4
    if digits.length < 4 then none
    else ((Hex.value? digits).bind Hex.character?).map fun c => (c, 5)
  | c :: _ => (letterEscape? c).map fun e => (e, 1)
  | [] => none

/-- Reads the body of a quoted text on: `seen` holds what is read already, last character first,
and `skip` counts the characters of an escape still to be passed. -/
def decodeFrom (seen : List Char) : (skip : Nat) → List Char → Option (List Char)
  | _, [] => some seen.reverse
  | skip + 1, _ :: rest => decodeFrom seen skip rest
  | 0, c :: rest =>
    if c = '\\' then
      match escape? rest with
      | some (e, n) => decodeFrom (e :: seen) n rest
      | none => none
    else decodeFrom (c :: seen) 0 rest

/-- The text that the body of a quoted text stands for. -/
def decode (cs : List Char) : Option (List Char) := decodeFrom [] 0 cs

end FilterLang.Text.Quoted
